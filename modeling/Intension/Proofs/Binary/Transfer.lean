import Intension.Binary.Reader
import Intension.Binary.Writer

/-!
# Intension.Proofs.Binary.Transfer

What passes between writers and readers.  A writer that succeeds has appended
certain bytes (`Emits`), and a reader takes certain bytes from the front of any
input (`Takes`); or else the one refuses to write and the other rejects the bytes,
whatever stands around them.

The two directions of a round trip are stated of actions as they stand.  What was
written under some limits comes to a writer and a reader that work under others:
either the one writes the same and the other takes it, or neither does (`Concur`).
Under the same limits the reader then takes back whatever is written (`ReadsBack`).
And what a reader takes is all of one kind (`Consumes`), say what a writer writes
for the value returned.  Both go through sequences and through the checks of
readers, so a round trip of a whole format is put together as its writer and its
reader are.
-/

namespace Intension.Binary

variable {α β : Type}

/-- Two actions in turn succeed just if the first does and the second does from where it left off.
-/
theorem run_bind_eq_ok_iff {ε σ : Type} {x : EStateM ε σ α} {f : α → EStateM ε σ β} {s s'' : σ}
    {b : β} : (x >>= f).run s = .ok b s'' ↔
      ∃ a s', x.run s = .ok a s' ∧ (f a).run s' = .ok b s'' := by
  rw [EStateM.run_bind]
  cases x.run s with
  | error e s' => simp
  | ok a s' =>
    constructor
    · exact fun h => ⟨a, s', rfl, h⟩
    · rintro ⟨_, _, ⟨⟩, h⟩
      exact h

/-! ## writing -/

theorem append_append (out : Array UInt8) (a b : List UInt8) : out ++ a ++ b = out ++ (a ++ b) := by
  apply Array.ext'
  simp

theorem append_nil (out : Array UInt8) : out ++ ([] : List UInt8) = out := by
  apply Array.ext'
  simp

theorem toList_empty_append (bs : List UInt8) : ((#[] : Array UInt8) ++ bs).toList = bs := by
  simp

/-- What was appended to the same bytes is told by the outcome. -/
theorem append_inj {out : Array UInt8} {a b : List UInt8} (h : out ++ a = out ++ b) : a = b := by
  have := congrArg Array.toList h
  simpa using this

/-- The writer appends `bs`, and takes the levels that are left from `room` to `room'`. -/
def Emits (w : Writer) (room room' : Nat) (bs : List UInt8) : Prop :=
  ∀ out, w.run ⟨out, room⟩ = .ok () ⟨out ++ bs, room'⟩

section

variable {w w' : Writer} {room room' room'' : Nat} {a b : List UInt8}

/-- Two writers in turn append their bytes in turn. -/
theorem Emits.bind (hw : Emits w room room' a) (hw' : Emits w' room' room'' b) :
    Emits (w >>= fun _ => w') room room'' (a ++ b) := by
  intro out
  rw [run_bind_eq_ok_iff, ← append_append]
  exact ⟨(), _, hw out, hw' _⟩

theorem emits_nothing (room : Nat) : Emits (pure ()) room room [] := by
  intro out
  rw [append_nil]
  rfl

/-- Raw bytes are appended as they are. -/
theorem emits_raw (bs : List UInt8) (room : Nat) : Emits (Write.raw bs) room room bs :=
  fun _ => rfl

/-- The writer fails, whatever was written before. -/
def Refuses (w : Writer) (room : Nat) : Prop :=
  ∀ out, ∃ fault s, w.run ⟨out, room⟩ = .error fault s

/-- A refusal ends the writing. -/
theorem Refuses.bind (h : Refuses w room) (w' : Writer) : Refuses (w >>= fun _ => w') room := by
  intro out
  obtain ⟨fault, s, hrun⟩ := h out
  exact ⟨fault, s, by rw [EStateM.run_bind, hrun]⟩

/-- A writer refuses where a later part of it does. -/
theorem Emits.refuses (hw : Emits w room room' a) (hw' : Refuses w' room') :
    Refuses (w >>= fun _ => w') room := by
  intro out
  obtain ⟨fault, s, hrun⟩ := hw' (out ++ a)
  exact ⟨fault, s, by rw [EStateM.run_bind, hw out]; exact hrun⟩

/-- Nothing is both written and refused. -/
theorem Emits.not_refuses (h : Emits w room room' a) : ¬Refuses w room := by
  intro hrefuses
  obtain ⟨fault, s, hrun⟩ := hrefuses #[]
  rw [h] at hrun
  cases hrun

/-- A fault is a refusal. -/
theorem refuses_throw (fault : WriteFault) (room : Nat) : Refuses (throw fault) room :=
  fun _ => ⟨fault, _, rfl⟩

end

/-! ## reading -/

/-- The reader takes `bs`, however the input goes on, and returns `v`. -/
def Takes (r : Reader α) (room room' : Nat) (bs : List UInt8) (v : α) : Prop :=
  ∀ offset rest, r.run ⟨offset, bs ++ rest, room⟩ = .ok v ⟨offset + bs.length, rest, room'⟩

/-- The reader fails on `bs`, however the input goes on. -/
def Rejects (r : Reader α) (room : Nat) (bs : List UInt8) : Prop :=
  ∀ offset rest, ∃ e s, r.run ⟨offset, bs ++ rest, room⟩ = .error e s

section

variable {r : Reader α} {f : α → Reader β} {room room' room'' : Nat} {v : α} {u : β}
  {a b : List UInt8}

/-- Two readers in turn take their bytes in turn. -/
theorem Takes.bind (h : Takes r room room' a v) (hf : Takes (f v) room' room'' b u) :
    Takes (r >>= f) room room'' (a ++ b) u := by
  intro offset rest
  rw [run_bind_eq_ok_iff, List.append_assoc, List.length_append, ← Nat.add_assoc]
  exact ⟨v, _, h offset (b ++ rest), hf _ rest⟩

/-- A reader rejects what begins with bytes that its first part rejects. -/
theorem Rejects.bind (h : Rejects r room a) (f : α → Reader β) (b : List UInt8) :
    Rejects (r >>= f) room (a ++ b) := by
  intro offset rest
  obtain ⟨e, s, hrun⟩ := h offset (b ++ rest)
  exact ⟨e, s, by rw [EStateM.run_bind, List.append_assoc, hrun]⟩

/-- A reader rejects what its first part takes and the next one rejects. -/
theorem Takes.rejects (h : Takes r room room' a v) (hf : Rejects (f v) room' b) :
    Rejects (r >>= f) room (a ++ b) := by
  intro offset rest
  obtain ⟨e, s, hrun⟩ := hf (offset + a.length) rest
  refine ⟨e, s, ?_⟩
  rw [EStateM.run_bind, List.append_assoc, h offset (b ++ rest)]
  exact hrun

/-- A reader that fails rejects everything. -/
theorem rejects_fail (offset : Nat) (fault : ReadFault) (room : Nat) (bs : List UInt8) :
    Rejects (Read.fail offset fault : Reader α) room bs := fun _ _ => ⟨_, _, rfl⟩

/-- As many bytes as are asked for are taken. -/
theorem takes_raw (bs : List UInt8) (room : Nat) : Takes (Read.raw bs.length) room room bs bs := by
  intro offset rest
  have hfront : (bs ++ rest).take bs.length = bs := List.take_left
  have hrest : (bs ++ rest).drop bs.length = rest := List.drop_left
  unfold Read.raw
  refine run_bind_eq_ok_iff.2 ⟨_, _, rfl, ?_⟩
  simp only [hfront, hrest]
  rw [if_neg (Nat.lt_irrefl _)]
  rfl

end

/-! ## from writers to readers -/

/-- Whatever `w` writes, `w'` writes it too and the reader takes it and returns `v`, or else `w'`
refuses and the reader rejects it.  The levels that are left go from `left` to `left'` for `w` and
from `room` to `room'` for the others. -/
def Concur (w w' : Writer) (r : Reader α) (left left' room room' : Nat) (v : α) : Prop :=
  ∀ (out : Array UInt8) s, w.run ⟨out, left⟩ = .ok () s →
    ∃ bs : List UInt8, s = ⟨out ++ bs, left'⟩ ∧
      (Emits w' room room' bs ∧ Takes r room room' bs v ∨ Refuses w' room ∧ Rejects r room bs)

/-- Whatever the writer writes, the reader takes it and returns `v`. -/
def ReadsBack (w : Writer) (r : Reader α) (room room' : Nat) (v : α) : Prop :=
  ∀ (out : Array UInt8) s, w.run ⟨out, room⟩ = .ok () s →
    ∃ bs : List UInt8, s = ⟨out ++ bs, room'⟩ ∧ Takes r room room' bs v

section

variable {w w' u u' : Writer} {r : Reader α} {f : α → Reader β}
  {left left' left'' room room' room'' : Nat} {v : α} {x : β}

/-- A writer that succeeds does not refuse, so its own reader takes what it writes. -/
theorem Concur.readsBack (h : Concur w w r room room' room room' v) :
    ReadsBack w r room room' v := by
  intro out s hrun
  obtain ⟨bs, rfl, ⟨-, htakes⟩ | ⟨hrefuses, -⟩⟩ := h out s hrun
  · exact ⟨bs, rfl, htakes⟩
  · obtain ⟨fault, s', herror⟩ := hrefuses out
    rw [hrun] at herror
    cases herror

/-- Two steps concur if each does: the second one matters only where the first was accepted. -/
theorem Concur.bind (h : Concur w w' r left left' room room' v)
    (hf : Concur u u' (f v) left' left'' room' room'' x) :
    Concur (w >>= fun _ => u) (w' >>= fun _ => u') (r >>= f) left left'' room room'' x := by
  intro out s hrun
  obtain ⟨_, s', hw, hu⟩ := run_bind_eq_ok_iff.1 hrun
  obtain ⟨a, rfl, hfirst⟩ := h out s' hw
  obtain ⟨b, rfl, hsecond⟩ := hf _ s hu
  refine ⟨a ++ b, by rw [append_append], ?_⟩
  obtain ⟨hemits, htakes⟩ | ⟨hrefuses, hrejects⟩ := hfirst
  · obtain ⟨hemits', htakes'⟩ | ⟨hrefuses', hrejects'⟩ := hsecond
    · exact .inl ⟨hemits.bind hemits', htakes.bind htakes'⟩
    · exact .inr ⟨hemits.refuses hrefuses', htakes.rejects hrejects'⟩
  · exact .inr ⟨hrefuses.bind u', hrejects.bind f b⟩

/-- Writing nothing is read back as what was known before. -/
theorem concur_nothing (v : α) (left room : Nat) :
    Concur (pure ()) (pure ()) (pure v) left left room room v := by
  intro out s hrun
  cases hrun
  exact ⟨[], by rw [append_nil], .inl ⟨emits_nothing room, fun _ _ => rfl⟩⟩

/-- Raw bytes are read back by their number. -/
theorem concur_raw (bs : List UInt8) (left room : Nat) :
    Concur (Write.raw bs) (Write.raw bs) (Read.raw bs.length) left left room room bs := by
  intro out s hrun
  cases hrun
  exact ⟨bs, rfl, .inl ⟨emits_raw bs room, takes_raw bs room⟩⟩

/-- With a writer that fails everyone concurs. -/
theorem concur_throw (fault : WriteFault) : Concur (throw fault) w' r left left' room room' v :=
  fun _ _ hrun => nomatch hrun

/-- What the reader does last need not take anything. -/
theorem Concur.last (h : Concur w w' r left left' room room' v)
    (hf : Concur (pure ()) (pure ()) (f v) left' left'' room' room'' x) :
    Concur w w' (r >>= f) left left'' room room'' x := by
  have hbind := h.bind hf
  rwa [bind_pure_unit, bind_pure_unit] at hbind

/-- What another writer refuses from the start the reader may reject after it was taken. -/
theorem Concur.refused (h : Concur w w' r left left' room room' v) (hu : Refuses u room)
    (hf : Rejects (f v) room' []) : Concur w u (r >>= f) left left' room room'' x := by
  intro out s hrun
  obtain ⟨bs, rfl, ⟨-, htakes⟩ | ⟨-, hrejects⟩⟩ := h out s hrun
  · exact ⟨bs, rfl, .inr ⟨hu, List.append_nil bs ▸ htakes.rejects hf⟩⟩
  · exact ⟨bs, rfl, .inr ⟨hu, List.append_nil bs ▸ hrejects.bind f []⟩⟩

/-- Where the input stands makes no difference to what is read. -/
theorem Concur.position {g : Nat → Reader α}
    (h : ∀ start, Concur w w' (g start) left left' room room' v) :
    Concur w w' (Read.position >>= g) left left' room room' v := by
  intro out s hrun
  obtain ⟨bs, rfl, hfirst⟩ := h 0 out s hrun
  have hall (offset : Nat) : Emits w' room room' bs ∧ Takes (g offset) room room' bs v ∨
      Refuses w' room ∧ Rejects (g offset) room bs := by
    obtain ⟨bs', hs, hoffset⟩ := h offset out _ hrun
    obtain rfl : bs = bs' := append_inj (congrArg Output.bytes hs)
    exact hoffset
  refine ⟨bs, rfl, ?_⟩
  obtain ⟨hemits, -⟩ | ⟨hrefuses, -⟩ := hfirst
  · refine .inl ⟨hemits, fun offset rest => run_bind_eq_ok_iff.2 ⟨offset, _, rfl, ?_⟩⟩
    obtain ⟨-, htakes⟩ | ⟨hrefuses, -⟩ := hall offset
    · exact htakes offset rest
    · exact absurd hrefuses hemits.not_refuses
  · refine .inr ⟨hrefuses, fun offset rest => ?_⟩
    obtain ⟨hemits, -⟩ | ⟨-, hrejects⟩ := hall offset
    · exact absurd hrefuses hemits.not_refuses
    · exact hrejects offset rest

/-- A check that finds nothing lets the reader go on. -/
theorem Concur.unless {condition : Prop} [Decidable condition] {offset : Nat}
    {fault : ReadFault} {next : Unit → Reader α} (hcondition : ¬condition)
    (h : Concur w w' (next ()) left left' room room' v) :
    Concur w w' (if condition then Read.fail offset fault >>= next else next ())
      left left' room room' v := by
  rwa [if_neg hcondition]

end

/-! ## what readers take -/

/-- All that a reader takes and returns is related by `P`. -/
def Consumes (r : Reader α) (room room' : Nat) (P : α → List UInt8 → Prop) : Prop :=
  ∀ offset input v s, r.run ⟨offset, input, room⟩ = .ok v s →
    ∃ bs, input = bs ++ s.rest ∧ s.offset = offset + bs.length ∧ s.room = room' ∧ P v bs

section

variable {r : Reader α} {f : α → Reader β} {room room' room'' : Nat} {P : α → List UInt8 → Prop}
  {Q : β → List UInt8 → Prop}

/-- What was taken first and what then is related as a whole. -/
theorem Consumes.bind (h : Consumes r room room' P)
    (hf : ∀ v a, P v a → Consumes (f v) room' room'' fun u b => Q u (a ++ b)) :
    Consumes (r >>= f) room room'' Q := by
  intro offset input u s hrun
  obtain ⟨v, s', hr, hnext⟩ := run_bind_eq_ok_iff.1 hrun
  obtain ⟨a, hinput, hoffset, hroom, hv⟩ := h offset input v s' hr
  cases s' with
  | mk offset' input' _ =>
    dsimp only at hinput hoffset hroom
    rw [hroom] at hnext
    obtain ⟨b, hinput', hoffset', hroom', hu⟩ := hf v a hv offset' input' u s hnext
    refine ⟨a ++ b, ?_, ?_, hroom', hu⟩
    · rw [hinput, hinput', List.append_assoc]
    · rw [hoffset', hoffset, List.length_append, Nat.add_assoc]

/-- What readers take may be told with less. -/
theorem Consumes.weaken (h : Consumes r room room' P) {Q : α → List UInt8 → Prop}
    (hPQ : ∀ v bs, P v bs → Q v bs) : Consumes r room room' Q := by
  intro offset input v s hrun
  obtain ⟨bs, hinput, hoffset, hroom, hv⟩ := h offset input v s hrun
  exact ⟨bs, hinput, hoffset, hroom, hPQ v bs hv⟩

/-- A reader may look at where it stands before it goes on. -/
theorem Consumes.position {g : Nat → Reader α} (h : ∀ start, Consumes (g start) room room' P) :
    Consumes (Read.position >>= g) room room' P := by
  intro offset input v s hrun
  obtain ⟨_, _, hr, hrun⟩ := run_bind_eq_ok_iff.1 hrun
  cases hr
  exact h offset offset input v s hrun

/-- Only what passes a check is returned. -/
theorem Consumes.unless {condition : Prop} [Decidable condition] {offset : Nat}
    {fault : ReadFault} {next : Unit → Reader α}
    (h : ¬condition → Consumes (next ()) room room' P) :
    Consumes (if condition then Read.fail offset fault >>= next else next ()) room room' P := by
  split
  · exact fun _ _ _ _ hrun => nomatch hrun
  · next hcondition => exact h hcondition

/-- A reader that fails returns nothing. -/
theorem consumes_fail (offset : Nat) (fault : ReadFault) :
    Consumes (Read.fail offset fault) room room' P := fun _ _ _ _ hrun => nomatch hrun

theorem consumes_nothing {v : α} (h : P v []) : Consumes (pure v) room room P := by
  intro offset input u s hrun
  cases hrun
  exact ⟨[], rfl, rfl, rfl, h⟩

/-- Raw bytes are returned as they are taken. -/
theorem consumes_raw (count : Nat) (room : Nat) :
    Consumes (Read.raw count) room room fun v bs => v = bs ∧ bs.length = count := by
  intro offset input v s hrun
  unfold Read.raw at hrun
  obtain ⟨_, _, hget, hrun⟩ := run_bind_eq_ok_iff.1 hrun
  cases hget
  dsimp only at hrun
  split at hrun
  · cases hrun
  · next hcount =>
    cases hrun
    have hlength : (input.take count).length = count := by
      have := List.length_take_le count input
      omega
    refine ⟨input.take count, (List.take_append_drop count input).symm, ?_, rfl, rfl, hlength⟩
    rw [hlength]

end

end Intension.Binary
