import Intension.Proofs.Binary.Parts
import Intension.Proofs.Reachable

/-!
# Intension.Proofs.Binary.RoundTrip

The round trip of contexts, and with it of all that has a binary form without a
normal form of its own.  A context is written as the reader expects it: its
children sorted and none of them empty, its counts exact.  Conversely a reader
that refuses all else leaves one way to write what it returns.
-/

namespace Intension.Context

mutual

/-- The context with the objects of its bound values looked up anew from their bytes. -/
def repacked (binder : Option Binder) : Context → Context
  | ⟨base, children, count⟩ =>
    ⟨base.map (Scalar.repacked binder), repackedChildren binder children, count⟩

/-- Children with the objects of their bound values looked up anew. -/
def repackedChildren (binder : Option Binder) :
    List (Dimension × Context) → List (Dimension × Context)
  | [] => []
  | (d, c) :: rest => (d, repacked binder c) :: repackedChildren binder rest

end

variable (binder : Option Binder)

/-- No base comes or goes. -/
@[simp] theorem baseCount_repacked (c : Context) : (c.repacked binder).baseCount = c.baseCount := by
  cases c
  rw [repacked]

/-- An empty context stays empty and no other one becomes so. -/
@[simp] theorem isEmpty_repacked (c : Context) : (c.repacked binder).isEmpty = c.isEmpty := by
  rw [isEmpty, isEmpty, baseCount_repacked]

/-- The children are kept, each with other objects. -/
theorem repackedChildren_eq (l : List (Dimension × Context)) :
    repackedChildren binder l = l.map fun e => (e.1, e.2.repacked binder) := by
  induction l with
  | nil => rw [repackedChildren, List.map_nil]
  | cons e l ih => rw [repackedChildren, ih, List.map_cons]

/-- The children count as many bases as before. -/
@[simp] theorem totalBases_repackedChildren (l : List (Dimension × Context)) :
    totalBases (repackedChildren binder l) = totalBases l := by
  simp [totalBases, repackedChildren_eq, Function.comp_def]

/-- A node that is put together anew from its parts has the count that it had. -/
theorem node_repacked {value : Option Scalar} {children : List (Dimension × Context)} {bases : Nat}
    (h : Valid ⟨value, children, bases⟩) :
    node (value.map (Scalar.repacked binder)) (repackedChildren binder children) =
      repacked binder ⟨value, children, bases⟩ := by
  have hcount : bases = value.toList.length + totalBases children := h.count
  rw [node, repacked, totalBases_repackedChildren, hcount]
  cases value <;> rfl

end Intension.Context

namespace Intension.Binary

variable {left room : Nat} {limits : Limits} {σ : Setting}

/-! ## levels -/

/-- A level is entered where there is room for one. -/
theorem emits_enter (limits : Limits) : Emits (Write.enter limits) (room + 1) room [] := by
  intro out
  rw [append_nil]
  rfl

/-- No level is entered where there is no room. -/
theorem refuses_enter (limits : Limits) : Refuses (Write.enter limits) 0 :=
  fun _ => ⟨_, _, rfl⟩

/-- Leaving a level gives its room back. -/
theorem emits_leave : Emits Write.leave room (room + 1) [] := by
  intro out
  rw [append_nil]
  rfl

/-- Writer and reader enter a level together. -/
theorem concur_enter (limits limits' : Limits) :
    Concur (Write.enter limits) (Write.enter limits') (Read.setRoom room) (left + 1) left
      (room + 1) room () := by
  intro out s hrun
  cases hrun
  exact ⟨[], by rw [append_nil]; rfl, .inl ⟨emits_enter limits', fun _ _ => rfl⟩⟩

/-- Writer and reader leave a level together. -/
theorem concur_leave :
    Concur Write.leave Write.leave (Read.setRoom (room + 1)) left (left + 1) room (room + 1)
      () := by
  intro out s hrun
  cases hrun
  exact ⟨[], by rw [append_nil], .inl ⟨emits_leave, fun _ _ => rfl⟩⟩

/-- **Where there is no room for a node it is refused and rejected**, whatever is in it. -/
theorem concur_level {α : Type} {body body' : Writer} {read readBody : Nat → Reader α} {v : α}
    (hzero : read 0 = do
      Read.setRoom 0
      Read.fail (← Read.position) (.tooDeep σ.limits.maxDepth))
    (hsucc : ∀ room, read (room + 1) = do Read.setRoom room; readBody room)
    (hbody : ∀ left room, Concur body body' (readBody room) left (left + 1) room (room + 1) v)
    (left room : Nat) :
    Concur (do Write.enter limits; body) (do Write.enter σ.limits; body') (read room) left left
      room room v := by
  cases left with
  | zero =>
    intro out s hrun
    obtain ⟨_, _, henter, -⟩ := run_bind_eq_ok_iff.1 hrun
    cases henter
  | succ left =>
    cases room with
    | zero =>
      rw [hzero]
      intro out s hrun
      obtain ⟨_, _, henter, hrun⟩ := run_bind_eq_ok_iff.1 hrun
      cases henter
      -- how much room the others would have had makes no difference to what was written
      obtain ⟨bs, rfl, -⟩ := hbody left 0 out s hrun
      exact ⟨bs, rfl, .inr ⟨(refuses_enter σ.limits).bind body', fun _ _ => ⟨_, _, rfl⟩⟩⟩
    | succ room =>
      rw [hsucc]
      exact (concur_enter limits σ.limits).bind (hbody left room)

/-- Setting the room takes no bytes. -/
theorem consumes_setRoom (room' : Nat) :
    Consumes (Read.setRoom room') room room' fun _ bs => bs = [] := by
  intro offset input v s hrun
  cases hrun
  exact ⟨[], rfl, rfl, rfl, rfl⟩

/-! ## contexts -/

/-- Children in order are written and read back in turn, none being refused as out of order or
empty. -/
theorem concur_contexts {readChild : Reader Context} {children : List (Dimension × Context)}
    {last : Option Dimension} (hlast : ∀ d ∈ last, ∀ e ∈ children, compare d e.1 = .lt)
    (hsorted : Keyed.Sorted children) (hnonempty : ∀ e ∈ children, e.2.isEmpty = false)
    (hread : ∀ e ∈ children, Concur (Write.context limits e.2) (Write.context σ.limits e.2)
      readChild left left room room (e.2.repacked σ.binder)) :
    Concur (Write.contexts limits children) (Write.contexts σ.limits children)
      (Read.contexts σ readChild children.length last) left left room room
      (Context.repackedChildren σ.binder children) := by
  induction children generalizing last with
  | nil =>
    rw [Write.contexts, Write.contexts, Context.repackedChildren]
    exact concur_nothing [] left room
  | cons e children ih =>
    obtain ⟨d, c⟩ := e
    obtain ⟨hfirst, hsorted⟩ := Keyed.sorted_cons.1 hsorted
    obtain ⟨hne, hnonempty⟩ := List.forall_mem_cons.1 hnonempty
    obtain ⟨hc, hread⟩ := List.forall_mem_cons.1 hread
    have hrest : ∀ k ∈ some d, ∀ e ∈ children, compare k e.1 = .lt := by
      rintro _ ⟨⟩
      exact hfirst
    have horder : ¬(last.any (compare · d != .lt)) = true := by
      cases last with
      | none => simp
      | some k =>
        have := hlast k rfl (d, c) (List.mem_cons_self ..)
        simpa using this
    rw [Write.contexts, Write.contexts, Context.repackedChildren]
    refine .position fun start => (concur_dimension d).bind <| .unless horder <|
      .position fun childStart => hc.bind <| .unless ?_ <|
      (ih hrest hsorted hnonempty hread).last (concur_nothing _ left room)
    rw [Context.isEmpty_repacked, Bool.not_eq_true]
    exact hne

/-- What children are read from is what they are written as. -/
theorem consumes_contexts {readChild : Reader Context}
    (hread : Consumes readChild room room fun c bs =>
      Emits (Write.context σ.limits c) room room bs) (n : Nat) (last : Option Dimension) :
    Consumes (Read.contexts σ readChild n last) room room fun l bs =>
      l.length = n ∧ Emits (Write.contexts σ.limits l) room room bs := by
  induction n generalizing last with
  | zero =>
    refine consumes_nothing ⟨rfl, ?_⟩
    rw [Write.contexts]
    exact emits_nothing room
  | succ n ih =>
    refine .position fun start => consumes_dimension.bind fun d bs hd => .unless fun _ =>
      .position fun childStart => hread.bind fun c bs' hc => .unless fun _ =>
      (ih (some d)).bind fun l bs'' ⟨hlength, hl⟩ => consumes_nothing ?_
    rw [List.append_nil, Write.contexts]
    exact ⟨congrArg (· + 1) hlength, hd.bind (hc.bind hl)⟩

/-- A context is read back at every level, its count checked against its own. -/
theorem concur_contextWithin {c : Context} (hc : c.Valid) (left room : Nat) :
    Concur (Write.context limits c) (Write.context σ.limits c) (Read.contextWithin σ room)
      left left room room (c.repacked σ.binder) := by
  induction hc generalizing left room with
  | @intro c sorted count nonempty inner ih =>
    have hc : c.Valid := .intro sorted count nonempty inner
    obtain ⟨value, children, bases⟩ := c
    rw [Write.context, Write.context]
    refine concur_level rfl (fun _ => rfl) (fun left room => ?_) left room
    refine .position fun countStart => (concur_count _ _).bind <| (concur_base value).bind <|
      (concur_count _ _).bind <|
      (concur_contexts (by simp) sorted nonempty fun e he => ih e he left room).bind ?_
    dsimp only
    rw [Context.node_repacked _ hc]
    refine .unless ?_ (concur_leave.last (concur_nothing _ _ _))
    rw [Context.baseCount_repacked, not_not]

/-- What a context is read from at some level is what it is written as there. -/
theorem consumes_contextWithin (room : Nat) :
    Consumes (Read.contextWithin σ room) room room fun c bs =>
      Emits (Write.context σ.limits c) room room bs := by
  induction room with
  | zero =>
    rw [Read.contextWithin]
    exact (consumes_setRoom 0).bind fun _ _ _ => .position fun start => consumes_fail _ _
  | succ room ih =>
    rw [Read.contextWithin]
    refine (consumes_setRoom room).bind fun _ bs hbs => .position fun countStart =>
      (consumes_count _).bind fun bases bs₁ hbases => consumes_base.bind fun value bs₂ hvalue =>
      (consumes_count _).bind fun n bs₃ hn => (consumes_contexts ih n none).bind
      fun children bs₄ hread => .unless fun hcount =>
      (consumes_setRoom (room + 1)).bind fun _ bs₅ hbs₅ => consumes_nothing ?_
    obtain ⟨hlength, hchildren⟩ := hread
    subst hbs hbs₅ hlength
    rw [not_not] at hcount
    subst hcount
    rw [Context.node, Write.context, List.append_nil]
    exact (emits_enter _).bind <| hbases.bind <| hvalue.bind <| hn.bind <|
      hchildren.bind emits_leave

/-! ## from end to end -/

variable {α : Type} {room' : Nat}

/-- Only at its end is an input finished. -/
theorem rest_eq_nil_of_finish {s s' : Input} (h : Read.finish.run s = .ok () s') : s.rest = [] := by
  obtain ⟨offset, rest, room⟩ := s
  cases rest with
  | nil => rfl
  | cons b rest => cases h

/-- A value that is encoded is one that its writer writes. -/
theorem run_of_encode {limits : Limits} {w : Writer} {bs : List UInt8}
    (h : encode limits w = .ok bs) :
    ∃ s, w.run ⟨#[], limits.maxDepth⟩ = .ok () s ∧ s.bytes.toList = bs := by
  rw [encode] at h
  split at h
  · next s hrun => exact ⟨s, hrun, Except.ok.inj h⟩
  · cases h

/-- What a reader takes to its end is decoded. -/
theorem decode_of_takes {r : Reader α} {v : α} {bs : List UInt8}
    (h : Takes r σ.limits.maxDepth room' bs v) : decode σ r bs = .ok v := by
  have hr := h 0 []
  rw [List.append_nil] at hr
  have hall : (do let v ← r; Read.finish; return v : Reader α).run ⟨0, bs, σ.limits.maxDepth⟩ =
      .ok v ⟨0 + bs.length, [], room'⟩ := run_bind_eq_ok_iff.2 ⟨v, _, hr, rfl⟩
  rw [decode, Input.start, hall]

/-- A reader takes the bytes that were encoded, whatever follows them. -/
theorem ReadsBack.takes_of_encode {w : Writer} {r : Reader α} {v : α} {bs : List UInt8}
    (h : ReadsBack w r σ.limits.maxDepth room' v) (hbs : encode σ.limits w = .ok bs) :
    Takes r σ.limits.maxDepth room' bs v := by
  obtain ⟨s, hrun, rfl⟩ := run_of_encode hbs
  obtain ⟨out, rfl, htakes⟩ := h _ _ hrun
  rwa [toList_empty_append]

/-- What is read back after writing is decoded after encoding. -/
theorem decode_of_readsBack {w : Writer} {r : Reader α} {v : α} {bs : List UInt8}
    (h : ReadsBack w r σ.limits.maxDepth room' v) (hbs : encode σ.limits w = .ok bs) :
    decode σ r bs = .ok v := decode_of_takes (h.takes_of_encode hbs)

/-- What the reader takes is all there is. -/
theorem of_consumes {r : Reader α} {P : α → List UInt8 → Prop} {v : α} {bs : List UInt8}
    (h : Consumes r σ.limits.maxDepth room' P) (hv : decode σ r bs = .ok v) : P v bs := by
  rw [decode] at hv
  split at hv
  · next u s hrun =>
    obtain rfl : u = v := Except.ok.inj hv
    obtain ⟨u', s', hr, hrun⟩ := run_bind_eq_ok_iff.1 hrun
    obtain ⟨_, _, hfinish, hrun⟩ := run_bind_eq_ok_iff.1 hrun
    cases hrun
    obtain ⟨taken, rfl, -, -, htaken⟩ := h _ _ _ _ hr
    rwa [rest_eq_nil_of_finish hfinish, List.append_nil]
  · cases hv

/-- What a writer emits is encoded. -/
theorem encode_of_emits {limits : Limits} {w : Writer} {bs : List UInt8}
    (h : Emits w limits.maxDepth room' bs) : encode limits w = .ok bs := by
  rw [encode, Output.start, h]
  simp

/-- What is read only from what it is written as, is encoded as what it was decoded from. -/
theorem encode_of_consumes {w : α → Writer} {r : Reader α} {v : α} {bs : List UInt8}
    (h : Consumes r σ.limits.maxDepth room' fun v bs => Emits (w v) σ.limits.maxDepth room' bs)
    (hv : decode σ r bs = .ok v) : encode σ.limits (w v) = .ok bs := by
  have hemits := of_consumes h hv
  exact encode_of_emits hemits

/-! ## both ways -/

/-- **A context that is written is read back**, or both refuse it under the other limits. -/
theorem concur_context {c : Context} (hc : c.Valid) :
    Concur (Write.context limits c) (Write.context σ.limits c) (Read.context σ) left left
      room room (c.repacked σ.binder) := concur_contextWithin hc left room

/-- Under the limits it was written with, a context is read back. -/
theorem readsBack_context {c : Context} (hc : c.Valid) :
    ReadsBack (Write.context σ.limits c) (Read.context σ) room room (c.repacked σ.binder) :=
  (concur_context hc).readsBack

theorem readsBack_dimension (d : Dimension) :
    ReadsBack (Write.dimension σ.limits d) (Read.dimension σ) room room d :=
  (concur_dimension d).readsBack

theorem readsBack_dimension? (d : Option Dimension) :
    ReadsBack (Write.dimension? σ.limits d) (Read.dimension? σ) room room d :=
  (concur_dimension? d).readsBack

/-- Under the limits it was written with, a path is read back. -/
theorem readsBack_path (p : Path) :
    ReadsBack (Write.path σ.limits p) (Read.path σ) room room p := (concur_path p).readsBack

theorem readsBack_base (v : Option Scalar) :
    ReadsBack (Write.base σ.limits v) (Read.base σ) room room (v.map (Scalar.repacked σ.binder)) :=
  (concur_base v).readsBack

/-- What a context is read from is what it is written as. -/
theorem consumes_context :
    Consumes (Read.context σ) room room fun c bs =>
      Emits (Write.context σ.limits c) room room bs :=
  consumes_contextWithin room

/-- A writer and a reader agree under a setting: of values that can be had, what is written is
all read back, as the value that `seen` makes of the one written; and what bytes are read as
is written as those bytes and no others. -/
structure Agree (σ : Setting) (Had : α → Prop) (seen : α → α) (write : α → Writer)
    (read : Reader α) : Prop where
  decode_of_encode : ∀ v bs, Had v → encode σ.limits (write v) = .ok bs →
    decode σ read bs = .ok (seen v)
  encode_of_decode : ∀ bs v, decode σ read bs = .ok v → encode σ.limits (write v) = .ok bs

/-- Reading back in both directions makes a bijection. -/
theorem agree_of_readsBack {Had : α → Prop} {seen : α → α} {write : α → Writer} {read : Reader α}
    (hwrite : ∀ v, Had v →
      ReadsBack (write v) read σ.limits.maxDepth σ.limits.maxDepth (seen v))
    (hread : Consumes read σ.limits.maxDepth σ.limits.maxDepth fun v bs =>
      Emits (write v) σ.limits.maxDepth σ.limits.maxDepth bs) : Agree σ Had seen write read :=
  ⟨fun v _ hv => decode_of_readsBack (hwrite v hv), fun _ _ => encode_of_consumes hread⟩

/-- **The binary form is a bijection** between the values that fit the limits and the bytes
that are read, whatever binder reads them: a bound value alone is read with another object than
it was written with. -/
theorem agree (σ : Setting) :
    Agree σ Context.Reachable (Context.repacked σ.binder) (Write.context σ.limits)
      (Read.context σ) ∧
    Agree σ (fun _ => True) id (Write.dimension σ.limits) (Read.dimension σ) ∧
    Agree σ (fun _ => True) id (Write.dimension? σ.limits) (Read.dimension? σ) ∧
    Agree σ (fun _ => True) id (Write.path σ.limits) (Read.path σ) ∧
    Agree σ (fun _ => True) (Option.map (Scalar.repacked σ.binder)) (Write.base σ.limits)
      (Read.base σ) :=
  ⟨agree_of_readsBack (fun _ hc => readsBack_context hc.valid) consumes_context,
    agree_of_readsBack (fun d _ => readsBack_dimension d) consumes_dimension,
    agree_of_readsBack (fun d _ => readsBack_dimension? d) consumes_dimension?,
    agree_of_readsBack (fun p _ => readsBack_path p) consumes_path,
    agree_of_readsBack (fun v _ => readsBack_base v) consumes_base⟩

/-- A quoted name leads to a bound value; the binder that reads it knows its object. -/
theorem agree_of_bound :
    Context.decode ⟨.standard, some ⟨fun _ => none, fun _ => some (.integer 5)⟩⟩
        [0, 0, 0, 1, 0, 0, 0, 0, 0, 0, 0, 1, 0, 0, 0, 1, 1, 0, 0, 0, 1, 97, 0, 0, 0, 1,
          0, 0, 0, 6, 0, 0, 0, 2, 7, 8, 0, 0, 0, 0] =
      .ok (Context.empty.setBaseAt [.name ['a'] true]
        (.bound ⟨[7, 8], some (.integer 5)⟩)) :=
  (agree ⟨.standard, some ⟨fun _ => none, fun _ => some (.integer 5)⟩⟩).1.decode_of_encode
    (Context.empty.setBaseAt [.name ['a'] true] (.bound ⟨[7, 8], none⟩)) _
    (.setBaseAt .empty _ _) rfl

end Intension.Binary
