import Intension.Proofs.Binary.PatchRoundTrip
import Intension.Proofs.Context.Spelling

/-!
# Intension.Proofs.Binary.Within

What is within the limits is written.  Of a tree the limits bound the payloads of
its scalars, the names of its dimensions (`Context.Within`, `Patch.Within`) and its
levels.  A writer of a tree that keeps to them fails only if some number does not
fit its field, whatever the limits (`Completes`); so no check against a limit ever
stops it.
-/

namespace Intension

/-! ## what limits bound -/

/-- The bytes of the payload of a scalar, if it has one. -/
def Scalar.payloadLength : Scalar → Nat
  | .string t => Text.byteLength t
  | .binary bytes => bytes.length
  | .bound b => b.packed.length
  | _ => 0

/-- The bytes of the name of a dimension, if it has one. -/
def Dimension.nameLength : Dimension → Nat
  | .integer _ => 0
  | .name t _ => Text.byteLength t

/-- No payload and no name in a context is above its limit. -/
inductive Context.Within (limits : Limits) : Context → Prop
  | intro {c : Context} (base : ∀ v ∈ c.base, v.payloadLength ≤ limits.maxPayloadBytes)
      (names : ∀ e ∈ c.children, e.1.nameLength ≤ limits.maxDimensionBytes)
      (inner : ∀ e ∈ c.children, Within limits e.2) : Within limits c

namespace Patch

variable {limits : Limits}

/-- No payload and no name in a patch is above its limit. -/
inductive Within (limits : Limits) : Patch → Prop
  | intro {p : Patch} (base : ∀ v ∈ p.base, v.payloadLength ≤ limits.maxPayloadBytes)
      (names : ∀ e ∈ p.children, e.1.nameLength ≤ limits.maxDimensionBytes)
      (inner : ∀ e ∈ p.children, Within limits e.2) : Within limits p

/-- Dropping children leaves no payload or name that was not there. -/
theorem Within.normalize {p : Patch} (h : p.Within limits) (forced : Bool) :
    (p.normalize forced).Within limits := by
  induction h generalizing forced with
  | @intro p base names inner ih =>
    rw [normalize_eq]
    refine .intro base (fun e he => ?_) fun e he => ?_
    · obtain ⟨k, hk, rfl⟩ := mem_normalizeChildren he
      exact names k hk
    · obtain ⟨k, hk, rfl⟩ := mem_normalizeChildren he
      exact ih k hk _

/-- The patch of a context has its payloads and names. -/
theorem within_ofContext {c : Context} : (ofContext c).Within limits ↔ c.Within limits := by
  induction c using Context.children_induction with
  | step c ih =>
    rw [ofContext_eq, ofContexts_eq]
    constructor
    · rintro ⟨base, names, inner⟩
      refine .intro base (List.forall_mem_map.1 names) fun e he => ?_
      exact (ih e he).1 (List.forall_mem_map.1 inner e he)
    · rintro ⟨base, names, inner⟩
      exact .intro base (List.forall_mem_map.2 names)
        (List.forall_mem_map.2 fun e he => (ih e he).2 (inner e he))

end Patch

namespace Binary

/-! ## writers that only numbers stop -/

/-- The writer comes to its end, or it fails because a number does not fit its field. -/
def Completes (w : Writer) (room room' : Nat) : Prop :=
  ∀ out : Array UInt8, (∃ out', w.run ⟨out, room⟩ = .ok () ⟨out', room'⟩) ∨
    ∃ field n s, w.run ⟨out, room⟩ = .error (.overflows field n) s

variable {w w' : Writer} {room room' room'' : Nat} {limits : Limits}

/-- A writer that emits comes to its end. -/
theorem Emits.completes {bs : List UInt8} (h : Emits w room room' bs) : Completes w room room' :=
  fun out => .inl ⟨_, h out⟩

/-- Two writers in turn are stopped by numbers only if each of them is. -/
theorem Completes.bind (hw : Completes w room room') (hw' : Completes w' room' room'') :
    Completes (w >>= fun _ => w') room room'' := by
  intro out
  rw [EStateM.run_bind]
  obtain ⟨out', hrun⟩ | ⟨field, n, s, hrun⟩ := hw out
  · rw [hrun]
    exact hw' out'
  · rw [hrun]
    exact .inr ⟨field, n, s, rfl⟩

/-- Raw bytes are always written. -/
theorem completes_raw (bs : List UInt8) : Completes (Write.raw bs) room room :=
  (emits_raw bs room).completes

/-- A count is written unless it overflows its field. -/
theorem completes_count (field : Field) (n : Nat) : Completes (Write.count field n) room room := by
  by_cases hn : n < 2 ^ (31 : Nat)
  · exact (emits_count hn).completes
  · rw [Write.count, if_neg hn]
    exact fun out => .inr ⟨field, n, _, rfl⟩

/-- A length within its limit is written unless it overflows its field. -/
theorem completes_length {field : Field} {limit n : Nat} (h : n ≤ limit) :
    Completes (Write.length field limit n) room room := by
  rw [Write.length, if_neg (Nat.not_lt.2 h)]
  exact completes_count field n

/-- Bytes within their limit are written unless their number overflows its field. -/
theorem completes_payload {bs : List UInt8} (h : bs.length ≤ limits.maxPayloadBytes) :
    Completes (Write.payload limits bs) room room := (completes_length h).bind (completes_raw bs)

/-- A dimension within its limit is written unless its length overflows its field. -/
theorem completes_dimension {d : Dimension} (h : d.nameLength ≤ limits.maxDimensionBytes) :
    Completes (Write.dimension limits d) room room := by
  cases d with
  | integer i => exact (completes_raw _).bind (completes_raw _)
  | name t quoted =>
    exact (completes_raw _).bind <| (completes_raw _).bind <| (completes_length h).bind <|
      completes_raw _

/-- A base within its limit is written unless its length overflows its field. -/
theorem completes_base {base : Option Scalar}
    (h : ∀ v ∈ base, v.payloadLength ≤ limits.maxPayloadBytes) :
    Completes (Write.base limits base) room room := by
  cases base with
  | none => exact completes_raw _
  | some v =>
    have h := h v rfl
    refine (completes_raw _).bind ?_
    cases v with
    | alpha => exact (emits_nothing room).completes
    | omega => exact (emits_nothing room).completes
    | number x => exact completes_raw _
    | string t => exact completes_payload (Text.length_bytes t ▸ h)
    | binary bytes => exact completes_payload h
    | bound b => exact completes_payload h

/-! ## trees within the limits -/

/-- The children of a node, contexts or patches, are written in turn. -/
theorem completes_children {τ : Type} {write : τ → Writer}
    {writeAll : List (Dimension × τ) → Writer} (hnil : writeAll [] = pure ())
    (hcons : ∀ d t l, writeAll ((d, t) :: l) = do
      Write.dimension limits d
      write t
      writeAll l)
    {l : List (Dimension × τ)} (hnames : ∀ e ∈ l, e.1.nameLength ≤ limits.maxDimensionBytes)
    (hinner : ∀ e ∈ l, Completes (write e.2) room room) : Completes (writeAll l) room room := by
  induction l with
  | nil =>
    rw [hnil]
    exact (emits_nothing room).completes
  | cons e l ih =>
    obtain ⟨hname, hnames⟩ := List.forall_mem_cons.1 hnames
    obtain ⟨ht, hinner⟩ := List.forall_mem_cons.1 hinner
    rw [hcons]
    exact (completes_dimension hname).bind <| ht.bind (ih hnames hinner)

/-- A patch within the limits is written where there is room for its levels. -/
theorem completes_patch {p : Patch} (h : p.Within limits) (hlevels : p.levels ≤ room) :
    Completes (Write.patch limits p) room room := by
  induction h generalizing room with
  | @intro p base names inner ih =>
    rw [Patch.levels_eq] at hlevels
    obtain ⟨room, rfl⟩ : ∃ k, room = k + 1 := ⟨room - 1, by omega⟩
    have hbelow := Patch.levelsBelow_le_iff.1 (Nat.le_of_succ_le_succ hlevels)
    obtain ⟨value, children, clearsBase, clearsDims, bases, blanks⟩ := p
    have hchildren : Completes (Write.patches limits children) room room :=
      completes_children (by rw [Write.patches]) (fun d p l => by rw [Write.patches]) names
        fun e he => ih e he (hbelow e he)
    rw [Write.patch]
    exact (emits_enter limits).completes.bind <| (completes_raw _).bind <|
      (completes_count _ _).bind <| (completes_count _ _).bind <| (completes_base base).bind <|
      (completes_count _ _).bind <| hchildren.bind emits_leave.completes

/-- A context within the limits is written where there is room for its levels. -/
theorem completes_context {c : Context} (h : c.Within limits) (hlevels : c.levels ≤ room) :
    Completes (Write.context limits c) room room := by
  induction h generalizing room with
  | @intro c base names inner ih =>
    rw [Context.levels_eq] at hlevels
    obtain ⟨room, rfl⟩ : ∃ k, room = k + 1 := ⟨room - 1, by omega⟩
    have hbelow := Context.levelsBelow_le_iff.1 (Nat.le_of_succ_le_succ hlevels)
    obtain ⟨value, children, bases⟩ := c
    have hchildren : Completes (Write.contexts limits children) room room :=
      completes_children (by rw [Write.contexts]) (fun d c l => by rw [Write.contexts]) names
        fun e he => ih e he (hbelow e he)
    rw [Write.context]
    exact (emits_enter limits).completes.bind <| (completes_count _ _).bind <|
      (completes_base base).bind <| (completes_count _ _).bind <|
      hchildren.bind emits_leave.completes

/-- Where only numbers stop a writer, the fault is that of a number. -/
theorem overflows_of_encode {fault : WriteFault} (h : Completes w limits.maxDepth room')
    (hfault : encode limits w = .error fault) : ∃ field n, fault = .overflows field n := by
  rw [encode, Output.start] at hfault
  obtain ⟨out', hrun⟩ | ⟨field, n, s, hrun⟩ := h #[]
  · rw [hrun] at hfault
    cases hfault
  · rw [hrun] at hfault
    exact ⟨field, n, (Except.error.inj hfault).symm⟩

end Binary

/-- **What is within the limits is never refused for one of them**, when it is written. -/
theorem Patch.Within.overflows_of_encode {limits : Limits} {p : Patch} (h : p.Within limits)
    (hlevels : p.levels ≤ limits.maxDepth) {fault : Binary.WriteFault}
    (hfault : p.encode limits = .error fault) : ∃ field n, fault = .overflows field n :=
  Binary.overflows_of_encode (Binary.completes_patch h hlevels) hfault

/-- A context within the limits is encoded unless a number overflows its field. -/
theorem Context.Within.overflows_of_encode {limits : Limits} {c : Context} (h : c.Within limits)
    (hlevels : c.levels ≤ limits.maxDepth) {fault : Binary.WriteFault}
    (hfault : c.encode limits = .error fault) : ∃ field n, fault = .overflows field n :=
  Binary.overflows_of_encode (Binary.completes_context h hlevels) hfault

end Intension
