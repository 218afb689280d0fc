import Intension.Proofs.Binary.PatchRoundTrip
import Intension.Proofs.Binary.Truncation
import Intension.Proofs.Context.Spelling

/-!
# Intension.Proofs.Binary.Sequence

Values one after the other.  Nothing stands between values that are written in turn, and
nothing has to: each is read to its end and no further, whatever kind the next one is of
and whatever bytes follow the last one, with as much room for levels as before
(`takes_values`).  So no value begins with all of another one (`eq_of_isPrefix`), and a
value that was cut off is no value (`self_delimiting`).
-/

namespace Intension

namespace Context

variable {binder : Option Binder}

/-- The base and the children get other objects, and the count is kept. -/
theorem repacked_eq (c : Context) : c.repacked binder = ⟨c.base.map (Scalar.repacked binder),
    c.children.map fun e => (e.1, e.2.repacked binder), c.baseCount⟩ := by
  cases c
  rw [repacked, repackedChildren_eq]

/-- A context is equal to the one with other objects. -/
theorem Valid.repacked_beq {c : Context} (hc : c.Valid) : c.repacked binder == c :=
  (hc.relabelled (ρ := .repacked binder) repacked_eq).2

end Context

namespace Binary

/-! ## values of all kinds -/

/-- The kinds of values that have a binary form. -/
inductive Form where
  | context | patch | dimension | dimension? | path | base
  deriving DecidableEq, Repr

/-- A value of one of these kinds. -/
inductive Value where
  | context (c : Context)
  | patch (p : Patch)
  | dimension (d : Dimension)
  | dimension? (d : Option Dimension)
  | path (p : Path)
  | base (v : Option Scalar)

/-- A reader for values of a kind. -/
def Form.read (σ : Setting) : Form → Reader Value
  | context => return .context (← Read.context σ)
  | patch => return .patch (← Read.patch σ)
  | dimension => return .dimension (← Read.dimension σ)
  | dimension? => return .dimension? (← Read.dimension? σ)
  | path => return .path (← Read.path σ)
  | base => return .base (← Read.base σ)

namespace Value

/-- The kind of a value. -/
def form : Value → Form
  | context _ => .context
  | patch _ => .patch
  | dimension _ => .dimension
  | dimension? _ => .dimension?
  | path _ => .path
  | base _ => .base

/-- Writes a value. -/
def write (limits : Limits) : Value → Writer
  | context c => Write.context limits c
  | patch p => Write.patch limits p
  | dimension d => Write.dimension limits d
  | dimension? d => Write.dimension? limits d
  | path p => Write.path limits p
  | base v => Write.base limits v

/-- Values are equal as those of their kind are. -/
def beq : Value → Value → Bool
  | context a, context b => a == b
  | patch a, patch b => a == b
  | dimension a, dimension b => a == b
  | dimension? a, dimension? b => a == b
  | path a, path b => a == b
  | base a, base b => a == b
  | _, _ => false

instance : BEq Value := ⟨beq⟩

/-- The value can be had. -/
def Reachable : Value → Prop
  | context c => c.Reachable
  | patch p => p.Reachable
  | _ => True

/-- A patch is built as a whole. -/
def Built : Value → Prop
  | patch p => p.Built
  | _ => True

/-- No child of a patch becomes redundant only once its own children are gone. -/
def Settled : Value → Prop
  | patch p => p.Settled false
  | _ => True

/-- A patch that is built as a whole is settled. -/
theorem Built.settled {v : Value} (hv : v.Built) : v.Settled := by
  cases v with
  | patch p => exact Patch.Pruned.settled (Patch.Built.pruned hv) (Patch.Built.reachable hv).exact
  | _ => trivial

/-- The value that is read back: bound values have the objects that the binder knows them by, and
patches are in normal form. -/
def seen (binder : Option Binder) : Value → Value
  | context c => context (c.repacked binder)
  | patch p => patch ((p.relabelled (.repacked binder)).normalize false)
  | dimension d => dimension d
  | dimension? d => dimension? d
  | path p => path p
  | base v => base (v.map (Scalar.repacked binder))

/-- The value that is read back is equal to the one that was written, but for patches that are not
settled. -/
theorem seen_beq_iff (binder : Option Binder) {v : Value} (hv : v.Reachable) :
    v.seen binder == v ↔ v.Settled := by
  cases v with
  | context c =>
    exact iff_of_true (Context.Valid.repacked_beq (Context.Reachable.valid hv)) trivial
  | patch p =>
    rw [seen, Patch.normalize_relabelled]
    exact Patch.agrees_normalize_iff (.repacked binder) false p
  | dimension d => exact iff_of_true (BEq.rfl : d == d) trivial
  | dimension? d => exact iff_of_true (BEq.rfl : d == d) trivial
  | path p => exact iff_of_true (BEq.rfl : p == p) trivial
  | base v => exact iff_of_true ((Relabelling.repacked binder).map_scalar_beq v) trivial

end Value

variable {σ : Setting}

/-- What is read back may be put into a value. -/
theorem ReadsBack.map {α β : Type} {w : Writer} {r : Reader α} {room room' : Nat} {v : α}
    (h : ReadsBack w r room room' v) (f : α → β) :
    ReadsBack w (do return f (← r)) room room' (f v) := by
  intro out s hrun
  obtain ⟨bs, rfl, htakes⟩ := h out s hrun
  exact ⟨bs, rfl, fun offset rest => run_bind_eq_ok_iff.2 ⟨v, _, htakes offset rest, rfl⟩⟩

/-- A value of any kind is read back by the reader of its kind. -/
theorem readsBack_value {v : Value} (hv : v.Reachable) (room : Nat) :
    ReadsBack (v.write σ.limits) (v.form.read σ) room room (v.seen σ.binder) := by
  cases v with
  | context c => exact (readsBack_context (Context.Reachable.valid hv)).map Value.context
  | patch p => exact (readsBack_patch (Patch.Reachable.exact hv)).map Value.patch
  | dimension d => exact (readsBack_dimension d).map Value.dimension
  | dimension? d => exact (readsBack_dimension? d).map Value.dimension?
  | path p => exact (readsBack_path p).map Value.path
  | base v => exact (readsBack_base v).map Value.base

/-- What follows a value of any kind does not bear on how it is read. -/
theorem steady_read (form : Form) : Steady (form.read σ) := by
  cases form with
  | context => exact steady_context.bind fun _ => steady_pure _
  | patch => exact steady_patch.bind fun _ => steady_pure _
  | dimension => exact steady_dimension.bind fun _ => steady_pure _
  | dimension? => exact steady_dimension?.bind fun _ => steady_pure _
  | path => exact steady_path.bind fun _ => steady_pure _
  | base => exact steady_base.bind fun _ => steady_pure _

/-! ## values in turn -/

/-- Writes values in turn, and tells how many bytes there are after each. -/
def Write.values (limits : Limits) : List Value → EStateM WriteFault Output (List Nat)
  | [] => return []
  | v :: rest => do
    v.write limits
    let stop := (← get).bytes.size
    return stop :: (← values limits rest)

/-- The bytes of values that are written in turn on their own, and where each of them ends. -/
def encodeAll (limits : Limits) (vs : List Value) : Except WriteFault (List Nat × List UInt8) :=
  match (Write.values limits vs).run (.start limits) with
  | .ok ends s => .ok (ends, s.bytes.toList)
  | .error fault _ => .error fault

/-- Reads values of the given kinds in turn, each with the offset after it. -/
def Read.values (σ : Setting) : List Form → Reader (List (Value × Nat))
  | [] => return []
  | form :: rest => do
    let v ← form.read σ
    let stop ← position
    return (v, stop) :: (← values σ rest)

/-- **What is written in turn is taken in turn.**  A reader that stands where the writer stood takes
each value up to the place where the writer came to with it, and leaves what follows the last. -/
theorem takes_values {vs : List Value} (hvs : ∀ v ∈ vs, v.Reachable) {out : Array UInt8}
    {room : Nat} {ends : List Nat} {s : Output}
    (hwrite : (Write.values σ.limits vs).run ⟨out, room⟩ = .ok ends s) :
    ∃ bs : List UInt8, s = ⟨out ++ bs, room⟩ ∧ ∀ rest,
      (Read.values σ (vs.map Value.form)).run ⟨out.size, bs ++ rest, room⟩ =
        .ok ((vs.map (Value.seen σ.binder)).zip ends) ⟨(out ++ bs).size, rest, room⟩ := by
  -- a reader that starts at the size of what was written before meets the very places of the writer
  induction vs generalizing out ends with
  | nil =>
    cases hwrite
    exact ⟨[], by rw [append_nil], fun rest => by rw [append_nil]; rfl⟩
  | cons v vs ih =>
    obtain ⟨hv, hvs⟩ := List.forall_mem_cons.1 hvs
    obtain ⟨_, _, hfirst, hwrite⟩ := run_bind_eq_ok_iff.1 hwrite
    obtain ⟨a, rfl, htakes⟩ := readsBack_value hv room out _ hfirst
    obtain ⟨_, _, hget, hwrite⟩ := run_bind_eq_ok_iff.1 hwrite
    cases hget
    obtain ⟨ends, _, hrest, hreturn⟩ := run_bind_eq_ok_iff.1 hwrite
    cases hreturn
    obtain ⟨b, rfl, hread⟩ := ih hvs hrest
    refine ⟨a ++ b, by rw [append_append], fun rest => ?_⟩
    have hsize : out.size + a.length = (out ++ a).size := by
      rw [← Array.length_toList, ← Array.length_toList, Array.toList_appendList,
        List.length_append]
    have hv := htakes out.size (b ++ rest)
    rw [hsize] at hv
    rw [List.append_assoc, ← append_append]
    refine run_bind_eq_ok_iff.2 ⟨_, _, hv, run_bind_eq_ok_iff.2 ⟨_, _, rfl, ?_⟩⟩
    exact run_bind_eq_ok_iff.2 ⟨_, _, hread rest, rfl⟩

/-- Values that were written on their own are read back from their bytes and whatever follows. -/
theorem run_of_encodeAll {vs : List Value} (hvs : ∀ v ∈ vs, v.Reachable) {ends : List Nat}
    {bs : List UInt8} (h : encodeAll σ.limits vs = .ok (ends, bs)) (rest : List UInt8) :
    (Read.values σ (vs.map Value.form)).run (.start σ.limits (bs ++ rest)) =
      .ok ((vs.map (Value.seen σ.binder)).zip ends) ⟨bs.length, rest, σ.limits.maxDepth⟩ := by
  rw [encodeAll] at h
  split at h
  · next hwrite =>
    cases h
    obtain ⟨bs, rfl, hread⟩ := takes_values hvs hwrite
    rw [Array.length_toList, toList_empty_append]
    exact hread rest
  · cases h

/-- The input is at its end just if nothing is left. -/
theorem finish_iff (s : Input) : (∃ s', Read.finish.run s = .ok () s') ↔ s.rest = [] := by
  constructor
  · rintro ⟨s', h⟩
    exact rest_eq_nil_of_finish h
  · intro h
    obtain ⟨offset, rest, room⟩ := s
    cases h
    exact ⟨_, rfl⟩

/-! ## where values end -/

/-- The reader of its kind takes the bytes of a value and no more. -/
theorem takes_of_encode {v : Value} (hv : v.Reachable) {bs : List UInt8}
    (h : encode σ.limits (v.write σ.limits) = .ok bs) :
    Takes (v.form.read σ) σ.limits.maxDepth σ.limits.maxDepth bs (v.seen σ.binder) :=
  (readsBack_value hv _).takes_of_encode h

/-- **No value begins with all of another one** of its kind. -/
theorem eq_of_isPrefix {limits : Limits} {v u : Value} (hv : v.Reachable) (hu : u.Reachable)
    (hform : v.form = u.form) {a b : List UInt8} (ha : encode limits (v.write limits) = .ok a)
    (hb : encode limits (u.write limits) = .ok b) (h : a <+: b) : a = b := by
  by_contra hne
  have hwhole := decode_of_takes (takes_of_encode (σ := ⟨limits, none⟩) hv ha)
  have htakes := takes_of_encode (σ := ⟨limits, none⟩) hu hb
  rw [← hform] at htakes
  obtain ⟨e, he, -⟩ := decode_of_cut (steady_read v.form) htakes h hne
  rw [hwhole] at he
  cases he

/-- **Values are self-delimiting.**  Values of any kinds that are written in turn are read back in
turn from their bytes and whatever follows: each is equal to the one that was written, but for the
patches that are not settled, and those that are built as wholes are; each ends where it ended when
it was written; in the end there is all the room for levels again, and the input is at its end just
if nothing follows.  And of a value that was cut off the reader finds that more bytes were needed
than there are. -/
theorem self_delimiting (σ : Setting) :
    (∀ vs : List Value, (∀ v ∈ vs, v.Reachable) → ∀ ends bs,
      encodeAll σ.limits vs = .ok (ends, bs) →
      (∀ v ∈ vs, (v.Built → v.seen σ.binder == v) ∧ (v.seen σ.binder == v ↔ v.Settled)) ∧
      ∀ rest,
        (Read.values σ (vs.map Value.form)).run (.start σ.limits (bs ++ rest)) =
          .ok ((vs.map (Value.seen σ.binder)).zip ends) ⟨bs.length, rest, σ.limits.maxDepth⟩ ∧
        ((∃ s, Read.finish.run ⟨bs.length, rest, σ.limits.maxDepth⟩ = .ok () s) ↔ rest = [])) ∧
    ∀ v : Value, v.Reachable → ∀ bs, encode σ.limits (v.write σ.limits) = .ok bs →
      ∀ front, front <+: bs → front ≠ bs →
        ∃ e, decode σ (v.form.read σ) front = .error e ∧ e.CutAt front.length := by
  refine ⟨fun vs hvs ends bs hbs => ⟨fun v hv => ?_, fun rest => ?_⟩, fun v hv bs hbs front => ?_⟩
  · have hequal := Value.seen_beq_iff σ.binder (hvs v hv)
    exact ⟨fun hbuilt => hequal.2 hbuilt.settled, hequal⟩
  · exact ⟨run_of_encodeAll hvs hbs rest, finish_iff _⟩
  · exact decode_of_cut (steady_read v.form) (takes_of_encode hv hbs)

/-- A context, the absence of a dimension, a patch of three nodes, a path and a base, and two bytes
after them; and the context without its last byte. -/
theorem self_delimiting_of_mixed_kinds :
    let σ : Setting := ⟨.standard, some ⟨fun _ => none, fun _ => some (.integer 5)⟩⟩
    let c := Context.empty.setBaseAt [.name ['a'] true] (.bound ⟨[7, 8], none⟩)
    let p := (Patch.noop.setBaseAt [.integer 1, .integer 2] .alpha).setClearDimsAt []
    let vs : List Value := [.context c, .dimension? none, .patch p,
      .path [.integer 7, .name ['b'] false], .base (some .omega)]
    let ends := [40, 44, 120, 142, 146]
    (∃ bs, encodeAll σ.limits vs = .ok (ends, bs) ∧
      (∀ v ∈ vs, v.seen σ.binder == v) ∧
      (Read.values σ (vs.map Value.form)).run (.start σ.limits (bs ++ [0, 9])) =
        .ok ((vs.map (Value.seen σ.binder)).zip ends) ⟨bs.length, [0, 9], 1024⟩ ∧
      ¬∃ s, Read.finish.run ⟨bs.length, [0, 9], 1024⟩ = .ok () s) ∧
    ∃ bs, c.encode σ.limits = .ok bs ∧
      ∃ e, decode σ (Form.context.read σ) bs.dropLast = .error e ∧
        e.CutAt bs.dropLast.length := by
  intro σ c p vs ends
  have hc : c.Reachable := .setBaseAt .empty _ _
  have hp : p.Built := .setClearDimsAt (.setBaseAt .noop _ _) _
  have hvs : ∀ v ∈ vs, v.Reachable := by
    simp only [vs, List.forall_mem_cons, Value.Reachable]
    exact ⟨hc, trivial, hp.reachable, trivial, trivial, List.forall_mem_nil _⟩
  have hbuilt : ∀ v ∈ vs, v.Built := by
    simp only [vs, List.forall_mem_cons, Value.Built]
    exact ⟨trivial, trivial, hp, trivial, trivial, List.forall_mem_nil _⟩
  obtain ⟨htogether, hcut⟩ := self_delimiting σ
  refine ⟨?_, _, rfl, hcut (.context c) hc _ rfl _ (List.dropLast_prefix _) (by decide)⟩
  have hends : (encodeAll σ.limits vs).toOption.map Prod.fst = some ends := by decide +kernel
  cases hbs : encodeAll σ.limits vs with
  | error fault =>
    rw [hbs] at hends
    cases hends
  | ok written =>
    obtain ⟨ends', bs⟩ := written
    rw [hbs] at hends
    obtain rfl : ends' = ends := Option.some.inj hends
    obtain ⟨hequal, hread⟩ := htogether vs hvs ends bs hbs
    obtain ⟨hrun, hfinish⟩ := hread [0, 9]
    exact ⟨bs, rfl, fun v hv => (hequal v hv).1 (hbuilt v hv), hrun, fun h => nomatch hfinish.1 h⟩

/-- **A part of a region does not come back.**  Composed with a patch that changes nothing it is
written as it is, and another patch is read from its bytes, up to their end. -/
theorem self_delimiting_fails_of_regionPart :
    let v := Value.patch (.compose .regionPart .noop)
    v.Reachable ∧ encodeAll .standard [v] = .ok ([80], Patch.regionPartBytes) ∧
      (Read.values ⟨.standard, none⟩ [.patch]).run (.start .standard Patch.regionPartBytes) =
        .ok [(.patch .noop, 80)] ⟨80, [], 1024⟩ ∧
      ¬ Value.patch .noop == v := by
  intro v
  have hv : ∀ u ∈ [v], u.Reachable :=
    List.forall_mem_singleton.2 (Patch.Reachable.compose Patch.reachable_regionPart .noop)
  have hwrite : encodeAll Limits.standard [v] = .ok ([80], Patch.regionPartBytes) := rfl
  have hread := run_of_encodeAll (σ := ⟨.standard, none⟩) hv hwrite []
  rw [List.append_nil] at hread
  exact ⟨List.forall_mem_singleton.1 hv, hwrite, hread, by decide⟩

end Binary

end Intension
