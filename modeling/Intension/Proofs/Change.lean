import Intension.Notice
import Intension.Proofs.Context.Equality
import Intension.Proofs.Patch.Effect

/-!
# Intension.Proofs.Change

Changes through heads.  Each of the three kinds of change acts on the base at
every path as some head does (`Change.headAt`), and as the patch does that says
the same (`Change.headAt_toPatch`).  So changes, also those at the end of a path,
do not tell equal contexts apart.
-/

namespace Intension

/-- What a change brings has the right shape. -/
def Change.Sound : Change → Prop
  | .patch p => p.Ordered
  | .assign c => c.Valid
  | .clear => True

/-- What a change says about the base at the end of a path. -/
def Change.headAt (x : Change) (q : Path) : Patch.Head :=
  match x with
  | .patch p => p.headAt false q
  | .assign c => ⟨c.baseAt q, true, true⟩
  | .clear => Patch.clearAll.head

namespace Change

/-- The patch that says the same as a change is ordered. -/
theorem ordered_toPatch {x : Change} (hx : x.Sound) : x.toPatch.Ordered := by
  cases x with
  | patch p => exact hx
  | assign c => exact Patch.ordered_ofContext hx
  | clear => exact Patch.ordered_clearAll

/-- A change and the patch that says the same are one to every context. -/
theorem headAt_toPatch (x : Change) (q : Path) : x.toPatch.headAt false q = x.headAt q := by
  cases x with
  | patch p => rfl
  | assign c => exact Patch.headAt_ofContext c false q
  | clear =>
    cases q with
    | nil => rfl
    | cons d q => exact Patch.headAt_absent true q

end Change

namespace Context

/-- A change keeps the right shape. -/
theorem Valid.change {c : Context} (h : c.Valid) {x : Change} (hx : x.Sound) :
    (c.change x).Valid := by
  cases x with
  | patch p => exact h.apply hx
  | assign d => exact hx
  | clear => exact valid_empty

/-- **A change acts on each base through its head at that path.** -/
theorem baseAt_change {c : Context} (h : c.Valid) {x : Change} (hx : x.Sound) (q : Path) :
    (c.change x).baseAt q = (x.headAt q).act (c.baseAt q) := by
  cases x with
  | patch p => exact baseAt_apply h hx q
  | assign d => exact (act_head_ofContext _ _).symm
  | clear => exact baseAt_empty q

/-! ## at the end of a path -/

/-- A change at the end of a path keeps the right shape. -/
theorem Valid.changeAt {c : Context} (h : c.Valid) {x : Change} (hx : x.Sound) (p : Path) :
    (c.changeAt p x).Valid := h.editAt (fun _ hk => hk.change hx) p

/-- **A change at the end of a path acts on the bases from there on** and on no other. -/
theorem baseAt_changeAt {c : Context} (h : c.Valid) {x : Change} (hx : x.Sound) (p q : Path) :
    (c.changeAt p x).baseAt q =
      (Path.after? p q).elim (c.baseAt q) fun r => (x.headAt r).act (c.baseAt q) := by
  rw [changeAt, baseAt_editAt (fun _ hk => hk.change hx) h]
  cases hr : Path.after? p q with
  | none => rfl
  | some r =>
    rw [Option.elim_some, Option.elim_some, baseAt_change (h.nodeAt p) hx,
      baseAt_eq_base_nodeAt, ← nodeAt_of_after? hr, baseAt_eq_base_nodeAt]

/-- Equal contexts stay equal under a change. -/
theorem changeAt_congr {c d : Context} (hc : c.Valid) (hd : d.Valid) {x : Change} (hx : x.Sound)
    (p : Path) (h : c == d) : c.changeAt p x == d.changeAt p x := by
  rw [beq_iff_baseAt (hc.changeAt hx p) (hd.changeAt hx p)]
  intro q
  have hq := (beq_iff_baseAt hc hd).1 h q
  rw [baseAt_changeAt hc hx, baseAt_changeAt hd hx]
  cases Path.after? p q with
  | none => exact hq
  | some r => exact (x.headAt r).act_congr hq

end Context

end Intension
