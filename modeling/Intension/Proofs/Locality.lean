import Intension.Proofs.Context.Counting
import Intension.Proofs.Patch.Editing

/-!
# Intension.Proofs.Locality

Edits at the end of a path do not leak.  Of a context, an edit changes the node there and
nothing but what that node is made of: nodes aside stay as they are, and those on the way
are there just as long as something is left below them, so edits of places apart may be
done in either order (`Context.edits_confined`).  Of a patch, an edit of a node changes
what the patch does to the base there, and a mark for dimensions only what it does
strictly below (`Patch.edits_act_locally`).
-/

namespace Intension

namespace Context

/-! ## contexts -/

/-- The edits of one node at the end of a path, each with what it does to that node. -/
inductive Edit.ActsAt : Edit → Path → (Context → Context) → Prop
  | setBaseAt (path : Path) (v : Scalar) : ActsAt (.setBaseAt path v) path (putBase v)
  | applyAt (path : Path) (p : Patch) : ActsAt (.applyAt path p) path (apply p)
  | assignAt (path : Path) (other : Context) :
      ActsAt (.assignAt path other) path fun _ => other
  | clearAt (path : Path) : ActsAt (.clearAt path) path fun _ => empty

namespace Edit.ActsAt

variable {x : Edit} {p : Path} {f : Context → Context}

/-- The edit of one node is the step at the end of its path. -/
theorem edit_eq (h : x.ActsAt p f) (c : Context) : c.edit x = c.editAt f p := by
  cases h <;> rfl

/-- What an edit does to its node keeps it valid. -/
theorem valid (h : x.ActsAt p f) (hx : x.Reachable) : ∀ k : Context, k.Valid → (f k).Valid := by
  cases h with
  | setBaseAt path v => exact fun k hk => hk.putBase v
  | applyAt path p => exact fun k hk => hk.apply (Patch.Reachable.ordered hx)
  | assignAt path other => exact fun _ _ => Context.Reachable.valid hx
  | clearAt path => exact fun _ _ => valid_empty

end Edit.ActsAt

/-- Below the top a node is stored unless it is empty. -/
theorem Valid.get?_eq_stored {c : Context} (h : c.Valid) {p : Path} (hp : p ≠ []) :
    c.get? p = (c.nodeAt p).stored := by
  rw [nodeAt_eq_getD]
  cases hk : c.get? p with
  | none => rfl
  | some k =>
    rw [Option.getD_some, stored, h.isEmpty_of_get? hp hk, if_neg Bool.false_ne_true]

section

variable {f g : Context → Context} (hf : ∀ k : Context, k.Valid → (f k).Valid)
  (hg : ∀ k : Context, k.Valid → (g k).Valid) {c : Context} (hc : c.Valid) {p q : Path}

include hf hc

/-- The node at the end of the path is the edited one, stored unless it is empty. -/
theorem get?_editAt (p : Path) : (c.editAt f p).get? p =
    if p ≠ [] ∧ (f ((c.get? p).getD empty)).isEmpty then none
    else some (f ((c.get? p).getD empty)) := by
  rw [← nodeAt_eq_getD]
  by_cases hp : p = []
  · subst hp
    exact (if_neg fun h => h.1 rfl).symm
  · rw [(hc.editAt hf p).get?_eq_stored hp, nodeAt_editAt hf hc,
      Path.after?_eq_some_nil_iff.2 BEq.rfl, Option.elim_some, stored]
    exact if_congr ⟨fun h => ⟨hp, h⟩, And.right⟩ rfl rfl

/-- A node that lies neither above nor below the path stays as it is. -/
theorem nodeAt_editAt_of_apart (hpq : ¬ p.leads q) (hqp : ¬ q.leads p) :
    (c.editAt f p).nodeAt q = c.nodeAt q := by
  rw [nodeAt_editAt hf hc, Path.after?_eq_none_iff.2 hpq, Path.after?_eq_none_iff.2 hqp]
  rfl

/-- A step at one path leaves the nodes at unrelated paths as they are. -/
theorem get?_editAt_of_apart (hpq : ¬ p.leads q) (hqp : ¬ q.leads p) :
    (c.editAt f p).get? q = c.get? q := by
  have hq : q ≠ [] := fun h => hqp (h ▸ rfl)
  rw [(hc.editAt hf p).get?_eq_stored hq, hc.get?_eq_stored hq,
    nodeAt_editAt_of_apart hf hc hpq hqp]

/-- A node above keeps its base. -/
theorem baseAt_editAt_of_not_leads (hpq : ¬ p.leads q) :
    (c.editAt f p).baseAt q = c.baseAt q := by
  rw [baseAt_editAt hf hc, Path.after?_eq_none_iff.2 hpq, Option.elim_none]

include hg

/-- Edits of places apart may be done in either order. -/
theorem editAt_editAt_comm (hpq : ¬ p.leads q) (hqp : ¬ q.leads p) :
    (c.editAt f p).editAt g q == (c.editAt g q).editAt f p := by
  have hfc := hc.editAt hf p
  have hgc := hc.editAt hg q
  refine (beq_iff_baseAt (hfc.editAt hg q) (hgc.editAt hf p)).2 fun r => ?_
  rw [baseAt_editAt hg hfc, baseAt_editAt hf hc, nodeAt_editAt_of_apart hf hc hpq hqp,
    baseAt_editAt hf hgc, baseAt_editAt hg hc, nodeAt_editAt_of_apart hg hc hqp hpq]
  cases hpr : Path.after? p r with
  | none => exact BEq.rfl
  | some s =>
    cases hqr : Path.after? q r with
    | none => exact BEq.rfl
    | some t =>
      -- no place lies below both ends
      have hlead : p.leads q ∨ q.leads p :=
        Path.leads_total (Path.leads_of_after? hpr) (Path.leads_of_after? hqr)
      exact absurd hlead (not_or.2 ⟨hpq, hqp⟩)

end

/-- **An edit at the end of a path is confined to its target.**  The node there becomes the edited
one and is stored unless it is empty; a node that lies neither above nor below stays as it is;
nodes above keep their bases and are there as long as a base is left at or below them.  So edits
of places apart may be done in either order. -/
theorem edits_confined {c : Context} (hc : c.Reachable) {x : Edit} (hx : x.Reachable) {p : Path}
    {f : Context → Context} (hf : x.ActsAt p f) :
    ((c.edit x).get? p =
      if p ≠ [] ∧ (f ((c.get? p).getD empty)).isEmpty then none
      else some (f ((c.get? p).getD empty))) ∧
    (∀ q, ¬ p.leads q → ¬ q.leads p → (c.edit x).get? q = c.get? q) ∧
    (∀ q, q.leads p → ¬ p.leads q →
      (c.edit x).baseAt q = c.baseAt q ∧
      ((∃ k, (c.edit x).get? q = some k) ↔
        q = [] ∨ ∃ r v, (c.edit x).baseAt (q ++ r) = some v)) ∧
    ∀ (y : Edit) (q : Path) (g : Context → Context), y.Reachable → y.ActsAt q g →
      ¬ p.leads q → ¬ q.leads p → (c.edit x).edit y == (c.edit y).edit x := by
  have hvalid := hf.valid hx
  simp only [hf.edit_eq]
  refine ⟨get?_editAt hvalid hc.valid p,
    fun q hpq hqp => get?_editAt_of_apart hvalid hc.valid hpq hqp,
    fun q hqp hpq => ⟨baseAt_editAt_of_not_leads hvalid hc.valid hpq, ?_⟩,
    fun y q g hy hg hpq hqp => ?_⟩
  · by_cases hq : q = []
    · subst hq
      exact iff_of_true ⟨_, rfl⟩ (.inl rfl)
    · rw [(hc.valid.editAt hvalid p).exists_get?_iff hq, or_iff_right hq]
  · rw [hg.edit_eq, hg.edit_eq]
    exact editAt_editAt_comm hvalid (hg.valid hy) hc.valid hpq hqp

/-- Clearing `1:2:3` takes the node at `1:2` with it, and a base put at `1:2:5` brings that back.  The
nodes at `1` and `1:4` stay. -/
theorem edits_confined_of_shared_front :
    let c := (empty.setBaseAt [.integer 1, .integer 2, .integer 3] .alpha).setBaseAt
      [.integer 1, .integer 4] .omega
    let x := Edit.clearAt [.integer 1, .integer 2, .integer 3]
    let y := Edit.setBaseAt [.integer 1, .integer 2, .integer 5] .omega
    (c.edit x).get? [.integer 1, .integer 2, .integer 3] = none ∧
      (c.edit x).get? [.integer 1, .integer 4] = c.get? [.integer 1, .integer 4] ∧
      (∃ k, (c.edit x).get? [.integer 1] = some k) ∧
      ((c.edit x).edit y == (c.edit y).edit x) ∧
      (c.edit x).text = "<1:<4:<^>>>".toList ∧
      ((c.edit x).edit y).text = "<1:<2:<5:<^>>+4:<^>>>".toList := by
  intro c x y
  have hc : c.Reachable := (Reachable.empty.setBaseAt _ _).setBaseAt _ _
  obtain ⟨htarget, hapart, habove, hcomm⟩ :=
    edits_confined hc (x := x) trivial (Edit.ActsAt.clearAt _)
  have hone := (habove [.integer 1] (by decide) (by decide)).2
  exact ⟨htarget.trans rfl, hapart _ (by decide) (by decide),
    hone.2 (.inr ⟨[.integer 4], .omega, rfl⟩),
    hcomm y _ _ trivial (.setBaseAt _ _) (by decide) (by decide), by decide +kernel,
    by decide +kernel⟩

end Context

namespace Patch

/-! ## patches -/

variable {p : Patch} {c : Context}

/-- An edit that leaves the children of a node alone bears on the base there only. -/
theorem baseAt_apply_editAt {f : Patch → Patch} (hchildren : ∀ k, (f k).children = k.children)
    (hclears : ∀ k, (f k).clearsDims = k.clearsDims) (hp : p.Ordered) (hc : c.Valid)
    (path q : Path) : (c.apply (p.editAt (fun _ k => f k) false path)).baseAt q =
      if path == q then (f (p.nodeAt false path)).head.act (c.baseAt path)
      else (c.apply p).baseAt q := by
  have hedited : (p.editAt (fun _ k => f k) false path).Ordered :=
    hp.editAt (fun _ k hk => hk.of_children_eq (hchildren k)) false path
  rw [Context.baseAt_apply hc hedited, Context.baseAt_apply hc hp,
    headAt_editAt_of_children_eq hchildren hclears]
  split
  · next hq => rw [Context.baseAt_congr hq]
  · rfl

/-- A mark for dimensions bears on bases strictly below its node only. -/
theorem baseAt_apply_editAt_setDimsMark (hp : p.Ordered) (hc : c.Valid) (mark : Bool)
    {path q : Path} (hq : path.leads q → path == q) :
    (c.apply (p.editAt (setDimsMark mark) false path)).baseAt q = (c.apply p).baseAt q := by
  have hedited : (p.editAt (setDimsMark mark) false path).Ordered :=
    hp.editAt (fun _ k hk => hk.setDimsMark mark _) false path
  rw [Context.baseAt_apply hc hedited, Context.baseAt_apply hc hp, headAt_editAt]
  cases hr : Path.after? path q with
  | none => rfl
  | some r =>
    have hend : path == q := hq (Path.leads_of_after? hr)
    obtain rfl : r = [] := by
      rw [Path.after?_eq_some_nil_iff.2 hend] at hr
      exact (Option.some.inj hr).symm
    rw [Option.elim_some, headAt_nil, act_head_setDimsMark, headAt_of_after? hr, headAt_nil]

/-- **Edits of a patch at the end of a path act locally.**  Putting a base there, and setting or
resetting the mark to clear it, changes what the patch does to that base and to no other one: the
base is then the one put; the patch's own, or none; or the patch's own, or that of the context.  A
mark to clear dimensions changes nothing but what is strictly below. -/
theorem edits_act_locally (hp : p.Ordered) (hc : c.Reachable) (path q : Path) :
    (∀ v, (c.apply (p.setBaseAt path v)).baseAt q =
      if path == q then some v else (c.apply p).baseAt q) ∧
    (c.apply (p.setClearBaseAt path)).baseAt q =
      (if path == q then p.baseAt path else (c.apply p).baseAt q) ∧
    (c.apply (p.resetClearBaseAt path)).baseAt q =
      (if path == q then (p.baseAt path).or (c.baseAt path) else (c.apply p).baseAt q) ∧
    ((path.leads q → path == q) →
      (c.apply (p.setClearDimsAt path)).baseAt q = (c.apply p).baseAt q ∧
      (c.apply (p.resetClearDimsAt path)).baseAt q = (c.apply p).baseAt q) := by
  have hbase : (p.nodeAt false path).base = p.baseAt path := by
    rw [← base_headAt false, headAt_eq_head_nodeAt]
    rfl
  refine ⟨fun v => ?_, ?_, ?_, fun hq => ⟨?_, ?_⟩⟩
  · exact baseAt_apply_editAt (f := putBase v) (fun _ => rfl) (fun _ => rfl) hp hc.valid path q
  · rw [← hbase, ← act_head_markBase]
    exact baseAt_apply_editAt (f := markBase) (fun _ => rfl) (fun _ => rfl) hp hc.valid path q
  · rw [← hbase, ← act_head_unmarkBase]
    exact baseAt_apply_editAt (f := unmarkBase) (fun _ => rfl) (fun _ => rfl) hp hc.valid path q
  · exact baseAt_apply_editAt_setDimsMark hp hc.valid true hq
  · exact baseAt_apply_editAt_setDimsMark hp hc.valid false hq

/-- Nothing is listed at `1:3:4` in the region that is cleared at `1`.  To keep the base there takes
nodes at `1:3` and `1:3:4`, which must not keep that at `1:3`. -/
theorem edits_act_locally_in_region :
    let c := ((Context.empty.setBaseAt [.integer 1, .integer 3] .omega).setBaseAt
      [.integer 1, .integer 3, .integer 4] .alpha)
    let p := (noop.setBaseAt [.integer 1, .integer 2] .alpha).setClearDimsAt [.integer 1]
    let path := [.integer 1, .integer 3, .integer 4]
    (c.apply (p.setBaseAt path .omega)).baseAt path = some .omega ∧
      (c.apply (p.setClearBaseAt path)).baseAt path = none ∧
      (c.apply (p.resetClearBaseAt path)).baseAt path = some .alpha ∧
      (c.apply (p.resetClearBaseAt path)).baseAt [.integer 1, .integer 3] = none ∧
      (c.apply (p.resetClearDimsAt path)).baseAt path = none ∧
      (c.apply (p.resetClearBaseAt path)).text = "<1:<2:<~>+3:<4:<~>>>>".toList := by
  intro c p path
  have hc : c.Reachable := (Context.Reachable.empty.setBaseAt _ _).setBaseAt _ _
  have hp : p.Ordered := ((Reachable.noop.setBaseAt _ _).setClearDimsAt _).ordered
  obtain ⟨hput, hset, hreset, hdims⟩ := edits_act_locally hp hc path path
  have habove := (edits_act_locally hp hc path [.integer 1, .integer 3]).2.2.1
  exact ⟨(hput .omega).trans rfl, hset.trans rfl, hreset.trans rfl, habove.trans rfl,
    (hdims fun _ => BEq.rfl).2.trans rfl, by decide +kernel⟩

end Patch

end Intension
