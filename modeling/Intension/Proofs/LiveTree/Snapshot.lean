import Intension.LiveTree.View
import Intension.Proofs.Context.Shape
import Intension.Proofs.LiveTree.Shape

/-!
# Intension.Proofs.LiveTree.Snapshot

Snapshots and edits.  A snapshot is of the shape of contexts and has its nodes
where the tree has them.  An edit of the tree shows in the snapshot as the edit
of a context, provided it does so where it is made (`snapshot_withChild`);
whether the tree keeps an empty shell or drops the node makes no difference
there.
-/

namespace Intension.LiveTree

/-- What a snapshot shows of a child. -/
def shown (t : LiveTree) : Option Context := if t.isEmpty then none else some t.snapshot

/-- The snapshots of children are those of the children that show. -/
theorem snapshots_eq (l : List (Dimension × LiveTree)) : snapshots l = Keyed.select shown l := by
  induction l with
  | nil => rfl
  | cons e l ih =>
    obtain ⟨d, t⟩ := e
    rw [snapshots, Keyed.select_cons, ih, shown]
    split <;> rfl

/-- The snapshot of a tree: its base, and the snapshots of the children that are not empty. -/
theorem snapshot_eq (t : LiveTree) :
    t.snapshot = .node t.base (Keyed.select shown t.children) := by
  cases t
  rw [snapshot, snapshots_eq]

@[simp] theorem base_snapshot (t : LiveTree) : t.snapshot.base = t.base := by
  rw [snapshot_eq]
  rfl

theorem children_snapshot (t : LiveTree) :
    t.snapshot.children = Keyed.select shown t.children := by
  rw [snapshot_eq]
  rfl

/-- The snapshot of the empty tree is the empty context. -/
@[simp] theorem snapshot_empty : empty.snapshot = .empty := by
  rw [snapshot_eq]
  rfl

namespace Valid

variable {t : LiveTree}

/-- The snapshot of a valid tree counts the bases that the tree counts. -/
theorem baseCount_snapshot (h : t.Valid) : t.snapshot.baseCount = t.baseCount := by
  induction h with
  | @intro t _ bases _ _ _ ih =>
    have htotal : Keyed.total Context.baseCount (Keyed.select shown t.children) =
        Keyed.total baseCount t.children := by
      refine Keyed.total_select fun e he => ?_
      rw [shown]
      split
      · next hempty => exact (isEmpty_iff.1 hempty).symm
      · exact ih e he
    rw [snapshot_eq, bases, totalBases_eq, ← htotal]
    rfl

/-- The snapshot is empty exactly if the tree holds no base. -/
theorem isEmpty_snapshot (h : t.Valid) : t.snapshot.isEmpty = t.isEmpty := by
  rw [Context.isEmpty, h.baseCount_snapshot, isEmpty]

/-- **A snapshot is of the shape of contexts.** -/
theorem snapshot (h : t.Valid) : t.snapshot.Valid := by
  induction h with
  | @intro t sorted _ _ _ inner ih =>
    have hshown : ∀ e ∈ Keyed.select shown t.children,
        ∃ k, (e.1, k) ∈ t.children ∧ k.isEmpty = false ∧ k.snapshot = e.2 := by
      intro e he
      obtain ⟨k, hmem, hk⟩ := Keyed.mem_select he
      rw [shown] at hk
      split at hk
      · cases hk
      · next hempty => exact ⟨k, hmem, Bool.eq_false_iff.2 hempty, Option.some.inj hk⟩
    rw [snapshot_eq]
    refine .intro (sorted.select shown) rfl (fun e he => ?_) fun e he => ?_
    · obtain ⟨k, hmem, hempty, hk⟩ := hshown e he
      rw [← hk, (inner _ hmem).isEmpty_snapshot, hempty]
    · obtain ⟨k, hmem, -, hk⟩ := hshown e he
      exact hk ▸ ih _ hmem

/-- A tree that holds no base shows nothing. -/
theorem snapshot_eq_empty (h : t.Valid) (ht : t.isEmpty) : t.snapshot = .empty :=
  h.snapshot.eq_empty (h.isEmpty_snapshot.trans ht)

/-- The snapshot of a child is the child of the snapshot. -/
theorem along_snapshot (h : t.Valid) (d : Dimension) :
    t.snapshot.along d = (t.along d).snapshot := by
  rw [Context.along, Context.child?, children_snapshot, Keyed.get?_select h.sorted]
  have hk := h.along d
  rw [LiveTree.along, LiveTree.child?] at hk ⊢
  cases hget : Keyed.get? d t.children with
  | none => exact snapshot_empty.symm
  | some k =>
    rw [hget] at hk
    rw [Option.bind_some, shown]
    split
    · next hempty => exact (hk.snapshot_eq_empty hempty).symm
    · rfl

/-- The snapshot of a node is the node of the snapshot. -/
theorem nodeAt_snapshot (h : t.Valid) (p : Path) :
    t.snapshot.nodeAt p = (t.nodeAt p).snapshot := by
  induction p generalizing t with
  | nil => rfl
  | cons d p ih => rw [Context.nodeAt, h.along_snapshot, ih (h.along d), LiveTree.nodeAt]

/-- The bases of a snapshot are those of the tree, place by place. -/
theorem baseAt_snapshot (h : t.Valid) (p : Path) :
    t.snapshot.baseAt p = (t.nodeAt p).base := by
  rw [Context.baseAt_eq_base_nodeAt, h.nodeAt_snapshot, base_snapshot]

/-! ## edits -/

/-- Setting the base shows in the snapshot. -/
theorem snapshot_putBase (h : t.Valid) (v : Scalar) :
    (t.putBase v).snapshot = t.snapshot.putBase v := by
  refine (h.putBase v).snapshot.ext (h.snapshot.putBase v) ?_ ?_
  · exact base_snapshot _
  · exact (children_snapshot _).trans (children_snapshot t).symm

/-- Clearing the base shows in the snapshot. -/
theorem snapshot_takeBase (h : t.Valid) : t.takeBase.snapshot = t.snapshot.takeBase := by
  refine h.takeBase.snapshot.ext h.snapshot.takeBase ?_ ?_
  · exact base_snapshot _
  · exact (children_snapshot _).trans (children_snapshot t).symm

/-- **An edit of a child shows as the edit of the child of the snapshot.** -/
theorem snapshot_withChild {α : Type} {d : Dimension} {f : LiveTree → LiveTree × α}
    {g : Context → Context} (h : t.Valid) (hf : (f (t.along d)).1.Valid)
    (hg : (f (t.along d)).1.snapshot = g (t.along d).snapshot) :
    (t.withChild d f).1.snapshot = t.snapshot.withChild d g := by
  have hnew : g (t.snapshot.along d) = (f (t.along d)).1.snapshot := by
    rw [hg, h.along_snapshot]
  refine (h.withChild hf).snapshot.ext (h.snapshot.withChild (hnew ▸ hf.snapshot)) ?_ ?_
  · rw [base_snapshot, Context.base_withChild, base_snapshot]
    rfl
  -- what is kept for its observers alone is not shown
  have hstored : (f (t.along d)).1.stored.bind shown = (f (t.along d)).1.snapshot.stored := by
    rw [Context.stored, hf.isEmpty_snapshot, stored]
    split
    · rfl
    · next hlive =>
      have hempty := (not_isLive_iff.1 (Bool.eq_false_iff.2 hlive)).1
      rw [if_pos (isEmpty_iff.2 hempty)]
      rfl
  rw [children_snapshot, children_withChild, Keyed.select_store h.sorted, hstored,
    Context.children_withChild, hnew, children_snapshot]

/-- **An edit at the end of a path shows as the edit of the snapshot there.** -/
theorem snapshot_editAt {α : Type} {f : LiveTree → LiveTree × α} {g : Context → Context}
    (hf : ∀ k : LiveTree, k.Valid → (f k).1.Valid ∧ (f k).1.snapshot = g k.snapshot) (h : t.Valid)
    (p : Path) : (t.editAt f p).1.snapshot = t.snapshot.editAt g p := by
  induction p generalizing t with
  | nil => exact (hf t h).2
  | cons d p ih =>
    have hchild : ((t.along d).editAt f p).1.Valid := (h.along d).editAt (fun k hk => (hf k hk).1) p
    exact h.snapshot_withChild hchild (ih (h.along d))

end Valid

end Intension.LiveTree
