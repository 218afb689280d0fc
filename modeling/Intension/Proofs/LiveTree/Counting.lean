import Intension.Proofs.LiveTree.Checking
import Intension.Proofs.Nodes

/-!
# Intension.Proofs.LiveTree.Counting

The two counts that live trees cache, against the bases and observers counted node
by node, through any runs: counts are exact, stored children are live, and nothing
is ever subtracted from less, whatever the observers answer.
-/

namespace Intension.LiveTree

/-! ## nodes one by one -/

theorem childNodesFrom_eq (p : Path) (l : List (Dimension × LiveTree)) :
    childNodesFrom p l = l.flatMap fun e => nodesFrom (p ++ [e.1]) e.2 := by
  induction l with
  | nil => rfl
  | cons e l ih => rw [childNodesFrom, ih, List.flatMap_cons]

theorem lists_nodes : Nodes.Lists children nodesFrom where
  eq p t := by
    cases t
    rw [nodesFrom, childNodesFrom_eq]
  induction := children_induction

/-- The number of bases in the whole tree, node by node. -/
def bases (t : LiveTree) : Nat := Nodes.tally (·.base.toList.length) t.nodes

/-- The number of observers in the whole tree, node by node. -/
def heads (t : LiveTree) : Nat := Nodes.tally (·.observers.length) t.nodes

namespace Valid

variable {t : LiveTree}

/-- The count of bases is the number of bases in the tree, by induction on the tree. -/
theorem baseCount_eq_bases (h : t.Valid) : t.baseCount = t.bases := by
  induction h with
  | intro sorted bases heads live inner ih =>
    rw [LiveTree.bases, nodes, lists_nodes.tally_nodesFrom, bases, totalBases_eq,
      Keyed.total_congr ih]
    rfl

/-- The count of heads is the number of observers in the tree, by induction on the tree. -/
theorem headCount_eq_heads (h : t.Valid) : t.headCount = t.heads := by
  induction h with
  | intro sorted bases heads live inner ih =>
    rw [LiveTree.heads, nodes, lists_nodes.tally_nodesFrom, heads, totalHeads_eq,
      Keyed.total_congr ih]
    rfl

end Valid

/-! ## all nodes at all times -/

/-- At every node the counts are those of the bases and observers below, and each child has one
or the other. -/
structure Counted (t : LiveTree) : Prop where
  bases : ∀ n ∈ t.nodes, n.2.baseCount = n.2.bases
  heads : ∀ n ∈ t.nodes, n.2.headCount = n.2.heads
  live : ∀ n ∈ t.nodes, ∀ e ∈ n.2.children, 0 < e.2.baseCount ∨ 0 < e.2.headCount

/-- In a valid tree all counts are exact and no child is a dead one. -/
theorem Valid.counted {t : LiveTree} (h : t.Valid) : t.Counted := by
  have hvalid : ∀ n ∈ t.nodes, n.2.Valid := lists_nodes.forall_mem (fun _ hk => hk.inner) h
  refine ⟨fun n hn => (hvalid n hn).baseCount_eq_bases,
    fun n hn => (hvalid n hn).headCount_eq_heads, fun n hn e he => ?_⟩
  simpa [isLive] using (hvalid n hn).live e he

/-- **Counts are exact, stored children are live, and nothing is ever subtracted from less**: so
it is in every tree that can be had, and through any run of it, whatever the observers answer. -/
theorem counts_exact_through_runs {t : LiveTree} (ht : t.Reachable) :
    t.Counted ∧ ∀ actions : List (Channel × Action), (∀ a ∈ actions, a.2.Reachable) →
      t.run? actions = some (t.run actions) ∧ (t.run actions).Counted :=
  ⟨ht.valid.counted, fun _ hactions => (ht.run hactions).imp_right fun h => h.valid.counted⟩

/-- A base comes and goes next to an observed shell, which is all that a clearing leaves of the
tree; another shell goes with its observer.  Every notice is refused. -/
def shellRun : List (Channel × Action) :=
  [.change [] (.patch (.setBaseAt [.integer 1, .integer 3] .alpha (.setClearDimsAt [] .noop))),
    .attach [.integer 4] ⟨2, false⟩,
    .change [.integer 1] (.assign (.ofBase .omega)),
    .kick [.integer 1] false,
    .change [] .clear,
    .detach [.integer 4] ⟨2, false⟩].map fun a => (⟨fun _ => some ⟨[]⟩, none⟩, a)

/-- In the end one observer is counted, and no base. -/
theorem counts_exact_through_shellRun :
    let t := (empty.attach [.integer 1, .integer 2] ⟨0, false⟩).attach [.integer 1] ⟨1, true⟩
    (t.run? shellRun = some (t.run shellRun) ∧ (t.run shellRun).Counted) ∧
      (t.run shellRun).headCount = 1 ∧ (t.run shellRun).baseCount = 0 := by
  intro t
  have ht : t.Reachable := .attach (.attach .empty _ _) _ _
  have hactions : ∀ a ∈ shellRun, a.2.Reachable := by
    have hpatch : (Patch.setBaseAt [.integer 1, .integer 3] .alpha
        (.setClearDimsAt [] .noop)).Reachable := .setBaseAt (.setClearDimsAt .noop []) _ _
    simp only [shellRun, List.map_cons, List.map_nil, List.forall_mem_cons]
    exact ⟨.patch hpatch, trivial, .assign (.ofBase .omega), trivial, .clear, trivial,
      fun _ ha => nomatch ha⟩
  exact ⟨(counts_exact_through_runs ht).2 shellRun hactions, by decide +kernel, by decide +kernel⟩

end Intension.LiveTree
