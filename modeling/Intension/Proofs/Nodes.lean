import Intension.Dimension
import Intension.Proofs.Keyed
import Mathlib.Data.Nat.PSub

/-!
# Intension.Proofs.Nodes

Trees as lists of their nodes.  Contexts, patches and live trees list their nodes
in one way (`Lists`): each with its path, and before those below it.  So what all
nodes count for together is what the root and its children count for
(`tally_nodesFrom`), what passes from a node to its children holds of all nodes
(`forall_mem`), and the nodes above another one are those whose paths lead to it.

Edits keep such counts by differences.  A checked form of an edit makes every
subtraction from a count a partial one (`Nat.psub`) and has no result where more
would be taken off than is there.  Where counts are exact an edit and its checked
form agree, and if the edits keep them so, whole runs agree
(`Checked.foldlM_eq_some`).
-/

namespace Intension

/-! ## checked forms -/

namespace Checked

/-- What is counted can be taken off. -/
theorem psub_one_of_isSome {α : Type} {base : Option α} {count rest : Nat}
    (hcount : count = base.toList.length + rest) (hbase : base.isSome) :
    count.psub 1 = some (count - 1) := by
  obtain ⟨v, rfl⟩ := Option.isSome_iff_exists.1 hbase
  rw [Option.toList_some, List.length_singleton] at hcount
  exact Nat.psub_eq_sub (by omega)

/-- A run is its checked form if each step is, on all states that the steps keep within. -/
theorem foldlM_eq_some {σ α : Type} {step : σ → α → σ} {step? : σ → α → Option σ}
    {P : σ → Prop} {Q : α → Prop} (keeps : ∀ s a, P s → Q a → P (step s a))
    (agrees : ∀ s a, P s → Q a → step? s a = some (step s a)) {l : List α} (hl : ∀ a ∈ l, Q a)
    {s : σ} (hs : P s) : l.foldlM step? s = some (l.foldl step s) ∧ P (l.foldl step s) := by
  induction l generalizing s with
  | nil => exact ⟨rfl, hs⟩
  | cons a l ih =>
    obtain ⟨ha, hl⟩ := List.forall_mem_cons.1 hl
    rw [List.foldlM_cons, agrees s a hs ha, List.foldl_cons]
    exact ih hl (keeps s a hs ha)

end Checked

/-! ## nodes -/

namespace Nodes

variable {τ : Type}

/-- What some nodes count for together, each for `weight`. -/
def tally (weight : τ → Nat) (nodes : List (Path × τ)) : Nat :=
  (nodes.map fun n => weight n.2).sum

theorem tally_cons (weight : τ → Nat) (n : Path × τ) (nodes : List (Path × τ)) :
    tally weight (n :: nodes) = weight n.2 + tally weight nodes := List.sum_cons

theorem tally_append (weight : τ → Nat) (nodes others : List (Path × τ)) :
    tally weight (nodes ++ others) = tally weight nodes + tally weight others := by
  rw [tally, List.map_append, List.sum_append, tally, tally]

/-- Paths do not count. -/
theorem tally_map (weight : τ → Nat) (f : Path × τ → Path) (nodes : List (Path × τ)) :
    tally weight (nodes.map fun n => (f n, n.2)) = tally weight nodes := by
  rw [tally, List.map_map]
  rfl

/-- The trees with these children have their nodes listed by `nodesFrom`, `p` leading to the
first of `nodesFrom p t`. -/
structure Lists (children : τ → List (Dimension × τ)) (nodesFrom : Path → τ → List (Path × τ)) :
    Prop where
  eq : ∀ p t, nodesFrom p t =
    (p, t) :: (children t).flatMap fun e => nodesFrom (p ++ [e.1]) e.2
  induction : ∀ {motive : τ → Prop}, (∀ t, (∀ e ∈ children t, motive e.2) → motive t) →
    ∀ t, motive t

namespace Lists

variable {children : τ → List (Dimension × τ)} {nodesFrom : Path → τ → List (Path × τ)}
  (L : Lists children nodesFrom)
include L

/-- A node is the first of its list or in that of a child. -/
theorem mem_iff {p : Path} {t : τ} {n : Path × τ} : n ∈ nodesFrom p t ↔
    n = (p, t) ∨ ∃ e ∈ children t, n ∈ nodesFrom (p ++ [e.1]) e.2 := by
  rw [L.eq, List.mem_cons, List.mem_flatMap]

/-- The nodes of a tree are the same whatever path leads to it. -/
theorem nodesFrom_eq_map (p : Path) (t : τ) :
    nodesFrom p t = (nodesFrom [] t).map fun n => (p ++ n.1, n.2) := by
  induction t using L.induction generalizing p with
  | _ t ih =>
    rw [L.eq p, L.eq [], List.map_cons, List.append_nil, List.map_flatMap]
    refine congrArg ((p, t) :: ·) (List.flatMap_congr fun e he => ?_)
    rw [ih e he (p ++ [e.1]), ih e he ([] ++ [e.1]), List.map_map]
    exact List.map_congr_left fun n _ => by simp

/-- The nodes of a tree are its root and, below it, those of its children. -/
theorem nodesFrom_nil_eq (t : τ) : nodesFrom [] t =
    ([], t) :: (children t).flatMap fun e => (nodesFrom [] e.2).map fun n => (e.1 :: n.1, n.2) := by
  rw [L.eq]
  exact congrArg (([], t) :: ·) (List.flatMap_congr fun e _ => L.nodesFrom_eq_map ([] ++ [e.1]) e.2)

/-- What the nodes of a tree count for together, whatever path leads to it. -/
theorem tally_nodesFrom (weight : τ → Nat) (p : Path) (t : τ) :
    tally weight (nodesFrom p t) =
      weight t + Keyed.total (fun k => tally weight (nodesFrom [] k)) (children t) := by
  rw [L.nodesFrom_eq_map, tally_map, L.nodesFrom_nil_eq, tally_cons]
  refine congrArg (weight t + ·) ?_
  induction children t with
  | nil => rfl
  | cons e l ih => rw [List.flatMap_cons, tally_append, tally_map, ih, Keyed.total_cons]

/-- What passes from a node to its children holds of all nodes. -/
theorem forall_mem {P : τ → Prop} (hP : ∀ t, P t → ∀ e ∈ children t, P e.2) {p : Path} {t : τ}
    (ht : P t) : ∀ n ∈ nodesFrom p t, P n.2 := by
  induction t using L.induction generalizing p with
  | _ t ih =>
    intro n hn
    obtain rfl | ⟨e, he, hn⟩ := L.mem_iff.1 hn
    · exact ht
    · exact ih e he (hP t ht e he) n hn

/-- What a tree has if its root and its children have it, it has if all nodes have it. -/
theorem forall_mem_iff {P Q : τ → Prop} (hP : ∀ t, P t ↔ Q t ∧ ∀ e ∈ children t, P e.2) {p : Path}
    {t : τ} : P t ↔ ∀ n ∈ nodesFrom p t, Q n.2 := by
  induction t using L.induction generalizing p with
  | _ t ih =>
    rw [hP, L.eq, List.forall_mem_cons, List.forall_mem_flatMap]
    exact and_congr_right fun _ => forall₂_congr fun e he => ih e he

/-! ## paths -/

/-- The paths of the nodes below start with the path of the node. -/
theorem path_leads {p : Path} {t : τ} {n : Path × τ} (hn : n ∈ nodesFrom p t) : p <+: n.1 := by
  induction t using L.induction generalizing p with
  | _ t ih =>
    obtain rfl | ⟨e, he, hn⟩ := L.mem_iff.1 hn
    · exact List.prefix_rfl
    · exact (List.prefix_append p [e.1]).trans (ih e he hn)

/-- The path of the first node leads to no other. -/
theorem eq_of_path_eq {p : Path} {t : τ} {n : Path × τ} (hn : n ∈ nodesFrom p t)
    (hpath : n.1 = p) : n = (p, t) := by
  obtain rfl | ⟨e, he, hn⟩ := L.mem_iff.1 hn
  · rfl
  · have hlength := (L.path_leads hn).length_le
    rw [hpath, List.length_append, List.length_singleton] at hlength
    omega

end Lists

end Nodes

end Intension
