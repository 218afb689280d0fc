import Intension.Patch.Edit
import Intension.Proofs.Keyed

/-!
# Intension.Proofs.Patch.Shape

Patches as they are looked at: what a patch says at a path is the head of the
node that it leads to (`headAt`), and where no node is stored it says what an
absent child acts like in that region.  Redundant children are those that this
view cannot tell from absent ones, so normal forms and edits that drop them
look as if nothing had been dropped (`headAt_normalize`,
`headAt_withChild_cons`).

The view needs children in order (`Patch.Ordered`) only where a patch is walked
through as a list.
-/

namespace Intension.Patch

open Std

/-! ## induction -/

mutual

/-- Induction over a patch: from the children of a node to the node. -/
@[elab_as_elim]
theorem children_induction {motive : Patch → Prop}
    (step : ∀ p : Patch, (∀ e ∈ p.children, motive e.2) → motive p) : ∀ p, motive p
  | ⟨base, children, clearsBase, clearsDims, bases, blanks⟩ =>
    step ⟨base, children, clearsBase, clearsDims, bases, blanks⟩
      (forall_children step children)

/-- The step of an induction on patches carried over a list of stored children, for the mutual
recursion a nested type asks for. -/
theorem forall_children {motive : Patch → Prop}
    (step : ∀ p : Patch, (∀ e ∈ p.children, motive e.2) → motive p) :
    ∀ (children : List (Dimension × Patch)), ∀ e ∈ children, motive e.2
  | [], _, he => nomatch he
  | (d, p) :: rest, e, he => by
    obtain rfl | he := List.mem_cons.1 he
    · exact children_induction step p
    · exact forall_children step rest e he

end

/-! ## order -/

/-- Children are sorted, at every node. -/
inductive Ordered : Patch → Prop
  | intro {p : Patch} (sorted : Keyed.Sorted p.children)
      (inner : ∀ e ∈ p.children, Ordered e.2) : Ordered p

namespace Ordered

variable {p k : Patch}

/-- The children of an ordered patch stand in strictly ascending order of their keys. -/
theorem sorted (h : p.Ordered) : Keyed.Sorted p.children := by cases h; assumption

/-- The children of an ordered patch are ordered. -/
theorem inner (h : p.Ordered) : ∀ e ∈ p.children, e.2.Ordered := by cases h; assumption

/-- A stored child of an ordered patch is ordered. -/
theorem child? {d : Dimension} (h : p.Ordered) (hk : p.child? d = some k) : k.Ordered := by
  obtain ⟨e, -, hmem⟩ := Keyed.mem_of_get? hk
  exact h.inner _ hmem

end Ordered

theorem ordered_noop : noop.Ordered :=
  .intro Keyed.sorted_nil fun _ he => nomatch he

theorem ordered_clearAll : clearAll.Ordered :=
  .intro Keyed.sorted_nil fun _ he => nomatch he

theorem ordered_absent (clearing : Bool) : (absent clearing).Ordered := by
  cases clearing
  · exact ordered_noop
  · exact ordered_clearAll

/-! ## heads -/

/-- What a node says by itself, without its children. -/
structure Head where
  base : Option Scalar
  clearsBase : Bool
  clearsDims : Bool

/-- The head of a node. -/
def head (p : Patch) : Head := ⟨p.base, p.clearsBase, p.clearsDims⟩

/-- The child along a dimension; an absent one as what it acts like. -/
def along (forced : Bool) (p : Patch) (d : Dimension) : Patch :=
  (p.child? d).getD (absent (p.clearsDims || forced))

/-- The head of the node at the end of a path, be it stored there or not.  `forced` tells
whether the patch stands in a clearing region. -/
def headAt (forced : Bool) (p : Patch) : Path → Head
  | [] => p.head
  | d :: q => (p.along forced d).headAt (p.clearsDims || forced) q

@[simp] theorem headAt_nil (forced : Bool) (p : Patch) : p.headAt forced [] = p.head := rfl

/-- The head below a key is that of the child, with the region that the node makes for it. -/
theorem headAt_cons (forced : Bool) (p : Patch) (d : Dimension) (q : Path) :
    p.headAt forced (d :: q) = (p.along forced d).headAt (p.clearsDims || forced) q := rfl

/-- What an absent child says, it says everywhere below. -/
theorem headAt_absent (clearing : Bool) (q : Path) :
    (absent clearing).headAt clearing q = (absent clearing).head := by
  induction q with
  | nil => rfl
  | cons d q ih => cases clearing <;> exact ih

theorem child?_congr {d e : Dimension} (h : d == e) (p : Patch) : p.child? d = p.child? e :=
  Keyed.get?_congr h _

/-! ## redundant children -/

/-- A patch is redundant exactly if it has the head of an absent one and no children. -/
theorem isRedundant_iff {clearing : Bool} {p : Patch} :
    p.isRedundant clearing ↔ p.head = (absent clearing).head ∧ p.children = [] := by
  obtain ⟨base, children, clearsBase, clearsDims, _, _⟩ := p
  cases clearing <;> cases clearsBase <;> cases clearsDims <;> cases base <;> cases children <;>
    simp [isRedundant, isClearAll, isNoop, head, absent, noop, clearAll]

/-- A redundant child says what an absent one does, everywhere below. -/
theorem headAt_of_isRedundant {clearing : Bool} {p : Patch} (h : p.isRedundant clearing)
    (q : Path) : p.headAt clearing q = (absent clearing).head := by
  obtain ⟨hhead, hchildren⟩ := isRedundant_iff.1 h
  cases q with
  | nil => exact hhead
  | cons d q =>
    have hclears : (p.clearsDims || clearing) = clearing := by
      have : p.clearsDims = (absent clearing).clearsDims := congrArg Head.clearsDims hhead
      rw [this]
      cases clearing <;> rfl
    rw [headAt_cons, along, child?, hchildren, Keyed.get?_nil, Option.getD_none, hclears,
      headAt_absent]

/-- A child as it is stored: not at all if it is redundant. -/
def stored (clearing : Bool) (p : Patch) : Option Patch :=
  if p.isRedundant clearing then none else some p

/-- Not storing a redundant child does not show. -/
theorem headAt_getD_stored (clearing : Bool) (p : Patch) (q : Path) :
    ((p.stored clearing).getD (absent clearing)).headAt clearing q = p.headAt clearing q := by
  rw [stored]
  split
  · next h => rw [Option.getD_none, headAt_absent, headAt_of_isRedundant h]
  · rfl

/-! ## editing one child -/

theorem head_withChild (d : Dimension) (start clearing : Bool) (f : Patch → Patch) (p : Patch) :
    (p.withChild d start clearing f).head = p.head := by
  unfold withChild
  dsimp only
  split <;> rfl

theorem clearsDims_withChild (d : Dimension) (start clearing : Bool) (f : Patch → Patch)
    (p : Patch) : (p.withChild d start clearing f).clearsDims = p.clearsDims :=
  congrArg Head.clearsDims (head_withChild d start clearing f p)

/-- Editing a child is storing it under its key, or dropping the key of one that became redundant.
-/
theorem children_withChild (d : Dimension) (start clearing : Bool) (f : Patch → Patch)
    (p : Patch) : (p.withChild d start clearing f).children =
      Keyed.store d ((f ((p.child? d).getD (absent start))).stored clearing) p.children := by
  unfold withChild stored
  dsimp only
  split <;> rfl

/-- Editing a child changes no other. -/
theorem child?_withChild (d e : Dimension) (start clearing : Bool) (f : Patch → Patch)
    (p : Patch) : (p.withChild d start clearing f).child? e =
      if e == d then (f ((p.child? d).getD (absent start))).stored clearing
      else p.child? e := by
  rw [child?, children_withChild, Keyed.get?_store]
  rfl

/-- An edit of a child is seen below its dimension and nowhere else. -/
theorem headAt_withChild_cons {forced clearing : Bool} {p : Patch}
    (hclearing : clearing = (p.clearsDims || forced)) (d e : Dimension) (start : Bool)
    (f : Patch → Patch) (q : Path) :
    (p.withChild d start clearing f).headAt forced (e :: q) =
      if e == d then (f ((p.child? d).getD (absent start))).headAt clearing q
      else p.headAt forced (e :: q) := by
  rw [headAt_cons, along, clearsDims_withChild, child?_withChild, ← hclearing]
  split
  · exact headAt_getD_stored clearing _ q
  · rw [headAt_cons, along, ← hclearing]

/-- Editing a child keeps a patch in order, if the new child is. -/
theorem Ordered.withChild {p : Patch} (h : p.Ordered) {d : Dimension} {start clearing : Bool}
    {f : Patch → Patch} (hf : (f ((p.child? d).getD (absent start))).Ordered) :
    (p.withChild d start clearing f).Ordered := by
  refine .intro ?_ ?_
  · rw [children_withChild]
    exact h.sorted.store d _
  · rw [children_withChild]
    refine Keyed.forall_mem_store (P := Ordered) h.inner fun k hk => ?_
    rw [stored] at hk
    split at hk
    · cases hk
    · exact Option.some.inj hk ▸ hf

/-- The child along a dimension, from an explicit start, is ordered too. -/
theorem Ordered.getD_child? {p : Patch} (h : p.Ordered) (d : Dimension) (start : Bool) :
    ((p.child? d).getD (absent start)).Ordered := by
  cases hk : p.child? d with
  | none => exact ordered_absent start
  | some k => exact h.child? hk

/-! ## a choice of children -/

theorem head_retain (keep : Dimension → Bool) (p : Patch) : (p.retain keep).head = p.head := by
  simp [retain, head]

theorem children_retain (keep : Dimension → Bool) (p : Patch) :
    (p.retain keep).children = p.children.filter (keep ·.1) := by
  simp [retain, List.partition_eq_filter_filter]

/-- Every stored node of an ordered patch is ordered. -/
theorem Ordered.get? {p k : Patch} {path : Path} (h : p.Ordered) (hk : p.get? path = some k) :
    k.Ordered := by
  induction path generalizing p with
  | nil =>
    cases hk
    exact h
  | cons d path ih =>
    rw [Patch.get?] at hk
    cases hd : p.child? d with
    | none =>
      rw [hd] at hk
      cases hk
    | some q =>
      rw [hd] at hk
      obtain ⟨e, -, hmem⟩ := Keyed.mem_of_get? hd
      exact ih (h.inner _ hmem) hk

/-! ## normal form -/

/-- A normalized patch: the head as it is, and the children normalized in their region. -/
theorem normalize_eq (forced : Bool) (p : Patch) : p.normalize forced =
    node p.base p.clearsBase p.clearsDims
      (normalizeChildren (p.clearsDims || forced) p.children) := by
  cases p
  rw [normalize]

/-- Normalizing children: the first is dropped if it becomes redundant. -/
theorem normalizeChildren_cons (clearing : Bool) (e : Dimension × Patch)
    (l : List (Dimension × Patch)) : normalizeChildren clearing (e :: l) =
      if (e.2.normalize clearing).isRedundant clearing then normalizeChildren clearing l
      else (e.1, e.2.normalize clearing) :: normalizeChildren clearing l := by
  obtain ⟨d, p⟩ := e
  rw [normalizeChildren]

/-- What is left of children in normal form comes from one of them. -/
theorem mem_normalizeChildren {clearing : Bool} {l : List (Dimension × Patch)}
    {e : Dimension × Patch} (h : e ∈ normalizeChildren clearing l) :
    ∃ k ∈ l, e = (k.1, k.2.normalize clearing) := by
  induction l with
  | nil => cases h
  | cons k l ih =>
    rw [normalizeChildren_cons] at h
    split at h
    · obtain ⟨k', hk', he⟩ := ih h
      exact ⟨k', List.mem_cons_of_mem _ hk', he⟩
    · obtain rfl | h := List.mem_cons.1 h
      · exact ⟨k, List.mem_cons_self, rfl⟩
      · obtain ⟨k', hk', he⟩ := ih h
        exact ⟨k', List.mem_cons_of_mem _ hk', he⟩

/-- Normalizing keeps the keys in order. -/
theorem sorted_normalizeChildren {clearing : Bool} {l : List (Dimension × Patch)}
    (h : Keyed.Sorted l) : Keyed.Sorted (normalizeChildren clearing l) := by
  induction l with
  | nil => exact Keyed.sorted_nil
  | cons k l ih =>
    obtain ⟨hk, hl⟩ := Keyed.sorted_cons.1 h
    rw [normalizeChildren_cons]
    split
    · exact ih hl
    · refine Keyed.sorted_cons.2 ⟨fun e he => ?_, ih hl⟩
      obtain ⟨k', hk', rfl⟩ := mem_normalizeChildren he
      exact hk k' hk'

/-- Reading a key of normalized children. -/
theorem get?_normalizeChildren {clearing : Bool} {l : List (Dimension × Patch)}
    (h : Keyed.Sorted l) (d : Dimension) : Keyed.get? d (normalizeChildren clearing l) =
      (Keyed.get? d l).bind fun p => (p.normalize clearing).stored clearing := by
  induction l with
  | nil => rfl
  | cons k l ih =>
    obtain ⟨hk, hl⟩ := Keyed.sorted_cons.1 h
    rw [normalizeChildren_cons, Keyed.get?_cons]
    by_cases hd : d == k.1
    · have hnone : Keyed.get? d l = none := Keyed.get?_eq_none_of_beq hd hk
      rw [if_pos hd, Option.bind_some, stored]
      split
      · rw [ih hl, hnone]
        rfl
      · rw [Keyed.get?_cons, if_pos hd]
    · rw [if_neg hd, ← ih hl]
      split
      · rfl
      · rw [Keyed.get?_cons, if_neg hd]

/-- Normalizing keeps a patch in order. -/
theorem Ordered.normalize {p : Patch} (h : p.Ordered) (forced : Bool) :
    (p.normalize forced).Ordered := by
  induction h generalizing forced with
  | @intro p sorted inner ih =>
    rw [normalize_eq]
    refine .intro (sorted_normalizeChildren sorted) fun e he => ?_
    obtain ⟨k, hk, rfl⟩ := mem_normalizeChildren he
    exact ih k hk _

/-- **Normal form does not show.** -/
theorem headAt_normalize {p : Patch} (h : p.Ordered) (forced : Bool) (q : Path) :
    (p.normalize forced).headAt forced q = p.headAt forced q := by
  induction h generalizing forced q with
  | @intro p sorted inner ih =>
    rw [normalize_eq]
    cases q with
    | nil => rfl
    | cons d q =>
      show ((Keyed.get? d (normalizeChildren (p.clearsDims || forced) p.children)).getD
        (absent (p.clearsDims || forced))).headAt (p.clearsDims || forced) q = _
      rw [headAt_cons, along, child?, get?_normalizeChildren sorted]
      cases hget : Keyed.get? d p.children with
      | none => rfl
      | some k =>
        obtain ⟨e, -, he⟩ := Keyed.mem_of_get? hget
        rw [Option.bind_some, headAt_getD_stored]
        exact ih _ he _ q

/-! ## editing at the end of a path -/

/-- Editing a node keeps a patch in order, if the edit keeps nodes so. -/
theorem Ordered.editAt {f : Bool → Patch → Patch}
    (hf : ∀ forced (k : Patch), k.Ordered → (f forced k).Ordered) {p : Patch} (h : p.Ordered)
    (forced : Bool) (path : Path) : (p.editAt f forced path).Ordered := by
  induction path generalizing p forced with
  | nil => exact hf forced p h
  | cons d path ih => exact h.withChild (ih (h.getD_child? d _) _)

/-- Marks, bases and counts do not bear on the order of children. -/
theorem Ordered.of_children_eq {p k : Patch} (h : p.Ordered) (hk : k.children = p.children) :
    k.Ordered := .intro (hk ▸ h.sorted) (hk ▸ h.inner)

/-- Marking the children of a node keeps a patch in order. -/
theorem Ordered.setDimsMark {p : Patch} (h : p.Ordered) (mark forced : Bool) :
    (p.setDimsMark mark forced).Ordered := by
  rw [Patch.setDimsMark]
  split
  · exact h
  · exact (h.of_children_eq (k := { p with clearsDims := mark }) rfl).normalize forced

/-- Replacing a child by an ordered one keeps a patch in order. -/
theorem Ordered.withDim {p k : Patch} (h : p.Ordered) (hk : k.Ordered) (d : Dimension) :
    (Patch.withDim d k p).Ordered := h.withChild (hk.normalize _)

theorem ordered_node {base : Option Scalar} {clearsBase clearsDims : Bool}
    {children : List (Dimension × Patch)} (sorted : Keyed.Sorted children)
    (inner : ∀ e ∈ children, e.2.Ordered) :
    (node base clearsBase clearsDims children).Ordered := .intro sorted inner

/-! ## equality -/

/-- Patches agree if their heads do and the children that are not redundant. -/
theorem agrees_eq (forced : Bool) (p q : Patch) : agrees forced p q =
    (p.clearsBase == q.clearsBase && p.clearsDims == q.clearsDims && p.base == q.base
      && agreesChildren (p.clearsDims || forced) p.children
          (essential (p.clearsDims || forced) q.children)) := by
  cases p
  rw [agrees]

/-- A child that is not redundant has to agree with the next one. -/
theorem agreesChildren_cons_of_kept {clearing : Bool} {e k : Dimension × Patch}
    (he : e.2.isRedundant clearing = false) (l m : List (Dimension × Patch)) :
    agreesChildren clearing (e :: l) (k :: m) =
      (e.1 == k.1 && agrees clearing e.2 k.2 && agreesChildren clearing l m) := by
  obtain ⟨d, p⟩ := e
  rw [agreesChildren.eq_def]
  simp only [he, Bool.false_eq_true, if_false]

/-- A redundant child is passed over. -/
theorem agreesChildren_cons_of_redundant {clearing : Bool} {e : Dimension × Patch}
    (he : e.2.isRedundant clearing) (l m : List (Dimension × Patch)) :
    agreesChildren clearing (e :: l) m = agreesChildren clearing l m := by
  obtain ⟨d, p⟩ := e
  rw [agreesChildren.eq_def]
  simp only [he, if_true]

end Intension.Patch
