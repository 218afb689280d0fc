import Intension.LiveTree.Basic
import Intension.Proofs.Keyed

/-!
# Intension.Proofs.LiveTree.Shape

The shape that live trees keep (`LiveTree.Valid`): children sorted, both counts
exact, every stored child live.  As with contexts, nodes are looked at as if
every path led to one, and each edit has one equation through that view and
keeps the shape.
-/

namespace Intension.LiveTree

/-! ## induction -/

mutual

/-- Induction over a live tree: from the children of a node to the node. -/
@[elab_as_elim]
theorem children_induction {motive : LiveTree → Prop}
    (step : ∀ t : LiveTree, (∀ e ∈ t.children, motive e.2) → motive t) : ∀ t, motive t
  | ⟨base, children, bases, heads, observers⟩ =>
    step ⟨base, children, bases, heads, observers⟩ (forall_children step children)

/-- The step of an induction on trees carried over a list of stored children, for the mutual
recursion a nested type asks for. -/
theorem forall_children {motive : LiveTree → Prop}
    (step : ∀ t : LiveTree, (∀ e ∈ t.children, motive e.2) → motive t) :
    ∀ (children : List (Dimension × LiveTree)), ∀ e ∈ children, motive e.2
  | [], _, he => nomatch he
  | (d, t) :: rest, e, he => by
    obtain rfl | he := List.mem_cons.1 he
    · exact children_induction step t
    · exact forall_children step rest e he

end

/-! ## the shape -/

/-- Children are sorted and live, and the counts are those of the bases and observers
below, at every node. -/
inductive Valid : LiveTree → Prop
  | intro {t : LiveTree} (sorted : Keyed.Sorted t.children)
      (bases : t.baseCount = t.base.toList.length + totalBases t.children)
      (heads : t.headCount = t.observers.length + totalHeads t.children)
      (live : ∀ e ∈ t.children, e.2.isLive)
      (inner : ∀ e ∈ t.children, Valid e.2) : Valid t

/-- The bases counted over a list of children are the sum of the children's counts. -/
theorem totalBases_eq (l : List (Dimension × LiveTree)) :
    totalBases l = Keyed.total baseCount l := rfl

/-- The heads counted over a list of children are the sum of the children's counts. -/
theorem totalHeads_eq (l : List (Dimension × LiveTree)) :
    totalHeads l = Keyed.total headCount l := rfl

/-- A tree is empty exactly if it counts no base. -/
theorem isEmpty_iff {t : LiveTree} : t.isEmpty ↔ t.baseCount = 0 := by
  simp [isEmpty]

@[simp] theorem isEmpty_empty : empty.isEmpty = true := rfl

/-- A tree is dead exactly if it counts neither bases nor observers. -/
theorem not_isLive_iff {t : LiveTree} :
    t.isLive = false ↔ t.baseCount = 0 ∧ t.headCount = 0 := by
  simp [isLive]

/-- The empty tree keeps the rules of its representation. -/
theorem valid_empty : empty.Valid :=
  .intro Keyed.sorted_nil rfl rfl (fun _ he => nomatch he) (fun _ he => nomatch he)

namespace Valid

variable {t : LiveTree}

/-- The children of a valid tree stand in strictly ascending order of their keys. -/
theorem sorted (h : t.Valid) : Keyed.Sorted t.children := by cases h; assumption

/-- The bases a valid tree counts are its own and those of its children. -/
theorem bases (h : t.Valid) :
    t.baseCount = t.base.toList.length + totalBases t.children := by cases h; assumption

/-- The heads a valid tree counts are its own and those of its children. -/
theorem heads (h : t.Valid) :
    t.headCount = t.observers.length + totalHeads t.children := by cases h; assumption

/-- No child a valid tree stores is a dead one. -/
theorem live (h : t.Valid) : ∀ e ∈ t.children, e.2.isLive := by cases h; assumption

/-- The children of a valid tree are valid. -/
theorem inner (h : t.Valid) : ∀ e ∈ t.children, e.2.Valid := by cases h; assumption

/-- An empty tree has no base, and no child of it has one. -/
theorem empty_inner (h : t.Valid) (ht : t.isEmpty) :
    t.base = none ∧ ∀ e ∈ t.children, e.2.isEmpty := by
  have hbases := h.bases
  rw [isEmpty_iff.1 ht, totalBases_eq] at hbases
  refine ⟨?_, fun e he => isEmpty_iff.2 ?_⟩
  · cases hb : t.base with
    | none => rfl
    | some v => simp [hb] at hbases; omega
  · have hle : e.2.baseCount ≤ Keyed.total baseCount t.children := Keyed.le_total_of_mem he
    omega

/-- Only one tree of this shape is not live. -/
theorem eq_empty (h : t.Valid) (ht : t.isLive = false) : t = empty := by
  obtain ⟨hbases, hheads⟩ := not_isLive_iff.1 ht
  obtain ⟨hbase, hempty⟩ := h.empty_inner (isEmpty_iff.2 hbases)
  have hcount := h.heads
  rw [totalHeads_eq] at hcount
  have hobservers : t.observers = [] := List.eq_nil_of_length_eq_zero (by omega)
  have hchildren : t.children = [] := by
    refine List.eq_nil_iff_forall_not_mem.2 fun e he => ?_
    have hle : e.2.headCount ≤ Keyed.total headCount t.children := Keyed.le_total_of_mem he
    have hlive := h.live e he
    rw [not_isLive_iff.2 ⟨isEmpty_iff.1 (hempty e he), by omega⟩] at hlive
    exact Bool.false_ne_true hlive
  obtain ⟨base, children, bases, heads, observers⟩ := t
  obtain rfl : base = none := hbase
  obtain rfl : children = [] := hchildren
  obtain rfl : observers = [] := hobservers
  obtain rfl : bases = 0 := hbases
  obtain rfl : heads = 0 := hheads
  rfl

end Valid

/-! ## looking along every path -/

/-- The child along a dimension, empty where there is none. -/
def along (t : LiveTree) (d : Dimension) : LiveTree := (t.child? d).getD empty

/-- The node at the end of a path, empty where there is none. -/
def nodeAt (t : LiveTree) : Path → LiveTree
  | [] => t
  | d :: p => (t.along d).nodeAt p

/-- Two equal keys lead to the same child, whatever their spelling. -/
theorem along_congr {d e : Dimension} (h : d == e) (t : LiveTree) : t.along d = t.along e := by
  rw [along, along, child?, child?, Keyed.get?_congr h]

@[simp] theorem along_empty (d : Dimension) : empty.along d = empty := rfl

@[simp] theorem nodeAt_empty (p : Path) : empty.nodeAt p = empty := by
  induction p with
  | nil => rfl
  | cons d p ih => exact ih

/-- Reading a node that is not stored gives the empty tree. -/
theorem nodeAt_eq_getD (t : LiveTree) (p : Path) : t.nodeAt p = (t.get? p).getD empty := by
  induction p generalizing t with
  | nil => rfl
  | cons d p ih =>
    rw [nodeAt, get?, along]
    cases t.child? d with
    | none => exact nodeAt_empty p
    | some k => exact ih k

/-- Each child of a valid tree is valid, stored or not. -/
theorem Valid.along {t : LiveTree} (h : t.Valid) (d : Dimension) : (t.along d).Valid := by
  rw [LiveTree.along]
  cases hk : t.child? d with
  | none => exact valid_empty
  | some k =>
    obtain ⟨e, -, hmem⟩ := Keyed.mem_of_get? hk
    exact h.inner _ hmem

/-- Every node of a valid tree is valid. -/
theorem Valid.nodeAt {t : LiveTree} (h : t.Valid) (p : Path) : (t.nodeAt p).Valid := by
  induction p generalizing t with
  | nil => exact h
  | cons d p ih => exact ih (h.along d)

/-- Every stored node of a valid tree is valid. -/
theorem Valid.get? {t k : LiveTree} {p : Path} (h : t.Valid) (hk : t.get? p = some k) :
    k.Valid := by
  have hnode := h.nodeAt p
  rwa [nodeAt_eq_getD, hk] at hnode

/-- An empty tree holds nothing along any dimension. -/
theorem Valid.isEmpty_along {t : LiveTree} (h : t.Valid) (ht : t.isEmpty) (d : Dimension) :
    (t.along d).isEmpty := by
  rw [LiveTree.along]
  cases hk : t.child? d with
  | none => rfl
  | some k =>
    obtain ⟨e, -, hmem⟩ := Keyed.mem_of_get? hk
    exact (h.empty_inner ht).2 _ hmem

/-- An empty tree holds no base at any node. -/
theorem Valid.isEmpty_nodeAt {t : LiveTree} (h : t.Valid) (ht : t.isEmpty) (p : Path) :
    (t.nodeAt p).isEmpty := by
  induction p generalizing t with
  | nil => exact ht
  | cons d p ih => exact ih (h.along d) (h.isEmpty_along ht d)

/-- What the child along a dimension counts for in its parent. -/
theorem count_along (weight : LiveTree → Nat) (hweight : weight empty = 0) (t : LiveTree)
    (d : Dimension) : weight (t.along d) = (Keyed.get? d t.children).elim 0 weight := by
  rw [along, child?]
  cases Keyed.get? d t.children with
  | none => exact hweight
  | some k => rfl

/-- Where nobody is counted nobody is to be found. -/
theorem Valid.observers_nodeAt_eq_nil {t : LiveTree} (h : t.Valid) (ht : t.headCount = 0)
    (p : Path) : (t.nodeAt p).observers = [] := by
  have hheads := h.heads
  rw [totalHeads_eq] at hheads
  induction p generalizing t with
  | nil => exact List.eq_nil_of_length_eq_zero (by rw [LiveTree.nodeAt]; omega)
  | cons d p ih =>
    have hle := Keyed.elim_get?_le_total h.sorted headCount d
    have hd := count_along headCount rfl t d
    refine ih (h.along d) (by omega) ?_
    rw [← totalHeads_eq]
    exact (h.along d).heads

/-! ## editing a node -/

/-- Setting the base keeps a tree valid: the count follows whether one was there. -/
theorem Valid.putBase {t : LiveTree} (h : t.Valid) (v : Scalar) : (t.putBase v).Valid := by
  refine .intro h.sorted ?_ h.heads h.live h.inner
  have hbases := h.bases
  cases hb : t.base with
  | none => simp_all [LiveTree.putBase]; omega
  | some w => simp_all [LiveTree.putBase]

/-- Clearing the base keeps a tree valid. -/
theorem Valid.takeBase {t : LiveTree} (h : t.Valid) : t.takeBase.Valid := by
  refine .intro h.sorted ?_ h.heads h.live h.inner
  have hbases := h.bases
  cases hb : t.base with
  | none => simp_all [LiveTree.takeBase]
  | some w => simp_all [LiveTree.takeBase]

/-- Live and valid children in order keep a tree valid: the counts are taken anew. -/
theorem Valid.withChildren {t : LiveTree} (h : t.Valid) {l : List (Dimension × LiveTree)}
    (sorted : Keyed.Sorted l) (live : ∀ e ∈ l, e.2.isLive) (inner : ∀ e ∈ l, e.2.Valid) :
    (t.withChildren l).Valid := by
  have hbases := h.bases
  have hheads := h.heads
  refine .intro sorted ?_ ?_ live inner
  · show t.baseCount - totalBases t.children + totalBases l = t.base.toList.length + totalBases l
    omega
  · show t.headCount - totalHeads t.children + totalHeads l = t.observers.length + totalHeads l
    omega

/-! ### one child -/

section withChild

variable {α : Type} {d : Dimension} {f : LiveTree → LiveTree × α} {t : LiveTree}

/-- A child as it is stored: not at all if it is not live. -/
def stored (t : LiveTree) : Option LiveTree := if t.isLive then some t else none

/-- What is worth storing is the tree itself, when it is live. -/
theorem of_mem_stored {t k : LiveTree} (h : k ∈ t.stored) : k = t ∧ t.isLive := by
  rw [stored] at h
  split at h
  · next hlive => exact ⟨(Option.some.inj h).symm, hlive⟩
  · cases h

/-- What is not stored must count for nothing. -/
theorem elim_stored {count : LiveTree → Nat} (hcount : t.isLive = false → count t = 0) :
    t.stored.elim 0 count = count t := by
  rw [stored]
  split
  · rfl
  · next hlive => exact (hcount (Bool.eq_false_iff.2 hlive)).symm

/-- Leaving a dead tree out loses nothing: it is read back as the empty one. -/
theorem Valid.getD_stored (h : t.Valid) : t.stored.getD empty = t := by
  rw [stored]
  split
  · rfl
  · next hlive => exact (h.eq_empty (Bool.eq_false_iff.2 hlive)).symm

/-- Changing a child is storing it under its key, or dropping the key of one that died. -/
theorem children_withChild (d : Dimension) (f : LiveTree → LiveTree × α) (t : LiveTree) :
    (t.withChild d f).1.children = Keyed.store d (f (t.along d)).1.stored t.children := by
  show (if (f (t.along d)).1.isLive then _ else _) = _
  rw [stored]
  split <;> rfl

/-- An edit of a child is seen along its dimension and nowhere else. -/
theorem along_withChild (hf : (f (t.along d)).1.Valid) (e : Dimension) :
    (t.withChild d f).1.along e = if e == d then (f (t.along d)).1 else t.along e := by
  rw [along, child?, children_withChild, Keyed.get?_store]
  split
  · exact hf.getD_stored
  · rfl

/-- An edit of a child changes a count by the difference of what that child counts for. -/
theorem total_withChild (h : t.Valid) {count : LiveTree → Nat} (hzero : count empty = 0)
    (hcount : ∀ k : LiveTree, k.isLive = false → count k = 0) :
    Keyed.total count (t.withChild d f).1.children =
      Keyed.total count t.children - count (t.along d) + count (f (t.along d)).1 := by
  have htotal := Keyed.total_store h.sorted count d (f (t.along d)).1.stored
  have hle := Keyed.elim_get?_le_total h.sorted count d
  rw [elim_stored (hcount _)] at htotal
  rw [children_withChild, count_along count hzero]
  omega

/-- A step that keeps a child valid keeps the parent valid. -/
theorem Valid.withChild (h : t.Valid) (hf : (f (t.along d)).1.Valid) :
    (t.withChild d f).1.Valid := by
  have hchildren := children_withChild d f t
  refine .intro ?_ ?_ ?_ ?_ ?_
  · rw [hchildren]
    exact h.sorted.store d _
  · have hbases := h.bases
    have hle := Keyed.elim_get?_le_total h.sorted baseCount d
    have hnew : (t.withChild d f).1.baseCount =
        t.baseCount - (t.along d).baseCount + (f (t.along d)).1.baseCount := rfl
    have hbase : (t.withChild d f).1.base = t.base := rfl
    rw [← count_along baseCount rfl] at hle
    rw [totalBases_eq] at hbases
    rw [hnew, hbase, totalBases_eq,
      total_withChild h rfl fun k hk => (not_isLive_iff.1 hk).1]
    omega
  · have hheads := h.heads
    have hle := Keyed.elim_get?_le_total h.sorted headCount d
    have hnew : (t.withChild d f).1.headCount =
        t.headCount - (t.along d).headCount + (f (t.along d)).1.headCount := rfl
    have hobservers : (t.withChild d f).1.observers = t.observers := rfl
    rw [← count_along headCount rfl] at hle
    rw [totalHeads_eq] at hheads
    rw [hnew, hobservers, totalHeads_eq,
      total_withChild h rfl fun k hk => (not_isLive_iff.1 hk).2]
    omega
  · rw [hchildren]
    refine Keyed.forall_mem_store (P := (isLive · = true)) h.live fun k hk => ?_
    obtain ⟨rfl, hlive⟩ := of_mem_stored hk
    exact hlive
  · rw [hchildren]
    refine Keyed.forall_mem_store (P := Valid) h.inner fun k hk => ?_
    obtain ⟨rfl, _⟩ := of_mem_stored hk
    exact hf

end withChild

/-! ### the end of a path -/

/-- A step that keeps every tree valid does so at the end of any path. -/
theorem Valid.editAt {α : Type} {f : LiveTree → LiveTree × α}
    (hf : ∀ k : LiveTree, k.Valid → (f k).1.Valid) {t : LiveTree} (h : t.Valid) (p : Path) :
    (t.editAt f p).1.Valid := by
  induction p generalizing t with
  | nil => exact hf t h
  | cons d p ih => exact h.withChild (ih (h.along d))

/-- A step at the end of a path has the value that it has at the node there. -/
theorem snd_editAt {α : Type} (f : LiveTree → LiveTree × α) (p : Path) (t : LiveTree) :
    (t.editAt f p).2 = (f (t.nodeAt p)).2 := by
  induction p generalizing t with
  | nil => rfl
  | cons d p ih => exact ih (t.along d)

/-- An edit at the end of a path is seen there and below.  Elsewhere a node looks the same
to whoever does not look at its children and counts. -/
theorem look_nodeAt_editAt {α β : Type} (look : LiveTree → β)
    (hlook : ∀ d (f : LiveTree → LiveTree × α) t, look (t.withChild d f).1 = look t)
    {f : LiveTree → LiveTree × α} (hf : ∀ k : LiveTree, k.Valid → (f k).1.Valid)
    {t : LiveTree} (h : t.Valid) (p q : Path) :
    look ((t.editAt f p).1.nodeAt q) =
      (Path.after? p q).elim (look (t.nodeAt q)) fun r => look ((f (t.nodeAt p)).1.nodeAt r) := by
  induction p generalizing t q with
  | nil => rfl
  | cons d p ih =>
    cases q with
    | nil => exact hlook d _ t
    | cons e q =>
      rw [nodeAt, editAt, along_withChild ((h.along d).editAt hf p), Path.after?,
        BEq.comm (a := d)]
      by_cases he : e == d
      · rw [if_pos he, if_pos he, ih (h.along d), nodeAt, nodeAt, along_congr he]
      · rw [if_neg he, if_neg he, nodeAt]
        rfl

/-- The node at a path below `p` is found from the node at `p` by what is left of the path. -/
theorem nodeAt_of_after? {p q r : Path} (h : Path.after? p q = some r) (t : LiveTree) :
    t.nodeAt q = (t.nodeAt p).nodeAt r := by
  induction p generalizing t q with
  | nil =>
    obtain rfl : q = r := Option.some.inj h
    rfl
  | cons d p ih =>
    cases q with
    | nil => cases h
    | cons e q =>
      rw [Path.after?] at h
      split at h
      · next hde => rw [nodeAt, nodeAt, along_congr hde, ih h]
      · cases h

end Intension.LiveTree
