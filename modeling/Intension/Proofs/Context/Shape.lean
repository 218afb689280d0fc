import Intension.Context.Basic
import Intension.Proofs.Keyed
import Intension.Proofs.Path

/-!
# Intension.Proofs.Context.Shape

The shape that contexts keep (`Context.Valid`): children sorted, counts exact,
no stored child empty.  Nodes are looked at as if every path led to one, an
absent node being an empty context (`along`, `nodeAt`); through that view each
edit has one equation, and each edit keeps the shape.
-/

namespace Intension.Context

open Std

/-! ## induction -/

mutual

/-- Induction over a context: from the children of a node to the node. -/
@[elab_as_elim]
theorem children_induction {motive : Context → Prop}
    (step : ∀ c : Context, (∀ e ∈ c.children, motive e.2) → motive c) : ∀ c, motive c
  | ⟨base, children, count⟩ => step ⟨base, children, count⟩ (forall_children step children)

/-- The step of an induction on contexts carried over a list of stored children, for the mutual
recursion a nested type asks for. -/
theorem forall_children {motive : Context → Prop}
    (step : ∀ c : Context, (∀ e ∈ c.children, motive e.2) → motive c) :
    ∀ (children : List (Dimension × Context)), ∀ e ∈ children, motive e.2
  | [], _, he => nomatch he
  | (d, c) :: rest, e, he => by
    obtain rfl | he := List.mem_cons.1 he
    · exact children_induction step c
    · exact forall_children step rest e he

end

/-! ## the shape -/

/-- Children are sorted and not empty, and the count is that of the bases below, at every
node. -/
inductive Valid : Context → Prop
  | intro {c : Context} (sorted : Keyed.Sorted c.children)
      (count : c.baseCount = c.base.toList.length + totalBases c.children)
      (nonempty : ∀ e ∈ c.children, e.2.isEmpty = false)
      (inner : ∀ e ∈ c.children, Valid e.2) : Valid c

/-- The count kept over a list of children is the sum of the children's own counts. -/
theorem totalBases_eq (l : List (Dimension × Context)) :
    totalBases l = Keyed.total baseCount l := rfl

/-- A context is empty exactly if it counts no base value. -/
theorem isEmpty_iff {c : Context} : c.isEmpty ↔ c.baseCount = 0 := by
  simp [isEmpty]

@[simp] theorem isEmpty_empty : empty.isEmpty = true := rfl

/-- The empty context keeps the rules of its representation. -/
theorem valid_empty : empty.Valid :=
  .intro Keyed.sorted_nil rfl (fun _ he => nomatch he) (fun _ he => nomatch he)

/-- A context made of one base value keeps the rules of its representation. -/
theorem valid_ofBase (v : Scalar) : (ofBase v).Valid :=
  .intro Keyed.sorted_nil rfl (fun _ he => nomatch he) (fun _ he => nomatch he)

namespace Valid

variable {c : Context}

/-- The children of a valid context stand in strictly ascending order of their keys. -/
theorem sorted (h : c.Valid) : Keyed.Sorted c.children := by cases h; assumption

/-- The count a valid context stores is its own base value and those of its children. -/
theorem count (h : c.Valid) :
    c.baseCount = c.base.toList.length + totalBases c.children := by cases h; assumption

/-- No child a valid context stores is empty. -/
theorem nonempty (h : c.Valid) : ∀ e ∈ c.children, e.2.isEmpty = false := by
  cases h; assumption

/-- The children of a valid context are valid. -/
theorem inner (h : c.Valid) : ∀ e ∈ c.children, e.2.Valid := by cases h; assumption

/-- The count is no part of what is held. -/
theorem ext {a b : Context} (ha : a.Valid) (hb : b.Valid) (hbase : a.base = b.base)
    (hchildren : a.children = b.children) : a = b := by
  have hcount : a.baseCount = b.baseCount := by rw [ha.count, hb.count, hbase, hchildren]
  cases a
  cases b
  simp_all

/-- Only one context of this shape is empty. -/
theorem eq_empty (h : c.Valid) (hc : c.isEmpty) : c = empty := by
  obtain ⟨base, children, count⟩ := c
  obtain rfl : count = 0 := isEmpty_iff.1 hc
  have hcount : 0 = base.toList.length + Keyed.total baseCount children := h.count
  have hbase : base = none := by
    cases base with
    | none => rfl
    | some v => simp at hcount; omega
  have hchildren : children = [] := by
    refine List.eq_nil_iff_forall_not_mem.2 fun e he => ?_
    have hle : e.2.baseCount ≤ Keyed.total baseCount children := Keyed.le_total_of_mem he
    have hne := h.nonempty e he
    simp only [isEmpty, beq_eq_false_iff_ne] at hne
    omega
  rw [hbase, hchildren]
  rfl

end Valid

/-! ## looking along every path -/

/-- The child along a dimension, empty where there is none. -/
def along (c : Context) (d : Dimension) : Context := (c.child? d).getD empty

/-- The node at the end of a path, empty where there is none. -/
def nodeAt (c : Context) : Path → Context
  | [] => c
  | d :: p => (c.along d).nodeAt p

/-- Two equal keys lead to the same child, whatever their spelling. -/
theorem along_congr {d e : Dimension} (h : d == e) (c : Context) : c.along d = c.along e := by
  rw [along, along, child?, child?, Keyed.get?_congr h]

/-- Every child of the empty context reads as empty. -/
@[simp] theorem along_empty (d : Dimension) : empty.along d = empty := rfl

/-- Every node of the empty context reads as empty. -/
@[simp] theorem nodeAt_empty (p : Path) : empty.nodeAt p = empty := by
  induction p with
  | nil => rfl
  | cons d p ih => exact ih

/-- Walking a joined path is walking its two parts one after the other. -/
theorem nodeAt_append (c : Context) (p q : Path) : c.nodeAt (p ++ q) = (c.nodeAt p).nodeAt q := by
  induction p generalizing c with
  | nil => rfl
  | cons d p ih => exact ih _

/-- The node at a path below `p` is found from the node at `p` by what is left of the path. -/
theorem nodeAt_of_after? {p q r : Path} (h : Path.after? p q = some r) (c : Context) :
    c.nodeAt q = (c.nodeAt p).nodeAt r := by
  induction p generalizing c q with
  | nil =>
    obtain rfl : q = r := Option.some.inj h
    rfl
  | cons d p ih =>
    cases q with
    | nil => cases h
    | cons e q =>
      rw [Path.after?] at h
      split at h
      · next hde => rw [nodeAt, nodeAt, along_congr hde, ih h]
      · cases h

/-- Reading a node that is not stored gives the empty context. -/
theorem nodeAt_eq_getD (c : Context) (p : Path) : c.nodeAt p = (c.get? p).getD empty := by
  induction p generalizing c with
  | nil => rfl
  | cons d p ih =>
    rw [nodeAt, get?, along]
    cases c.child? d with
    | none => exact nodeAt_empty p
    | some k => exact ih k

/-- The base at the end of a path is that of the node there. -/
theorem baseAt_eq_base_nodeAt (c : Context) (p : Path) : c.baseAt p = (c.nodeAt p).base := by
  rw [baseAt, nodeAt_eq_getD]
  cases c.get? p <;> rfl

@[simp] theorem baseAt_nil (c : Context) : c.baseAt [] = c.base := rfl

/-- Equal paths read the same base value, whatever their spelling. -/
theorem baseAt_congr {p q : Path} (h : p == q) (c : Context) : c.baseAt p = c.baseAt q := by
  rw [baseAt_eq_base_nodeAt, baseAt_eq_base_nodeAt,
    nodeAt_of_after? (Path.after?_eq_some_nil_iff.2 h)]
  rfl

/-- The base value below a key is read in the child under this key. -/
theorem baseAt_cons (c : Context) (d : Dimension) (p : Path) :
    c.baseAt (d :: p) = (c.along d).baseAt p := by
  rw [baseAt_eq_base_nodeAt, baseAt_eq_base_nodeAt, nodeAt]

/-- The base value at a joined path is read at the second part, from the node at the first. -/
theorem baseAt_append (c : Context) (p q : Path) : c.baseAt (p ++ q) = (c.nodeAt p).baseAt q := by
  rw [baseAt_eq_base_nodeAt, baseAt_eq_base_nodeAt, nodeAt_append]

/-- The empty context has no base value at any path. -/
@[simp] theorem baseAt_empty (p : Path) : empty.baseAt p = none := by
  rw [baseAt_eq_base_nodeAt, nodeAt_empty]
  rfl

/-- A stored child of a valid context is valid and not empty. -/
theorem Valid.child? {c k : Context} {d : Dimension} (h : c.Valid) (hk : c.child? d = some k) :
    k.Valid ∧ k.isEmpty = false := by
  obtain ⟨e, -, hmem⟩ := Keyed.mem_of_get? hk
  exact ⟨h.inner _ hmem, h.nonempty _ hmem⟩

/-- Each child of a valid context is valid, stored or not. -/
theorem Valid.along {c : Context} (h : c.Valid) (d : Dimension) : (c.along d).Valid := by
  rw [Context.along]
  cases hk : c.child? d with
  | none => exact valid_empty
  | some k => exact (h.child? hk).1

/-- Every node of a valid context is valid. -/
theorem Valid.nodeAt {c : Context} (h : c.Valid) (p : Path) : (c.nodeAt p).Valid := by
  induction p generalizing c with
  | nil => exact h
  | cons d p ih => exact ih (h.along d)

/-- Every stored node of a valid context is valid. -/
theorem Valid.get? {c k : Context} {p : Path} (h : c.Valid) (hk : c.get? p = some k) :
    k.Valid := by
  have hnode := h.nodeAt p
  rwa [nodeAt_eq_getD, hk] at hnode

/-- What the child along a dimension counts for in its parent. -/
theorem baseCount_along (c : Context) (d : Dimension) :
    (c.along d).baseCount = (c.child? d).elim 0 baseCount := by
  rw [Context.along]
  cases c.child? d <;> rfl

/-! ## editing a node -/

@[simp] theorem base_putBase (v : Scalar) (c : Context) : (c.putBase v).base = some v := rfl

@[simp] theorem along_putBase (v : Scalar) (c : Context) (d : Dimension) :
    (c.putBase v).along d = c.along d := rfl

@[simp] theorem base_takeBase (c : Context) : c.takeBase.base = none := rfl

@[simp] theorem along_takeBase (c : Context) (d : Dimension) :
    c.takeBase.along d = c.along d := rfl

/-- Setting the base value keeps a context valid: the count follows whether one was there. -/
theorem Valid.putBase {c : Context} (h : c.Valid) (v : Scalar) : (c.putBase v).Valid := by
  refine .intro h.sorted ?_ h.nonempty h.inner
  have hcount := h.count
  cases hb : c.base with
  | none => simp_all [Context.putBase]; omega
  | some w => simp_all [Context.putBase]

/-- Clearing the base value keeps a context valid. -/
theorem Valid.takeBase {c : Context} (h : c.Valid) : c.takeBase.Valid := by
  refine .intro h.sorted ?_ h.nonempty h.inner
  have hcount := h.count
  cases hb : c.base with
  | none => simp_all [Context.takeBase]
  | some w => simp_all [Context.takeBase]

/-! ### one child -/

@[simp] theorem base_withChild (d : Dimension) (f : Context → Context) (c : Context) :
    (c.withChild d f).base = c.base := rfl

/-- A child as it is stored: not at all if it is empty. -/
def stored (c : Context) : Option Context := if c.isEmpty then none else some c

/-- What is worth storing is the context itself, when it is not empty. -/
theorem of_mem_stored {c k : Context} (h : k ∈ c.stored) : k = c ∧ c.isEmpty = false := by
  rw [stored] at h
  split at h
  · cases h
  · next hne => exact ⟨(Option.some.inj h).symm, Bool.eq_false_iff.2 hne⟩

/-- A context that is left out for being empty counts nothing. -/
theorem elim_stored (c : Context) : c.stored.elim 0 baseCount = c.baseCount := by
  rw [stored]
  split
  · next hempty => exact (isEmpty_iff.1 hempty).symm
  · rfl

/-- Leaving an empty context out loses nothing: it is read back as the empty one. -/
theorem Valid.getD_stored {c : Context} (h : c.Valid) : c.stored.getD empty = c := by
  rw [stored]
  split
  · next hempty => exact (h.eq_empty hempty).symm
  · rfl

/-- Editing a child is storing the edited child under its key, or dropping the key when the edit
emptied it. -/
theorem children_withChild (d : Dimension) (f : Context → Context) (c : Context) :
    (c.withChild d f).children = Keyed.store d (f (c.along d)).stored c.children := by
  show (if (f (c.along d)).isEmpty then _ else _) = _
  rw [stored]
  split <;> rfl

/-- An edit of a child is seen along its dimension and nowhere else. -/
theorem along_withChild {d : Dimension} {f : Context → Context} {c : Context}
    (hf : (f (c.along d)).Valid) (e : Dimension) :
    (c.withChild d f).along e = if e == d then f (c.along d) else c.along e := by
  rw [along, child?, children_withChild, Keyed.get?_store]
  split
  · exact hf.getD_stored
  · rfl

/-- An edit of one child that keeps this child valid keeps the parent valid. -/
theorem Valid.withChild {c : Context} (h : c.Valid) {d : Dimension} {f : Context → Context}
    (hf : (f (c.along d)).Valid) : (c.withChild d f).Valid := by
  have hchildren := children_withChild d f c
  refine .intro ?_ ?_ ?_ ?_
  · rw [hchildren]
    exact h.sorted.store d _
  · have hcount := h.count
    have hold : (c.along d).baseCount = (Keyed.get? d c.children).elim 0 baseCount :=
      baseCount_along c d
    have hnew : (c.withChild d f).baseCount =
        c.baseCount - (c.along d).baseCount + (f (c.along d)).baseCount := rfl
    have htotal := Keyed.total_store h.sorted baseCount d (f (c.along d)).stored
    have hle := Keyed.elim_get?_le_total h.sorted baseCount d
    rw [elim_stored] at htotal
    rw [totalBases_eq] at hcount
    rw [hnew, hchildren, totalBases_eq, base_withChild]
    omega
  · rw [hchildren]
    refine Keyed.forall_mem_store (P := (isEmpty · = false)) h.nonempty fun k hk => ?_
    obtain ⟨rfl, hne⟩ := of_mem_stored hk
    exact hne
  · rw [hchildren]
    refine Keyed.forall_mem_store (P := Valid) h.inner fun k hk => ?_
    obtain ⟨rfl, _⟩ := of_mem_stored hk
    exact hf

/-! ### a choice of children -/

@[simp] theorem base_retain (keep : Dimension → Bool) (c : Context) :
    (c.retain keep).base = c.base := by
  simp [retain]

theorem children_retain (keep : Dimension → Bool) (c : Context) :
    (c.retain keep).children = c.children.filter (keep ·.1) := by
  simp [retain, List.partition_eq_filter_filter]

/-- Keeping some of the children takes the counts of the others off the total. -/
theorem baseCount_retain (keep : Dimension → Bool) (c : Context) :
    (c.retain keep).baseCount =
      c.baseCount - totalBases (c.children.filter fun e => !keep e.1) := by
  simp [retain, List.partition_eq_filter_filter, Function.comp_def]

/-- A child that is kept reads as before, one that is dropped reads as empty. -/
theorem along_retain {keep : Dimension → Bool} (hkeep : ∀ d e, d == e → keep d = keep e)
    (c : Context) (d : Dimension) :
    (c.retain keep).along d = if keep d then c.along d else empty := by
  rw [along, child?, children_retain, Keyed.get?_filter hkeep]
  split <;> rfl

/-- Keeping some of the children keeps a context valid. -/
theorem Valid.retain {c : Context} (h : c.Valid) (keep : Dimension → Bool) :
    (c.retain keep).Valid := by
  have hcount := h.count
  have htotal := Keyed.total_filter_add baseCount (keep ·.1) c.children
  refine .intro ?_ ?_ ?_ ?_
  · rw [children_retain]
    exact h.sorted.filter _
  · rw [baseCount_retain, children_retain, base_retain]
    simp only [totalBases_eq] at hcount ⊢
    omega
  · rw [children_retain]
    exact fun e he => h.nonempty e (List.mem_filter.1 he).1
  · rw [children_retain]
    exact fun e he => h.inner e (List.mem_filter.1 he).1

/-! ### the end of a path -/

/-- An edit that keeps every context valid does so wherever it is made. -/
theorem Valid.editAt {f : Context → Context} (hf : ∀ k : Context, k.Valid → (f k).Valid)
    {c : Context} (h : c.Valid) (p : Path) : (c.editAt f p).Valid := by
  induction p generalizing c with
  | nil => exact hf c h
  | cons d p ih => exact h.withChild (ih (h.along d))

/-- An edit at the end of a path is seen there and below, and above as an edit further down.
Elsewhere the nodes stay as they are. -/
theorem nodeAt_editAt {f : Context → Context} (hf : ∀ k : Context, k.Valid → (f k).Valid)
    {c : Context} (h : c.Valid) (p q : Path) : (c.editAt f p).nodeAt q =
      (Path.after? p q).elim
        ((Path.after? q p).elim (c.nodeAt q) fun r => (c.nodeAt q).editAt f r)
        (f (c.nodeAt p)).nodeAt := by
  induction p generalizing c q with
  | nil => rfl
  | cons d p ih =>
    cases q with
    | nil => rfl
    | cons e q =>
      rw [nodeAt, editAt, along_withChild ((h.along d).editAt hf p), Path.after?, Path.after?,
        BEq.comm (a := d)]
      by_cases he : e == d
      · rw [if_pos he, if_pos he, if_pos he, ih (h.along d), nodeAt, nodeAt, along_congr he]
      · rw [if_neg he, if_neg he, if_neg he]
        rfl

/-- An edit at the end of a path is seen in the bases there and below, and nowhere else. -/
theorem baseAt_editAt {f : Context → Context} (hf : ∀ k : Context, k.Valid → (f k).Valid)
    {c : Context} (h : c.Valid) (p q : Path) : (c.editAt f p).baseAt q =
      (Path.after? p q).elim (c.baseAt q) ((f (c.nodeAt p)).baseAt ·) := by
  rw [baseAt_eq_base_nodeAt, nodeAt_editAt hf h]
  cases hp : Path.after? p q with
  | some r => exact (baseAt_eq_base_nodeAt _ r).symm
  | none =>
    rw [Option.elim_none, Option.elim_none, baseAt_eq_base_nodeAt]
    cases hq : Path.after? q p with
    | none => rfl
    | some r =>
      cases r with
      | cons d r => rfl
      | nil =>
        have hback := Path.after?_eq_some_nil_iff.2 (BEq.symm (Path.after?_eq_some_nil_iff.1 hq))
        rw [hback] at hp
        cases hp

/-- Replacing a whole child by a valid context keeps the parent valid. -/
theorem Valid.withDim {c k : Context} (h : c.Valid) (hk : k.Valid) (d : Dimension) :
    (Context.withDim d k c).Valid := h.withChild hk

/-- A base value that is accepted leaves the context valid. -/
theorem Valid.assignBase {c k : Context} {v : Scalar} (h : c.Valid)
    (hk : c.assignBase v = .ok k) : k.Valid := by
  rw [Context.assignBase] at hk
  cases hbase : c.base with
  | none =>
    rw [hbase] at hk
    cases hk
    exact h.putBase v
  | some held =>
    rw [hbase] at hk
    dsimp only at hk
    cases hw : held.assign v with
    | error m =>
      rw [hw] at hk
      cases hk
    | ok w =>
      rw [hw] at hk
      cases hk
      refine .intro h.sorted ?_ h.nonempty h.inner
      have hcount := h.count
      rw [hbase] at hcount
      exact hcount

end Intension.Context
