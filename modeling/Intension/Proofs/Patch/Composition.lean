import Intension.Patch.Compose
import Intension.Proofs.Patch.Effect

/-!
# Intension.Proofs.Patch.Composition

Composition, path by path: the head of a composed patch at a path is that of
the first followed by that of the second (`headAt_composeInto`).  Heads
followed by one another act one after the other (`Head.act_followedBy`), and
so does a composed patch.
-/

namespace Intension.Patch

open Std

/-! ## heads -/

/-- One head and then another, as a single one. -/
def Head.followedBy (h k : Head) : Head where
  base := k.base.or (if k.clearsBase then none else h.base)
  clearsBase := k.clearsBase || (h.clearsBase && k.base.isNone)
  clearsDims := h.clearsDims || k.clearsDims

/-- A head followed by another does what the two do one after the other. -/
theorem Head.act_followedBy (h k : Head) (old : Option Scalar) :
    (h.followedBy k).act old = k.act (h.act old) := by
  obtain ⟨hbase, hclears, _⟩ := h
  obtain ⟨kbase, kclears, _⟩ := k
  cases hbase <;> cases kbase <;> cases hclears <;> cases kclears <;> rfl

/-- What an absent child says leaves the head before it as it is, outside a clearing region. -/
theorem Head.followedBy_noop (h : Head) : h.followedBy noop.head = h := by
  obtain ⟨base, clearsBase, clearsDims⟩ := h
  simp [followedBy, head, noop]

/-- A head with both marks covers the one before it. -/
theorem Head.followedBy_of_clears {h k : Head} (hbase : k.clearsBase) (hdims : k.clearsDims) :
    h.followedBy k = k := by
  obtain ⟨base, clearsBase, clearsDims⟩ := k
  subst hbase hdims
  simp [followedBy]

/-- What an absent child says in a clearing region covers the head before it. -/
theorem Head.followedBy_clearAll (h : Head) : h.followedBy clearAll.head = clearAll.head :=
  Head.followedBy_of_clears rfl rfl

/-! ## one node -/

/-- The node with the marks and the base of `q` folded into it. -/
def composeMarks (q p : Patch) : Patch :=
  let p := if q.clearsBase then p.markBase.takeBase else p
  let p := match q.base with
    | some v => if q.clearsBase then p.putBase v else (p.putBase v).unmarkBase
    | none => p
  if q.clearsDims then p.markDims else p

/-- The node after the head of `q`, the children that `q` lists still to be composed. -/
def composeHead (q : Patch) (qForced : Bool) (p : Patch) : Patch :=
  if q.clearsDims || qForced then (q.composeMarks p).retain (Keyed.contains · q.children)
  else q.composeMarks p

/-- Composing: the head of the second patch, and then its children in turn. -/
theorem composeInto_eq (q : Patch) (pForced qForced : Bool) (p : Patch) :
    composeInto q pForced qForced p =
      composeChildren q.children (p.clearsDims || pForced) (q.clearsDims || qForced)
        (q.composeHead qForced p) := by
  cases q
  rw [composeInto.eq_def]
  rfl

theorem head_composeMarks (q p : Patch) :
    (q.composeMarks p).head = p.head.followedBy q.head := by
  obtain ⟨base, _, clearsBase, clearsDims, _, _⟩ := q
  cases base <;> cases clearsBase <;> cases clearsDims <;>
    simp [composeMarks, head, Head.followedBy, markBase, takeBase, putBase, unmarkBase, markDims]

theorem children_composeMarks (q p : Patch) : (q.composeMarks p).children = p.children := by
  unfold composeMarks
  cases q.base <;> cases q.clearsBase <;> cases q.clearsDims <;> rfl

theorem head_composeHead (q : Patch) (qForced : Bool) (p : Patch) :
    (q.composeHead qForced p).head = p.head.followedBy q.head := by
  rw [← head_composeMarks, composeHead]
  split
  · exact head_retain _ _
  · rfl

/-- The head of the second patch leaves, where it clears, only the children that the patch lists. -/
theorem children_composeHead (q : Patch) (qForced : Bool) (p : Patch) :
    (q.composeHead qForced p).children =
      if q.clearsDims || qForced then p.children.filter (Keyed.contains ·.1 q.children)
      else p.children := by
  rw [composeHead]
  split
  · rw [children_retain, children_composeMarks]
  · exact children_composeMarks q p

/-- A child of the first patch is left unless the second clears it away. -/
theorem child?_composeHead (q : Patch) (qForced : Bool) (p : Patch) (d : Dimension) :
    (q.composeHead qForced p).child? d =
      if (q.clearsDims || qForced) && !Keyed.contains d q.children then none
      else p.child? d := by
  have hkeep : ∀ d e : Dimension, d == e →
      Keyed.contains d q.children = Keyed.contains e q.children :=
    fun d e h => Keyed.contains_congr h _
  rw [child?, children_composeHead]
  by_cases hclears : q.clearsDims || qForced
  · rw [if_pos hclears, Keyed.get?_filter hkeep, hclears, Bool.true_and]
    cases Keyed.contains d q.children <;> rfl
  · rw [if_neg hclears]
    simp only [hclears, Bool.false_and]
    rfl

/-- The head of the second patch keeps the first in order. -/
theorem Ordered.composeHead {p : Patch} (hp : p.Ordered) (q : Patch) (qForced : Bool) :
    (q.composeHead qForced p).Ordered := by
  refine .intro ?_ ?_ <;> rw [children_composeHead]
  · split
    · exact hp.sorted.filter _
    · exact hp.sorted
  · split
    · exact fun e he => hp.inner e (List.mem_filter.1 he).1
    · exact hp.inner

/-! ## the listed children -/

/-- Composing the children: the first with its own region, and then the others. -/
theorem composeChildren_cons (e : Dimension × Patch) (l : List (Dimension × Patch))
    (pClears qClears : Bool) (p : Patch) : composeChildren (e :: l) pClears qClears p =
      composeChildren l pClears qClears
        (p.withChild e.1 pClears (pClears || qClears) (composeInto e.2 pClears qClears)) := by
  obtain ⟨d, k⟩ := e
  rw [composeChildren]

/-- Composing children leaves the head as it is. -/
theorem head_composeChildren (l : List (Dimension × Patch)) (pClears qClears : Bool)
    (p : Patch) : (composeChildren l pClears qClears p).head = p.head := by
  induction l generalizing p with
  | nil => rfl
  | cons e l ih => rw [composeChildren_cons, ih, head_withChild]

/-- Each listed child is composed with its own part, the others are left as they are. -/
theorem child?_composeChildren {l : List (Dimension × Patch)} (hsorted : Keyed.Sorted l)
    (pClears qClears : Bool) (p : Patch) (d : Dimension) :
    (composeChildren l pClears qClears p).child? d =
      (Keyed.get? d l).elim (p.child? d) fun k =>
        (composeInto k pClears qClears ((p.child? d).getD (absent pClears))).stored
          (pClears || qClears) := by
  induction l generalizing p with
  | nil => rfl
  | cons e l ih =>
    obtain ⟨hlt, hsorted⟩ := Keyed.sorted_cons.1 hsorted
    rw [composeChildren_cons, ih hsorted, child?_withChild, Keyed.get?_cons]
    by_cases hd : d == e.1
    · have hnone : Keyed.get? d l = none := Keyed.get?_eq_none_of_beq hd hlt
      rw [if_pos hd, if_pos hd, hnone, child?_congr hd]
      rfl
    · rw [if_neg hd, if_neg hd]

/-- Composing children keeps the patch in order. -/
theorem ordered_composeChildren {l : List (Dimension × Patch)} {pClears qClears : Bool}
    (hl : ∀ e ∈ l, ∀ p : Patch, p.Ordered → (composeInto e.2 pClears qClears p).Ordered)
    {p : Patch} (hp : p.Ordered) : (composeChildren l pClears qClears p).Ordered := by
  induction l generalizing p with
  | nil => exact hp
  | cons e l ih =>
    obtain ⟨he, hl⟩ := List.forall_mem_cons.1 hl
    rw [composeChildren_cons]
    exact ih hl (hp.withChild (he _ (hp.getD_child? _ _)))

/-- Composing ordered patches, in any regions, gives one in order, by induction on the second. -/
theorem Ordered.composeInto {q : Patch} (hq : q.Ordered) (pForced qForced : Bool) {p : Patch}
    (hp : p.Ordered) : (Patch.composeInto q pForced qForced p).Ordered := by
  induction hq generalizing pForced qForced p with
  | @intro q _ _ ih =>
    rw [composeInto_eq]
    exact ordered_composeChildren (fun e he p hp => ih e he _ _ hp) (hp.composeHead q qForced)

/-! ## whole patches -/

/-- The head of a composition is the first head followed by the second. -/
theorem head_composeInto (q : Patch) (pForced qForced : Bool) (p : Patch) :
    (composeInto q pForced qForced p).head = p.head.followedBy q.head := by
  rw [composeInto_eq, head_composeChildren, head_composeHead]

/-- The region below a composed patch is open as soon as one of the two opens it. -/
theorem clears_composeInto (q : Patch) (pForced qForced : Bool) (p : Patch) :
    ((composeInto q pForced qForced p).clearsDims || (pForced || qForced)) =
      ((p.clearsDims || pForced) || (q.clearsDims || qForced)) := by
  have h : (composeInto q pForced qForced p).clearsDims = (p.clearsDims || q.clearsDims) :=
    congrArg Head.clearsDims (head_composeInto q pForced qForced p)
  rw [h]
  cases p.clearsDims <;> cases q.clearsDims <;> cases pForced <;> rfl

/-- **A composed patch says at each path what the two say one after the other.** -/
theorem headAt_composeInto {q : Patch} (hq : q.Ordered) (pForced qForced : Bool) (p : Patch)
    (r : Path) : (composeInto q pForced qForced p).headAt (pForced || qForced) r =
      (p.headAt pForced r).followedBy (q.headAt qForced r) := by
  induction hq generalizing pForced qForced p r with
  | @intro q sorted inner ih =>
    cases r with
    | nil => exact head_composeInto q pForced qForced p
    | cons d r =>
      rw [headAt_cons, headAt_cons, headAt_cons, along, along, along, clears_composeInto,
        composeInto_eq, child?_composeChildren sorted, child?_composeHead, Keyed.contains, child?,
        child?]
      generalize (p.clearsDims || pForced) = pClears
      generalize (q.clearsDims || qForced) = qClears
      cases hq : Keyed.get? d q.children with
      | some k =>
        obtain ⟨e, -, he⟩ := Keyed.mem_of_get? hq
        simp only [Option.isSome_some, Bool.not_true, Bool.and_false, Bool.false_eq_true,
          if_false, Option.elim, Option.getD_some]
        rw [headAt_getD_stored]
        exact ih _ he _ _ _ r
      | none =>
        simp only [Option.isSome_none, Bool.not_false, Bool.and_true, Option.elim,
          Option.getD_none, headAt_absent]
        cases qClears with
        | true =>
          rw [if_pos rfl, Option.getD_none, Bool.or_true, headAt_absent]
          exact (Head.followedBy_clearAll _).symm
        | false =>
          rw [if_neg Bool.false_ne_true, Bool.or_false]
          exact (Head.followedBy_noop _).symm

/-- The composition of ordered patches is in order. -/
theorem Ordered.compose {p q : Patch} (hp : p.Ordered) (hq : q.Ordered) :
    (compose p q).Ordered := hq.composeInto false false hp

/-- Composing below a path keeps a patch in order. -/
theorem Ordered.composeAt {p q : Patch} (hp : p.Ordered) (hq : q.Ordered) (path : Path) :
    (composeAt path q p).Ordered :=
  hp.editAt (fun forced _ hk => hq.composeInto forced false hk) _ path

/-- At every path the head of a composition is the first head followed by the second. -/
theorem headAt_compose {q : Patch} (hq : q.Ordered) (p : Patch) (r : Path) :
    (compose p q).headAt false r = (p.headAt false r).followedBy (q.headAt false r) :=
  headAt_composeInto hq false false p r

end Intension.Patch
