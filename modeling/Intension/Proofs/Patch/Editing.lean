import Intension.Proofs.Patch.Composition
import Intension.Proofs.Path

/-!
# Intension.Proofs.Patch.Editing

Patches edited at the end of a path.  The way down makes absent nodes explicit and the
way back drops what has become redundant, and neither shows: an edit is seen at the end
of its path and below, as the edit of the node there, be it stored or not, and nowhere
else (`headAt_editAt`).  The node is edited in the region that it stands in
(`clearingAt`).
-/

namespace Intension.Patch

/-! ## the node at the end of a path -/

/-- Whether the node at the end of a path stands in a clearing region. -/
def clearingAt (forced : Bool) (p : Patch) : Path → Bool
  | [] => forced
  | d :: path => (p.along forced d).clearingAt (p.clearsDims || forced) path

/-- The node at the end of a path; an absent one as what it acts like. -/
def nodeAt (forced : Bool) (p : Patch) : Path → Patch
  | [] => p
  | d :: path => (p.along forced d).nodeAt (p.clearsDims || forced) path

/-- The base that a patch sets at the end of a path, if it does. -/
def baseAt (p : Patch) (path : Path) : Option Scalar := (p.get? path).bind (·.base)

/-- Equal keys lead to the same child, whatever their spelling. -/
theorem along_congr {d e : Dimension} (h : d == e) (forced : Bool) (p : Patch) :
    p.along forced d = p.along forced e := by
  rw [along, along, child?_congr h]

/-- The head at a path is that of the node there. -/
theorem headAt_eq_head_nodeAt (forced : Bool) (p : Patch) (path : Path) :
    p.headAt forced path = (p.nodeAt forced path).head := by
  induction path generalizing forced p with
  | nil => rfl
  | cons d path ih => exact ih _ _

/-- An absent node sets no base, whatever it acts like. -/
theorem base_headAt (forced : Bool) (p : Patch) (path : Path) :
    (p.headAt forced path).base = p.baseAt path := by
  induction path generalizing forced p with
  | nil => rfl
  | cons d path ih =>
    rw [headAt_cons, along, baseAt, get?]
    cases p.child? d with
    | some k => exact ih _ k
    | none =>
      rw [Option.getD_none, headAt_absent]
      cases p.clearsDims || forced <;> rfl

/-- What a patch says below the end of a path is said by the node there. -/
theorem headAt_of_after? {path q r : Path} (h : Path.after? path q = some r) (forced : Bool)
    (p : Patch) : p.headAt forced q =
      (p.nodeAt forced path).headAt (p.clearingAt forced path) r := by
  induction path generalizing forced p q with
  | nil =>
    obtain rfl : q = r := Option.some.inj h
    rfl
  | cons d path ih =>
    cases q with
    | nil => cases h
    | cons e q =>
      rw [Path.after?_cons] at h
      split at h
      · next hde =>
        rw [headAt_cons, nodeAt, clearingAt, ← along_congr hde]
        exact ih h _ _
      · cases h

/-! ## edits -/

/-- **An edit at the end of a path is seen there and below**, and nowhere else. -/
theorem headAt_editAt (f : Bool → Patch → Patch) (forced : Bool) (p : Patch) (path q : Path) :
    (p.editAt f forced path).headAt forced q = (Path.after? path q).elim (p.headAt forced q)
      ((f (p.clearingAt forced path) (p.nodeAt forced path)).headAt
        (p.clearingAt forced path)) := by
  induction path generalizing forced p q with
  | nil => rfl
  | cons d path ih =>
    cases q with
    | nil => exact head_withChild ..
    | cons e q =>
      rw [editAt, headAt_withChild_cons rfl, Path.after?_cons, BEq.comm (a := d)]
      by_cases he : e == d
      · rw [if_pos he, if_pos he, headAt_cons, along_congr he]
        exact ih _ _ q
      · rw [if_neg he, if_neg he]
        rfl

/-- An edit that leaves the children of a node alone is seen at that node only. -/
theorem headAt_editAt_of_children_eq {f : Patch → Patch}
    (hchildren : ∀ k, (f k).children = k.children)
    (hclears : ∀ k, (f k).clearsDims = k.clearsDims) (forced : Bool) (p : Patch)
    (path q : Path) : (p.editAt (fun _ k => f k) forced path).headAt forced q =
      if path == q then (f (p.nodeAt forced path)).head else p.headAt forced q := by
  have hbelow (forced : Bool) (k : Patch) (d : Dimension) (r : Path) :
      (f k).headAt forced (d :: r) = k.headAt forced (d :: r) := by
    rw [headAt_cons, headAt_cons, along, along, child?, child?, hchildren, hclears]
  rw [headAt_editAt]
  by_cases hq : path == q
  · rw [Path.after?_eq_some_nil_iff.2 hq, if_pos hq, Option.elim_some, headAt_nil]
  · rw [if_neg hq]
    cases hr : Path.after? path q with
    | none => rfl
    | some r =>
      cases r with
      | nil => exact absurd (Path.after?_eq_some_nil_iff.1 hr) hq
      | cons d r => rw [Option.elim_some, hbelow, headAt_of_after? hr]

/-- Where the mark to clear the base is set, the base is that of the patch, if any. -/
theorem act_head_markBase (p : Patch) (old : Option Scalar) :
    p.markBase.head.act old = p.base := by
  obtain ⟨base, _, _, _, _, _⟩ := p
  cases base <;> rfl

/-- Where that mark is reset, the base of the context shows through. -/
theorem act_head_unmarkBase (p : Patch) (old : Option Scalar) :
    p.unmarkBase.head.act old = p.base.or old := by
  obtain ⟨base, _, _, _, _, _⟩ := p
  cases base <;> rfl

/-- The mark to clear dimensions does not bear on the base of its own node. -/
theorem act_head_setDimsMark (mark forced : Bool) (p : Patch) (old : Option Scalar) :
    (p.setDimsMark mark forced).head.act old = p.head.act old := by
  rw [setDimsMark]
  split
  · rfl
  · rw [normalize_eq]
    rfl

/-- **A patch composed at the end of a path** says there and below what the two say one after
the other, and elsewhere what it said before. -/
theorem headAt_composeAt {q : Patch} (hq : q.Ordered) (p : Patch) (path r : Path) :
    (composeAt path q p).headAt false r = (Path.after? path r).elim (p.headAt false r)
      fun s => (p.headAt false r).followedBy (q.headAt false s) := by
  rw [composeAt, headAt_editAt]
  cases hs : Path.after? path r with
  | none => rfl
  | some s =>
    have hnode := headAt_composeInto hq (p.clearingAt false path) false (p.nodeAt false path) s
    rw [Bool.or_false, ← headAt_of_after? hs] at hnode
    exact hnode

end Intension.Patch
