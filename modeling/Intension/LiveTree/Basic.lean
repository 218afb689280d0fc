import Intension.Context.Basic
import Intension.Notice

/-!
# Intension.LiveTree.Basic

Live trees are trees of scalars whose nodes can be observed.  A node caches
the number of bases and of observers in its subtree; it is live while one of
the two is positive, and nodes without a base that are observed, or lie on the
way to an observed node, stay in the tree as empty shells.

An edit of a descendant goes down a path (`editAt`).  On the way back each node
folds the change of its child's counts into its own and drops the child if it
is no longer live (`withChild`).  A child is stored again under the dimension
that led to it.
-/

namespace Intension

/-- A tree of scalars with observers at its nodes. -/
structure LiveTree where
  /-- The scalar at this node. -/
  base : Option Scalar
  /-- The children, in ascending order of their dimensions. -/
  children : List (Dimension × LiveTree)
  /-- The number of bases in this subtree. -/
  baseCount : Nat
  /-- The number of observers in this subtree. -/
  headCount : Nat
  /-- The observers of this node, in the order they came. -/
  observers : List Observer

namespace LiveTree

/-- A node with nothing in it. -/
def empty : LiveTree := ⟨none, [], 0, 0, []⟩

instance : EmptyCollection LiveTree := ⟨empty⟩

instance : Inhabited LiveTree := ⟨empty⟩

/-! ## looking -/

/-- Whether there is no base in the whole tree. -/
def isEmpty (t : LiveTree) : Bool := t.baseCount == 0

/-- Whether there is a base or an observer in the tree. -/
def isLive (t : LiveTree) : Bool := decide (0 < t.baseCount) || decide (0 < t.headCount)

/-- The child along a dimension. -/
def child? (t : LiveTree) (d : Dimension) : Option LiveTree := Keyed.get? d t.children

/-- The descendant at the end of a path. -/
def get? (t : LiveTree) : Path → Option LiveTree
  | [] => some t
  | d :: p => match t.child? d with
    | some k => get? k p
    | none => none

mutual

/-- All nodes with their paths, a node before those below it; `p` leads to this one. -/
def nodesFrom (p : Path) : LiveTree → List (Path × LiveTree)
  | ⟨base, children, bases, heads, observers⟩ =>
    (p, ⟨base, children, bases, heads, observers⟩) :: childNodesFrom p children

/-- All nodes below one that `p` leads to. -/
def childNodesFrom (p : Path) : List (Dimension × LiveTree) → List (Path × LiveTree)
  | [] => []
  | (d, k) :: rest => nodesFrom (p ++ [d]) k ++ childNodesFrom p rest

end

/-- All nodes with their paths, a node before those below it. -/
def nodes (t : LiveTree) : List (Path × LiveTree) := nodesFrom [] t

/-! ## editing -/

/-- The number of bases in some children together. -/
def totalBases (children : List (Dimension × LiveTree)) : Nat :=
  (children.map (·.2.baseCount)).sum

/-- The number of observers in some children together. -/
def totalHeads (children : List (Dimension × LiveTree)) : Nat :=
  (children.map (·.2.headCount)).sum

/-- The node with `v` as its base. -/
def putBase (v : Scalar) (t : LiveTree) : LiveTree :=
  { t with
    base := some v
    baseCount := if t.base.isSome then t.baseCount else t.baseCount + 1 }

/-- The node without its base. -/
def takeBase (t : LiveTree) : LiveTree :=
  { t with
    base := none
    baseCount := if t.base.isSome then t.baseCount - 1 else t.baseCount }

/-- The node with other children. -/
def withChildren (children : List (Dimension × LiveTree)) (t : LiveTree) : LiveTree :=
  { t with
    children := children
    baseCount := t.baseCount - totalBases t.children + totalBases children
    headCount := t.headCount - totalHeads t.children + totalHeads children }

/-- The node with its child along `d` edited, and what the edit gives besides.  An absent
child is edited from empty, and one that ends up not live is dropped. -/
def withChild (d : Dimension) (f : LiveTree → LiveTree × α) (t : LiveTree) : LiveTree × α :=
  let old := (t.child? d).getD empty
  let new := (f old).1
  ({ t with
      children := if new.isLive then Keyed.insert d new t.children else Keyed.erase d t.children
      baseCount := t.baseCount - old.baseCount + new.baseCount
      headCount := t.headCount - old.headCount + new.headCount },
    (f old).2)

/-- The tree with the node at the end of a path edited, and what the edit gives besides. -/
def editAt (f : LiveTree → LiveTree × α) : Path → LiveTree → LiveTree × α
  | [], t => f t
  | d :: p, t => t.withChild d (editAt f p)

end LiveTree

end Intension
