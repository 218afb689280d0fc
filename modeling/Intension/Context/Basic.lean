import Intension.Dimension
import Intension.Scalar

/-!
# Intension.Context.Basic

Contexts are trees: a node may carry a scalar, its base, and has children
keyed by dimensions.  Each node caches `baseCount`, the number of bases in its
subtree; a context is empty when that is zero.

An edit of a descendant goes down a path of dimensions (`editAt`).  On the way
back each node on the path folds the change of its child's count into its own
and drops the child if it is left empty (`withChild`), so stored children are
never empty.  A child is stored again under the dimension that led to it.

The canonical text of a context is `<base+dim:<...>+dim:<...>>`: the base and
then the children in ascending order of their dimensions.
-/

namespace Intension

/-- A tree of scalars. -/
structure Context where
  /-- The scalar at this node. -/
  base : Option Scalar
  /-- The children, in ascending order of their dimensions. -/
  children : List (Dimension × Context)
  /-- The number of bases in this subtree. -/
  baseCount : Nat

namespace Context

/-- The context without any base. -/
def empty : Context := ⟨none, [], 0⟩

instance : EmptyCollection Context := ⟨empty⟩

instance : Inhabited Context := ⟨empty⟩

/-- A lone base. -/
def ofBase (v : Scalar) : Context := ⟨some v, [], 1⟩

/-- The number of bases in all children together. -/
def totalBases (children : List (Dimension × Context)) : Nat :=
  (children.map (·.2.baseCount)).sum

/-- The node of a base and children, its count taken from theirs. -/
def node (base : Option Scalar) (children : List (Dimension × Context)) : Context :=
  ⟨base, children, base.toList.length + totalBases children⟩

/-! ## looking -/

/-- Whether there is no base in the whole tree. -/
def isEmpty (c : Context) : Bool := c.baseCount == 0

/-- The child along a dimension. -/
def child? (c : Context) (d : Dimension) : Option Context := Keyed.get? d c.children

/-- The descendant at the end of a path. -/
def get? (c : Context) : Path → Option Context
  | [] => some c
  | d :: p => match c.child? d with
    | some k => get? k p
    | none => none

/-- The base at the end of a path: the view by which contexts are compared. -/
def baseAt (c : Context) (p : Path) : Option Scalar := (c.get? p).bind (·.base)

mutual

/-- All nodes with their paths, a node before those below it; `p` leads to this one. -/
def nodesFrom (p : Path) : Context → List (Path × Context)
  | ⟨base, children, count⟩ => (p, ⟨base, children, count⟩) :: childNodesFrom p children

/-- All nodes below one that `p` leads to. -/
def childNodesFrom (p : Path) : List (Dimension × Context) → List (Path × Context)
  | [] => []
  | (d, c) :: rest => nodesFrom (p ++ [d]) c ++ childNodesFrom p rest

end

/-- All nodes with their paths, a node before those below it. -/
def nodes (c : Context) : List (Path × Context) := nodesFrom [] c

/-! ## editing a node -/

/-- The node with `v` as its base. -/
def putBase (v : Scalar) (c : Context) : Context :=
  { c with
    base := some v
    baseCount := if c.base.isSome then c.baseCount else c.baseCount + 1 }

/-- The node without its base. -/
def takeBase (c : Context) : Context :=
  { c with
    base := none
    baseCount := if c.base.isSome then c.baseCount - 1 else c.baseCount }

/-- The node with its child along `d` edited.  An absent child is edited from empty,
and one that ends up empty is dropped. -/
def withChild (d : Dimension) (f : Context → Context) (c : Context) : Context :=
  let old := (c.child? d).getD empty
  let new := f old
  { c with
    children :=
      if new.isEmpty then Keyed.erase d c.children else Keyed.insert d new c.children
    baseCount := c.baseCount - old.baseCount + new.baseCount }

/-- The node with only those children whose dimension `keep` admits. -/
def retain (keep : Dimension → Bool) (c : Context) : Context :=
  let (kept, dropped) := c.children.partition (keep ·.1)
  { c with children := kept, baseCount := c.baseCount - totalBases dropped }

/-! ## editing at a path -/

/-- The tree with the node at the end of a path edited. -/
def editAt (f : Context → Context) : Path → Context → Context
  | [], c => f c
  | d :: p, c => c.withChild d (editAt f p)

/-- The tree with `v` as base at the end of a path. -/
def setBaseAt (p : Path) (v : Scalar) (c : Context) : Context := c.editAt (putBase v) p

/-- The tree with another in the place of the node at the end of a path. -/
def assignAt (p : Path) (other c : Context) : Context := c.editAt (fun _ => other) p

/-- The tree without what is at and below the end of a path. -/
def clearAt (p : Path) (c : Context) : Context := c.editAt (fun _ => empty) p

/-- The node with another context in the place of its child along `d`. -/
def withDim (d : Dimension) (child c : Context) : Context := c.withChild d fun _ => child

/-- The node with its base assigned: a base that is there takes only a scalar of its
own kind. -/
def assignBase (v : Scalar) (c : Context) : Except Scalar.KindMismatch Context :=
  match c.base with
  | none => .ok (c.putBase v)
  | some held => (held.assign v).map fun w => { c with base := some w }

/-! ## text -/

/-- A body of terms between angle brackets. -/
def angled (terms : List Text) : Text := '<' :: (Text.joinTerms terms ++ ['>'])

mutual

/-- The canonical text of a context. -/
def text : Context → Text
  | ⟨base, children, _⟩ => angled ((base.map Scalar.text).toList ++ childTerms children)

/-- The terms of the children, each a dimension, a colon and the child's text. -/
def childTerms : List (Dimension × Context) → List Text
  | [] => []
  | (d, c) :: rest => (d.text ++ ':' :: text c) :: childTerms rest

end

/-- The text of a context for diagnostics. -/
def debugText (c : Context) : Text := "Context(".toList ++ c.text ++ [')']

end Context

end Intension
