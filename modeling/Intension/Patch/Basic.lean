import Intension.Dimension
import Intension.Scalar

/-!
# Intension.Patch.Basic

Patches are trees of changes to a context.  A node of a patch may set the base
of the node it meets, may clear that base first (`clearsBase`), and may drop
the children it does not list (`clearsDims`).  Below a node that clears
dimensions every node does so, whether marked or not: there the patch is in a
*clearing region*, and functions that walk a patch carry along whether an
ancestor opened one.

Inside a clearing region an absent child acts like `[---]` (`clearAll`), and
elsewhere like `[]` (`noop`).  A stored child that acts like an absent one is
redundant; `normalize` removes all of them, and edits remove what they make
redundant.  Each node caches `baseCount` and `blankCount`, the numbers of
bases and of set marks in its subtree.
-/

namespace Intension

/-- A tree of changes. -/
structure Patch where
  /-- The base to set. -/
  base : Option Scalar
  /-- The changes to children, in ascending order of their dimensions. -/
  children : List (Dimension × Patch)
  /-- Whether the base is cleared. -/
  clearsBase : Bool
  /-- Whether children that are not listed are dropped. -/
  clearsDims : Bool
  /-- The number of bases in this subtree. -/
  baseCount : Nat
  /-- The number of marks set in this subtree. -/
  blankCount : Nat

namespace Patch

/-- The patch that changes nothing, `[]`. -/
def noop : Patch := ⟨none, [], false, false, 0, 0⟩

/-- The patch that deletes everything, `[---]`. -/
def clearAll : Patch := ⟨none, [], true, true, 0, 2⟩

instance : Inhabited Patch := ⟨noop⟩

/-- The node of a base, two marks and children, its counts taken from theirs. -/
def node (base : Option Scalar) (clearsBase clearsDims : Bool)
    (children : List (Dimension × Patch)) : Patch :=
  ⟨base, children, clearsBase, clearsDims,
    base.toList.length + (children.map (·.2.baseCount)).sum,
    clearsBase.toNat + clearsDims.toNat + (children.map (·.2.blankCount)).sum⟩

/-! ## looking -/

/-- Whether this is `[]`. -/
def isNoop (p : Patch) : Bool :=
  !p.clearsBase && !p.clearsDims && p.base.isNone && p.children.isEmpty

/-- Whether this is `[---]`. -/
def isClearAll (p : Patch) : Bool :=
  p.clearsBase && p.clearsDims && p.base.isNone && p.children.isEmpty

/-- Whether a child acts like an absent one, inside a clearing region or outside. -/
def isRedundant (clearing : Bool) (p : Patch) : Bool :=
  if clearing then p.isClearAll else p.isNoop

/-- What an absent child acts like. -/
def absent (clearing : Bool) : Patch := if clearing then clearAll else noop

/-- The child along a dimension. -/
def child? (p : Patch) (d : Dimension) : Option Patch := Keyed.get? d p.children

/-- The descendant at the end of a path. -/
def get? (p : Patch) : Path → Option Patch
  | [] => some p
  | d :: path => match p.child? d with
    | some k => get? k path
    | none => none

mutual

/-- All nodes with their paths, a node before those below it; `path` leads to this one. -/
def nodesFrom (path : Path) : Patch → List (Path × Patch)
  | ⟨base, children, clearsBase, clearsDims, bases, blanks⟩ =>
    (path, ⟨base, children, clearsBase, clearsDims, bases, blanks⟩)
      :: childNodesFrom path children

/-- All nodes below one that `path` leads to. -/
def childNodesFrom (path : Path) : List (Dimension × Patch) → List (Path × Patch)
  | [] => []
  | (d, p) :: rest => nodesFrom (path ++ [d]) p ++ childNodesFrom path rest

end

/-- All nodes with their paths, a node before those below it. -/
def nodes (p : Patch) : List (Path × Patch) := nodesFrom [] p

/-! ## normal form -/

mutual

/-- The patch without redundant children, at any depth, and with exact counts; `forced`
tells whether it stands in a clearing region. -/
def normalize (forced : Bool) : Patch → Patch
  | ⟨base, children, clearsBase, clearsDims, _, _⟩ =>
    node base clearsBase clearsDims (normalizeChildren (clearsDims || forced) children)

/-- The children in normal form, without the redundant ones. -/
def normalizeChildren (clearing : Bool) : List (Dimension × Patch) → List (Dimension × Patch)
  | [] => []
  | (d, p) :: rest =>
    let q := normalize clearing p
    if q.isRedundant clearing then normalizeChildren clearing rest
    else (d, q) :: normalizeChildren clearing rest

end

/-! ## equality -/

/-- The children that are not redundant. -/
def essential (clearing : Bool) (children : List (Dimension × Patch)) :
    List (Dimension × Patch) :=
  children.filter fun e => !e.2.isRedundant clearing

mutual

/-- Whether two patches agree in marks and bases at every place, redundant children aside. -/
def agrees (forced : Bool) (p q : Patch) : Bool :=
  match p with
  | ⟨base, children, clearsBase, clearsDims, _, _⟩ =>
    clearsBase == q.clearsBase && clearsDims == q.clearsDims && base == q.base
      && agreesChildren (clearsDims || forced) children
          (essential (clearsDims || forced) q.children)

/-- Whether the children agree pairwise, the right ones already without redundant ones. -/
def agreesChildren (clearing : Bool) :
    List (Dimension × Patch) → List (Dimension × Patch) → Bool
  | [], others => others.isEmpty
  | (d, p) :: rest, others =>
    if p.isRedundant clearing then agreesChildren clearing rest others
    else match others with
      | [] => false
      | (e, q) :: others => d == e && agrees clearing p q && agreesChildren clearing rest others

end

/-- Equality of patches looks past redundant children. -/
instance : BEq Patch := ⟨agrees false⟩

end Patch

end Intension
