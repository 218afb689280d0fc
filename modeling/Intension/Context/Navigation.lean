import Intension.Context.Basic
import Intension.Dimension

/-!
# Intension.Context.Navigation

Handles on the nodes of trees.  A handle knows its tree, the path from the
root, and the node there.  Handles belong together when they were taken from
one and the same tree, which is told by the tree's number and not by what the
tree holds.
-/

namespace Intension

/-- A tree with a number of its own. -/
structure Tree where
  id : Nat
  root : Context

/-- A node inside a tree. -/
structure Handle where
  tree : Tree
  path : Path
  node : Context

namespace Handle

/-- Why two handles do not go together. -/
inductive Fault where
  /-- A common ancestor of nodes of different trees. -/
  | noSharedRoot (p q : Path)
  /-- A common path that leads to no node. -/
  | lostRoot (p : Path)
  /-- A path to a node of another tree. -/
  | otherTree (descendant ancestor : Path)
  /-- A path to a node that is not below. -/
  | notBelow (descendant ancestor : Path)

/-- The wording of a fault. -/
def Fault.message : Fault → String
  | noSharedRoot p q =>
    "structural error: nodes '" ++ p.text.str ++ "' and '" ++ q.text.str
      ++ "' do not share a root"
  | lostRoot p => "structural error: common root '" ++ p.text.str ++ "' no longer exists"
  | otherTree p q =>
    "structural error: node '" ++ p.text.str ++ "' is not in the tree of '" ++ q.text.str ++ "'"
  | notBelow p q =>
    "structural error: '" ++ p.text.str ++ "' is not a descendant of '" ++ q.text.str ++ "'"

/-- The handle of the node at the end of a path, if there is one. -/
def at? (tree : Tree) (p : Path) : Option Handle := (tree.root.get? p).map (⟨tree, p, ·⟩)

/-- The handle of the root of the same tree. -/
def root (h : Handle) : Handle := ⟨h.tree, [], h.tree.root⟩

/-- Whether this is the root. -/
def isRoot (h : Handle) : Bool := h.path.isEmpty

/-- The number of edges from the root. -/
def depth (h : Handle) : Nat := h.path.length

/-- The handle of the parent. -/
def parent? (h : Handle) : Option Handle := h.path.parent?.bind (at? h.tree)

/-- The handle of the child along a dimension. -/
def child? (h : Handle) (d : Dimension) : Option Handle :=
  (h.node.child? d).map (⟨h.tree, h.path ++ [d], ·⟩)

/-- Whether two handles were taken from one tree. -/
def sameTree (h k : Handle) : Bool := h.tree.id == k.tree.id

/-- Whether the node is a strict ancestor of the other. -/
def isAncestor (h k : Handle) : Bool :=
  h.sameTree k && decide (h.path.length < k.path.length) && h.path.leads k.path

/-- The deepest node that is an ancestor of both or one of them. -/
def commonRoot (h k : Handle) : Except Fault Handle :=
  if h.sameTree k then
    match at? h.tree (h.path.common k.path) with
    | some root => .ok root
    | none => .error (.lostRoot (h.path.common k.path))
  else .error (.noSharedRoot h.path k.path)

/-- The path from a node down to the other. -/
def pathTo (h k : Handle) : Except Fault Path :=
  if h.sameTree k then
    match Path.after? h.path k.path with
    | some p => .ok p
    | none => .error (.notBelow k.path h.path)
  else .error (.otherTree k.path h.path)

end Handle

end Intension
