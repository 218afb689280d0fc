import Intension.Context.Order
import Intension.Context.Basic
import Intension.LiveTree.Basic
import Intension.Text.Printable

/-!
# Intension.LiveTree.View

What a live tree holds, apart from its observers.  `content` forgets the
observers and keeps the empty shells, which the orders on contexts do not see;
`snapshot` drops the shells too and gives a context in its own right.
-/

namespace Intension.LiveTree

mutual

/-- The tree without its observers; empty shells stay as nodes without a base. -/
def content : LiveTree → Context
  | ⟨base, children, bases, _, _⟩ => ⟨base, contents children, bases⟩

/-- The children without their observers. -/
def contents : List (Dimension × LiveTree) → List (Dimension × Context)
  | [] => []
  | (d, t) :: rest => (d, content t) :: contents rest

end

mutual

/-- The context that the tree holds now. -/
def snapshot : LiveTree → Context
  | ⟨base, children, _, _, _⟩ => Context.node base (snapshots children)

/-- The contexts that the children hold, but for empty ones. -/
def snapshots : List (Dimension × LiveTree) → List (Dimension × Context)
  | [] => []
  | (d, t) :: rest => if t.isEmpty then snapshots rest else (d, snapshot t) :: snapshots rest

end

mutual

/-- The canonical text of what the tree holds. -/
def text : LiveTree → Text
  | ⟨base, children, _, _, _⟩ =>
    Context.angled ((base.map Scalar.text).toList ++ childTerms children)

/-- The terms of the children that are not empty. -/
def childTerms : List (Dimension × LiveTree) → List Text
  | [] => []
  | (d, t) :: rest =>
    if t.isEmpty then childTerms rest else (d.text ++ ':' :: text t) :: childTerms rest

end

/-- The text of a tree for diagnostics. -/
def debugText (t : LiveTree) : Text :=
  "AEther \x7b content: ".toList ++ Debug.quote t.text ++ ", headcount: ".toList
    ++ Text.ofNat t.headCount ++ " \x7d".toList

/-- The text for diagnostics of the node at the end of a path. -/
def nodeDebugText (p : Path) (t : LiveTree) : Text :=
  "NodeRef \x7b path: ".toList ++ Debug.quote p.text ++ ", node: ".toList ++ t.debugText
    ++ " \x7d".toList

end Intension.LiveTree
