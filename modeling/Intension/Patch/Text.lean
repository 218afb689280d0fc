import Intension.Context.Basic
import Intension.Patch.Basic

/-!
# Intension.Patch.Text

The two texts of a patch.  The full text is `[marker+base+dim:[...]]`; the
short text writes `<...>` for each node that carries both marks together with
its whole subtree.
-/

namespace Intension.Patch

/-- The marker of a node: `-` clears the base, `--` the dimensions, `---` both. -/
def marker (p : Patch) : Option Text :=
  match p.clearsBase, p.clearsDims with
  | true, true => some ['-', '-', '-']
  | false, true => some ['-', '-']
  | true, false => some ['-']
  | false, false => none

/-- A body of terms between square brackets. -/
def squared (terms : List Text) : Text := '[' :: (Text.joinTerms terms ++ [']'])

/-- The terms of a node before its children. -/
def headTerms (p : Patch) : List Text := p.marker.toList ++ (p.base.map Scalar.text).toList

mutual

/-- The full text of a patch. -/
def text (p : Patch) : Text :=
  match p with
  | ⟨base, children, clearsBase, clearsDims, bases, blanks⟩ =>
    squared ((headTerms ⟨base, children, clearsBase, clearsDims, bases, blanks⟩)
      ++ childTerms children)

/-- The terms of the children, each a dimension, a colon and the child's full text. -/
def childTerms : List (Dimension × Patch) → List Text
  | [] => []
  | (d, p) :: rest => (d.text ++ ':' :: text p) :: childTerms rest

end

/-- Whether a short text stands for a subtree with all marks set. -/
def isAngled (t : Text) : Bool := t.head? == some '<'

mutual

/-- The short text of a patch. -/
def shortText (p : Patch) : Text :=
  match p with
  | ⟨base, children, clearsBase, clearsDims, bases, blanks⟩ =>
    let texts := shortTexts children
    let terms := texts.map fun (d, t) => d.text ++ ':' :: t
    if clearsBase && clearsDims && texts.all (isAngled ·.2) then
      Context.angled ((base.map Scalar.text).toList ++ terms)
    else
      squared (headTerms ⟨base, children, clearsBase, clearsDims, bases, blanks⟩ ++ terms)

/-- The short texts of the children. -/
def shortTexts : List (Dimension × Patch) → List (Dimension × Text)
  | [] => []
  | (d, p) :: rest => (d, shortText p) :: shortTexts rest

end

/-- The text of a patch for diagnostics. -/
def debugText (p : Patch) : Text := "ContextOp(".toList ++ p.text ++ [')']

end Intension.Patch
