import Intension.Patch.Basic

/-!
# Intension.Patch.Edit

Edits of a patch at the end of a path.  On the way down an absent child is
made explicit, as the patch it acts like; on the way back each node folds the
change of its child's counts into its own and drops the child if it has
become redundant (`withChild`).
-/

namespace Intension.Patch

/-! ## one node -/

/-- The node with `v` as the base to set. -/
def putBase (v : Scalar) (p : Patch) : Patch :=
  { p with
    base := some v
    baseCount := if p.base.isSome then p.baseCount else p.baseCount + 1 }

/-- The node without a base to set. -/
def takeBase (p : Patch) : Patch :=
  { p with
    base := none
    baseCount := if p.base.isSome then p.baseCount - 1 else p.baseCount }

/-- The node with its mark to clear the base set. -/
def markBase (p : Patch) : Patch :=
  { p with
    clearsBase := true
    blankCount := if p.clearsBase then p.blankCount else p.blankCount + 1 }

/-- The node with its mark to clear the base reset. -/
def unmarkBase (p : Patch) : Patch :=
  { p with
    clearsBase := false
    blankCount := if p.clearsBase then p.blankCount - 1 else p.blankCount }

/-- The node with its mark to clear dimensions set, the children left as they are. -/
def markDims (p : Patch) : Patch :=
  { p with
    clearsDims := true
    blankCount := if p.clearsDims then p.blankCount else p.blankCount + 1 }

/-- The node with its mark to clear dimensions set or reset; a change opens or closes a
clearing region, so the children are brought to normal form anew. -/
def setDimsMark (mark forced : Bool) (p : Patch) : Patch :=
  if p.clearsDims == mark then p else normalize forced { p with clearsDims := mark }

/-- The node with its child along `d` edited.  An absent child is edited from
`absent start`, and one that ends up redundant in a region as `clearing` says is dropped. -/
def withChild (d : Dimension) (start clearing : Bool) (f : Patch → Patch) (p : Patch) : Patch :=
  let old := p.child? d
  let new := f (old.getD (absent start))
  let bases := p.baseCount - (old.map (·.baseCount)).getD 0
  let blanks := p.blankCount - (old.map (·.blankCount)).getD 0
  if new.isRedundant clearing then
    { p with children := Keyed.erase d p.children, baseCount := bases, blankCount := blanks }
  else
    { p with
      children := Keyed.insert d new p.children
      baseCount := bases + new.baseCount
      blankCount := blanks + new.blankCount }

/-- The node with only those children whose dimension `keep` admits. -/
def retain (keep : Dimension → Bool) (p : Patch) : Patch :=
  let (kept, dropped) := p.children.partition (keep ·.1)
  { p with
    children := kept
    baseCount := p.baseCount - (dropped.map (·.2.baseCount)).sum
    blankCount := p.blankCount - (dropped.map (·.2.blankCount)).sum }

/-! ## the end of a path -/

/-- The patch with the node at the end of a path edited; `f` is told whether that node
stands in a clearing region. -/
def editAt (f : Bool → Patch → Patch) (forced : Bool) : Path → Patch → Patch
  | [], p => f forced p
  | d :: path, p =>
    let clearing := p.clearsDims || forced
    p.withChild d clearing clearing (editAt f clearing path)

/-- The patch with `v` to be set at the end of a path. -/
def setBaseAt (path : Path) (v : Scalar) (p : Patch) : Patch :=
  p.editAt (fun _ q => q.putBase v) false path

/-- The patch with the mark to clear the base set at the end of a path. -/
def setClearBaseAt (path : Path) (p : Patch) : Patch :=
  p.editAt (fun _ q => q.markBase) false path

/-- The patch with the mark to clear the base reset at the end of a path. -/
def resetClearBaseAt (path : Path) (p : Patch) : Patch :=
  p.editAt (fun _ q => q.unmarkBase) false path

/-- The patch with the mark to clear dimensions set at the end of a path. -/
def setClearDimsAt (path : Path) (p : Patch) : Patch :=
  p.editAt (setDimsMark true) false path

/-- The patch with the mark to clear dimensions reset at the end of a path. -/
def resetClearDimsAt (path : Path) (p : Patch) : Patch :=
  p.editAt (setDimsMark false) false path

/-- The patch with `child` in the place of its child along `d`. -/
def withDim (d : Dimension) (child p : Patch) : Patch :=
  p.withChild d p.clearsDims p.clearsDims fun _ => child.normalize p.clearsDims

end Intension.Patch
