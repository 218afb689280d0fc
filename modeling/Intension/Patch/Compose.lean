import Intension.Context.Basic
import Intension.Patch.Basic
import Intension.Patch.Edit

/-!
# Intension.Patch.Compose

What patches do.  `Context.apply` carries a patch out, node by node: clear the
base, set the base, drop the children that are not listed if in a clearing
region, then recurse into the listed ones.  `Patch.ofContext` goes back: the
patch that makes any context a given one.

Sequential composition: `compose p q` is one patch that acts like `p` and
then `q`.  At each node the marks and base of `q` are folded into those of
`p`, the children that `q` drops go, and the children of `q` are composed
with those of `p` along the same dimension.
-/

namespace Intension

mutual

/-- Carries out a patch on a context; `forced` tells whether an ancestor clears dimensions. -/
def Patch.mergeInto (p : Patch) (forced : Bool) (c : Context) : Context :=
  match p with
  | ⟨base, children, clearsBase, clearsDims, _, _⟩ =>
    let c := if clearsBase then c.takeBase else c
    let c := match base with
      | some v => c.putBase v
      | none => c
    let clearing := clearsDims || forced
    let c := if clearing then c.retain (Keyed.contains · children) else c
    Patch.mergeChildren children clearing c

/-- Carries out the changes to children in turn. -/
def Patch.mergeChildren : List (Dimension × Patch) → Bool → Context → Context
  | [], _, c => c
  | (d, p) :: rest, clearing, c =>
    Patch.mergeChildren rest clearing (c.withChild d (Patch.mergeInto p clearing))

end

namespace Context

/-- The context after a patch. -/
def apply (p : Patch) (c : Context) : Context := p.mergeInto false c

/-- The context after a patch at the end of a path. -/
def applyAt (path : Path) (p : Patch) (c : Context) : Context := c.editAt (apply p) path

/-- The context that a patch makes of the empty one. -/
def ofPatch (p : Patch) : Context := empty.apply p

end Context

mutual

/-- The patch that makes any context equal to `c`. -/
def Patch.ofContext : Context → Patch
  | ⟨base, children, _⟩ => Patch.node base true true (Patch.ofContexts children)

/-- The patches of the children. -/
def Patch.ofContexts : List (Dimension × Context) → List (Dimension × Patch)
  | [] => []
  | (d, c) :: rest => (d, Patch.ofContext c) :: Patch.ofContexts rest

end

/-! ## composition -/

namespace Patch

mutual

/-- `p` and then `q`.  The two flags tell whether an ancestor of `p` and of `q` clears
dimensions. -/
def composeInto (q : Patch) (pForced qForced : Bool) (p : Patch) : Patch :=
  match q with
  | ⟨base, children, clearsBase, clearsDims, _, _⟩ =>
    let pClears := p.clearsDims || pForced
    let qClears := clearsDims || qForced
    let p := if clearsBase then p.markBase.takeBase else p
    let p := match base with
      | some v => if clearsBase then p.putBase v else (p.putBase v).unmarkBase
      | none => p
    let p := if clearsDims then p.markDims else p
    let p := if qClears then p.retain (Keyed.contains · children) else p
    composeChildren children pClears qClears p

/-- Each child in turn, composed with that of `p` along the same dimension. -/
def composeChildren : List (Dimension × Patch) → Bool → Bool → Patch → Patch
  | [], _, _, p => p
  | (d, k) :: rest, pClears, qClears, p =>
    composeChildren rest pClears qClears
      (p.withChild d pClears (pClears || qClears) (composeInto k pClears qClears))

end

/-- The patch that acts like `p` and then `q`. -/
def compose (p q : Patch) : Patch := composeInto q false false p

/-- The patch that acts like `p` and then, at the end of a path, like `q`. -/
def composeAt (path : Path) (q p : Patch) : Patch :=
  p.editAt (fun forced k => composeInto q forced false k) false path

end Patch

end Intension
