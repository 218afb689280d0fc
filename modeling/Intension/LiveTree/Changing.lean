import Intension.LiveTree.Basic
import Intension.Patch.Edit

/-!
# Intension.LiveTree.Changing

Changes to live trees.  A change at the end of a path is first told to those
above: the observers of each strict ancestor that exists, the nearest ancestor
first, are told of the whole change with the path down to it.  Then it is
carried out from its node downwards, and just before a node is modified its own
observers are told of their part, without a path.

A change goes through to the end whatever the observers answer, and it leaves
the observers in place: a node that is cleared stays as an empty shell if it is
still observed.
-/

namespace Intension.LiveTree

/-! ## those above -/

/-- The observers at each strict ancestor of the end of a path with the path down from
there, the root first; the walk ends where nobody watches at or below. -/
def above : Path → LiveTree → List (Path × List Observer)
  | [], _ => []
  | d :: p, t =>
    if t.headCount = 0 then []
    else
      (d :: p, t.observers) :: match t.child? d with
        | some k => above p k
        | none => []

/-- Tells the observers above the end of a path, the nearest first. -/
def announceAbove (ch : Channel) (path : Path) (e : Event) (t : LiveTree) (δ : Delivery) :
    Delivery :=
  (above path t).reverse.foldl (fun δ (p, observers) => δ.announce ch observers e (some p)) δ

/-! ## clearing -/

mutual

/-- Clears a node and what is below it. -/
def clearHere (ch : Channel) (t : LiveTree) (δ : Delivery) : LiveTree × Delivery :=
  match t with
  | ⟨base, children, bases, heads, observers⟩ =>
    let δ := δ.announce ch observers (.change .clear) none
    let cleared := clearChildren ch (fun _ => false) children δ
    (((⟨base, children, bases, heads, observers⟩ : LiveTree).takeBase).withChildren cleared.1,
      cleared.2)

/-- Clears the children that are not empty and whose dimension `listed` does not admit. -/
def clearChildren (ch : Channel) (listed : Dimension → Bool)
    (children : List (Dimension × LiveTree)) (δ : Delivery) :
    List (Dimension × LiveTree) × Delivery :=
  match children with
  | [] => ([], δ)
  | (d, k) :: rest =>
    if k.isEmpty || listed d then
      let others := clearChildren ch listed rest δ
      ((d, k) :: others.1, others.2)
    else
      let cleared := clearHere ch k δ
      let others := clearChildren ch listed rest cleared.2
      (if cleared.1.isLive then (d, cleared.1) :: others.1 else others.1, others.2)

end

/-- The node with those of its children cleared whose dimension `listed` does not admit. -/
def clearUnlisted (ch : Channel) (listed : Dimension → Bool) (t : LiveTree) (δ : Delivery) :
    LiveTree × Delivery :=
  let cleared := clearChildren ch listed t.children δ
  (t.withChildren cleared.1, cleared.2)

/-! ## merging a patch -/

mutual

/-- Carries out a patch on a node and below it; `forced` tells whether an ancestor clears
dimensions, and those who watch the node are then shown the patch with that mark set. -/
def applyHere (ch : Channel) (p : Patch) (forced : Bool) (t : LiveTree) (δ : Delivery) :
    LiveTree × Delivery :=
  match p with
  | ⟨base, children, clearsBase, clearsDims, bases, blanks⟩ =>
    let whole : Patch := ⟨base, children, clearsBase, clearsDims, bases, blanks⟩
    let shown := if forced then whole.setClearDimsAt [] else whole
    let δ := δ.announce ch t.observers (.change (.patch shown)) none
    let t := if clearsBase then t.takeBase else t
    let t := match base with
      | some v => t.putBase v
      | none => t
    let clearing := clearsDims || forced
    let cleared :=
      if clearing then t.clearUnlisted ch (Keyed.contains · children) δ else (t, δ)
    applyChildren ch children clearing cleared.1 cleared.2

/-- Carries out the changes to children in turn. -/
def applyChildren (ch : Channel) (children : List (Dimension × Patch)) (clearing : Bool)
    (t : LiveTree) (δ : Delivery) : LiveTree × Delivery :=
  match children with
  | [] => (t, δ)
  | (d, p) :: rest =>
    let changed := t.withChild d fun k => applyHere ch p clearing k δ
    applyChildren ch rest clearing changed.1 changed.2

end

/-! ## assigning a context -/

mutual

/-- Makes a node and what is below it equal to a context. -/
def assignHere (ch : Channel) (c : Context) (t : LiveTree) (δ : Delivery) :
    LiveTree × Delivery :=
  match c with
  | ⟨base, children, bases⟩ =>
    let δ := δ.announce ch t.observers (.change (.assign ⟨base, children, bases⟩)) none
    let t := match base with
      | some v => t.putBase v
      | none => t.takeBase
    let cleared := t.clearUnlisted ch (Keyed.contains · children) δ
    assignChildren ch children cleared.1 cleared.2

/-- Makes children equal to contexts in turn. -/
def assignChildren (ch : Channel) (children : List (Dimension × Context)) (t : LiveTree)
    (δ : Delivery) : LiveTree × Delivery :=
  match children with
  | [] => (t, δ)
  | (d, c) :: rest =>
    let changed := t.withChild d fun k => assignHere ch c k δ
    assignChildren ch rest changed.1 changed.2

end

/-! ## a change at a path -/

/-- Carries out a change on a node and below it. -/
def changeHere (ch : Channel) (x : Change) (t : LiveTree) (δ : Delivery) : LiveTree × Delivery :=
  match x with
  | .patch p => applyHere ch p false t δ
  | .assign c => assignHere ch c t δ
  | .clear => clearHere ch t δ

/-- The tree after a change at the end of a path, and the notices of it. -/
def changeAt (ch : Channel) (path : Path) (x : Change) (t : LiveTree) : LiveTree × Delivery :=
  let δ := t.announceAbove ch path (.change x) .start
  t.editAt (fun k => changeHere ch x k δ) path

end Intension.LiveTree
