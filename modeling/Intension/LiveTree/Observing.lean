import Intension.LiveTree.Basic

/-!
# Intension.LiveTree.Observing

Observers come and go: they are attached to a node, which is created as an
empty shell if it is not there, detached from it, or kicked off it, one by one
and with a notice.  None of this touches what the tree holds.
-/

namespace Intension.LiveTree

/-- The tree with one more observer at the end of a path. -/
def attach (path : Path) (o : Observer) (t : LiveTree) : LiveTree :=
  (t.editAt (fun k =>
    ({ k with observers := k.observers ++ [o], headCount := k.headCount + 1 }, ())) path).1

/-- The node with an observer taken off once, and whether it was there. -/
def drop (o : Observer) (t : LiveTree) : LiveTree × Bool :=
  if t.observers.any (·.id == o.id) then
    ({ t with
        observers := t.observers.eraseP (·.id == o.id)
        headCount := t.headCount - 1 }, true)
  else (t, false)

/-- The tree with an observer taken off once at the end of a path, and whether it was there. -/
def detach (path : Path) (o : Observer) (t : LiveTree) : LiveTree × Bool :=
  if (t.get? path).isSome then t.editAt (drop o) path else (t, false)

/-! ## kicking -/

/-- The node without its observers. -/
def dismiss (t : LiveTree) : LiveTree :=
  { t with observers := [], headCount := t.headCount - t.observers.length }

mutual

/-- Kicks all observers off a node and off those below it; gives their number too. -/
def kickAll (ch : Channel) (t : LiveTree) (δ : Delivery) : LiveTree × Delivery × Nat :=
  match t with
  | ⟨base, children, bases, heads, observers⟩ =>
    let δ := δ.announce ch observers .kick none
    let below := kickChildren ch children δ
    (((⟨base, children, bases, heads, observers⟩ : LiveTree).dismiss).withChildren below.1,
      below.2.1, observers.length + below.2.2)

/-- Kicks all observers off some children and off the nodes below them. -/
def kickChildren (ch : Channel) (children : List (Dimension × LiveTree)) (δ : Delivery) :
    List (Dimension × LiveTree) × Delivery × Nat :=
  match children with
  | [] => ([], δ, 0)
  | (d, k) :: rest =>
    let kicked := kickAll ch k δ
    let others := kickChildren ch rest kicked.2.1
    (if kicked.1.isLive then (d, kicked.1) :: others.1 else others.1, others.2.1,
      kicked.2.2 + others.2.2)

end

/-- Kicks the observers off one node. -/
def kickHere (ch : Channel) (t : LiveTree) (δ : Delivery) : LiveTree × Delivery × Nat :=
  (t.dismiss, δ.announce ch t.observers .kick none, t.observers.length)

/-- The tree without the observers at the end of a path, and below it if `deep`; with the
notices of it and the number of observers kicked. -/
def kick (ch : Channel) (path : Path) (deep : Bool) (t : LiveTree) : LiveTree × Delivery × Nat :=
  if (t.get? path).isSome then
    t.editAt (fun k => if deep then kickAll ch k .start else kickHere ch k .start) path
  else (t, .start, 0)

end Intension.LiveTree
