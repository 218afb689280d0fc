import Intension.Patch.Compose

/-!
# Intension.Notice

What happens to a tree, and who is told.  There are three ways to change what is at
a place: merge a patch into it, put a context in its place, or clear it.

Notices tell observers what happens to a tree.  A notice of a change carries
the path from the observer's node down to the one that changes, or no path if
that is the observer's own node.  To an observer that takes patches only every
change is told as a patch.

Observers may refuse a notice.  A delivery records the notices sent so far;
after the first refusal nothing more is sent.  What observers answer may depend
on all that has been sent (`Responder`).
-/

namespace Intension

/-! ## changes -/

/-- A change to a node and what is below it. -/
inductive Change where
  /-- Carries out a patch. -/
  | patch (p : Patch)
  /-- Puts a context in the place of what is there. -/
  | assign (c : Context)
  /-- Removes all that is there. -/
  | clear

namespace Context

/-- The context after a change. -/
def change (x : Change) (c : Context) : Context :=
  match x with
  | .patch p => c.apply p
  | .assign d => d
  | .clear => empty

/-- The context after a change at the end of a path. -/
def changeAt (path : Path) (x : Change) (c : Context) : Context := c.editAt (change x) path

end Context

namespace Change

/-- A change that is the same to every context, said as a patch. -/
def toPatch : Change → Patch
  | patch p => p
  | assign c => Patch.ofContext c
  | clear => Patch.clearAll

end Change

/-! ## notices -/

/-- Someone who watches a node.  Observers are told apart by their numbers. -/
structure Observer where
  id : Nat
  /-- Whether every change is to be told as a patch. -/
  patchesOnly : Bool
  deriving DecidableEq, Repr

/-- A token for who caused a change, passed on as it is; the number tells tokens apart. -/
structure Origin where
  id : Nat
  label : Text
  deriving DecidableEq, Repr

/-- What happens to a node. -/
inductive Event where
  /-- It changes. -/
  | change (x : Change)
  /-- The observer is removed from it. -/
  | kick

/-- The event as an observer is told of it. -/
def Event.toldTo (o : Observer) : Event → Event
  | change x => if o.patchesOnly then change (.patch x.toPatch) else change x
  | kick => kick

/-- What one observer is told. -/
structure Notice where
  observer : Observer
  event : Event
  /-- From the node of the observer down to the one that changes, if that is another. -/
  path : Option Path
  origin : Option Origin

/-- A context of the observer's own, brought up to date by a notice. -/
def Notice.replay (n : Notice) (c : Context) : Context :=
  match n.event with
  | .change x => c.changeAt (n.path.getD []) x
  | .kick => c

/-! ## delivery -/

/-- Why an observer refuses a notice. -/
structure Refusal where
  reason : Text
  deriving DecidableEq, Repr

/-- The wording of a refusal. -/
def Refusal.message (r : Refusal) : String := "participant failed: " ++ r.reason.str

/-- What the observers answer, given all notices sent so far, to the last of them. -/
abbrev Responder := List Notice → Option Refusal

/-- What is the same for all notices of one operation. -/
structure Channel where
  respond : Responder
  origin : Option Origin

/-- The notices of one operation. -/
structure Delivery where
  /-- The notices sent, in order. -/
  sent : List Notice
  /-- The answer to the last one, if it was refused. -/
  refusal? : Option Refusal

namespace Delivery

/-- Nothing sent yet. -/
def start : Delivery := ⟨[], none⟩

/-- Sends a notice, unless one before it was refused. -/
def send (ch : Channel) (n : Notice) (δ : Delivery) : Delivery :=
  match δ.refusal? with
  | some _ => δ
  | none => ⟨δ.sent ++ [n], ch.respond (δ.sent ++ [n])⟩

/-- Tells the observers of a node, one after the other. -/
def announce (ch : Channel) (observers : List Observer) (e : Event) (path : Option Path)
    (δ : Delivery) : Delivery :=
  observers.foldl (fun δ o => δ.send ch ⟨o, e.toldTo o, path, ch.origin⟩) δ

/-- The value of the operation, or the refusal that one of its notices met. -/
def result (v : α) (δ : Delivery) : Except Refusal α :=
  match δ.refusal? with
  | some r => .error r
  | none => .ok v

end Delivery

end Intension
