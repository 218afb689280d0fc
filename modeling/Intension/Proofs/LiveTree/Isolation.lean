import Intension.Proofs.LiveTree.Running
import Intension.Proofs.LiveTree.Scripts

/-!
# Intension.Proofs.LiveTree.Isolation

What the refusals of observers can do.  An operation is set beside the same
operation with observers that accept everything (`Channel.calm`): the tree is the
same, the notices are cut right after the first one that is refused, and that
refusal is all that the caller may get instead of the value (`Isolated`).  Over a
run, where observers may refuse something in every operation, the trees are those
of the run without refusals.
-/

namespace Intension

/-- The channel with observers that accept everything. -/
def Channel.calm (ch : Channel) : Channel := { ch with respond := fun _ => none }

/-- Whoever accepts everything is sent all of a script. -/
theorem Delivery.post_calm (ch : Channel) (script : List Notice) :
    start.post ch.calm script = ⟨script, none⟩ := by
  have hpost := upToRefusal_post_start ch.calm script
  generalize start.post ch.calm script = δ at hpost
  cases hpost with
  | all => rfl
  | cut _ refused => cases refused

/-- What an operation gives: the tree, the notices of it, and a value for the caller. -/
abbrev LiveTree.Outcome (α : Type) : Type := LiveTree × Delivery × α

/-- The answers in one operation do no more than they may, next to its `calm` outcome, that of
the same operation when every notice is accepted. -/
structure Isolated {α : Type} (respond : Responder) (calm outcome : LiveTree.Outcome α) :
    Prop where
  /-- Bases, counts and observers are the same everywhere. -/
  tree : outcome.1 = calm.1
  unrefused : calm.2.1.refusal? = none
  /-- The notices are those of the calm outcome, up to the first that is refused. -/
  sent : Delivery.UpToRefusal respond calm.2.1.sent outcome.2.1
  /-- The caller gets the refusal of that notice or else the value of the calm outcome. -/
  answer : outcome.2.1.result outcome.2.2 =
    match outcome.2.1.refusal? with
    | some r => .error r
    | none => calm.2.1.result calm.2.2

/-- An operation that follows a script is isolated from the answers. -/
theorem isolated_of_script {α : Type} {f : Channel → LiveTree.Outcome α} {ch : Channel}
    (h : ∃ t v script, ∀ c : Channel, c.origin = ch.origin →
      f c = (t, Delivery.start.post c script, v)) : Isolated ch.respond (f ch.calm) (f ch) := by
  obtain ⟨t, v, script, h⟩ := h
  rw [h ch rfl, h ch.calm rfl, Delivery.post_calm]
  exact {
    tree := rfl
    unrefused := rfl
    sent := Delivery.upToRefusal_post_start ch script
    answer := rfl }

namespace LiveTree

/-- The outcome of a change, which has no value of its own. -/
def changeOutcome (ch : Channel) (path : Path) (x : Change) (t : LiveTree) : Outcome Unit :=
  ((t.changeAt ch path x).1, (t.changeAt ch path x).2, ())

/-- The answers to a change do no more than they may. -/
theorem isolated_changeAt (ch : Channel) (path : Path) (x : Change) (t : LiveTree) :
    Isolated ch.respond (t.changeOutcome ch.calm path x) (t.changeOutcome ch path x) := by
  obtain ⟨t', script, h⟩ := exists_script_changeAt ch.origin path x t
  refine isolated_of_script (f := (t.changeOutcome · path x)) ⟨t', (), script, fun c hc => ?_⟩
  rw [changeOutcome, h c hc]

/-- The answers to a kick do no more than they may. -/
theorem isolated_kick (ch : Channel) (path : Path) (deep : Bool) (t : LiveTree) :
    Isolated ch.respond (t.kick ch.calm path deep) (t.kick ch path deep) :=
  isolated_of_script (f := (t.kick · path deep)) (exists_script_kick ch.origin path deep t)

/-- **Refusals are isolated.**  Whatever the observers answer to the notices of a change or a
kick, the tree is the one that comes when all are accepted, the notices are sent up to the
first that is refused, and the caller gets that refusal, or the value if there is none. -/
theorem refusals_isolated (t : LiveTree) (ch : Channel) (path : Path) :
    (∀ x, Isolated ch.respond (t.changeOutcome ch.calm path x) (t.changeOutcome ch path x)) ∧
      ∀ deep, Isolated ch.respond (t.kick ch.calm path deep) (t.kick ch path deep) :=
  ⟨fun x => t.isolated_changeAt ch path x, fun deep => t.isolated_kick ch path deep⟩

/-! ## over a run -/

/-- The tree after an action is that of the calm channel. -/
theorem perform_calm (ch : Channel) (a : Action) (t : LiveTree) :
    (t.perform ch a).1 = (t.perform ch.calm a).1 := by
  cases a with
  | change path x => exact (t.isolated_changeAt ch path x).tree
  | attach path o => rfl
  | detach path o => rfl
  | kick path deep => exact (t.isolated_kick ch path deep).tree

/-- A run with refusals goes through the trees of the run without. -/
theorem run_calm (actions : List (Channel × Action)) (t : LiveTree) :
    t.run actions = t.run (actions.map fun a => (a.1.calm, a.2)) := by
  induction actions generalizing t with
  | nil => rfl
  | cons a actions ih =>
    have hstep : (t.perform a.1 a.2).1 = (t.perform a.1.calm a.2).1 := perform_calm a.1 a.2 t
    rw [run, List.foldl_cons, hstep]
    exact ih _

end LiveTree

end Intension
