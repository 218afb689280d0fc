import Intension.Context.Basic
import Intension.Proofs.Reachable

/-!
# Intension.Proofs.LiveTree.Running

Runs of live trees.  A run is a list of actions, each with the channel that it
uses, so that observers may answer differently each time.  Of the actions only
changes touch what a tree holds; a context that goes along with a run makes the
changes and passes over the rest.

So live trees refine contexts (`snapshot_simulates`): whatever the observers
answer, a change of a tree shows in its snapshot as the change of a context, down
to the text, and the coming and going of observers does not show.
-/

namespace Intension

/-- What can be done to a live tree. -/
inductive Action where
  | change (path : Path) (x : Change)
  | attach (path : Path) (o : Observer)
  | detach (path : Path) (o : Observer)
  | kick (path : Path) (deep : Bool)

/-- What an action brings can be had. -/
def Action.Reachable : Action → Prop
  | .change _ x => x.Reachable
  | _ => True

/-- The tree after an action, and the notices of it. -/
def LiveTree.perform (ch : Channel) (a : Action) (t : LiveTree) : LiveTree × Delivery :=
  match a with
  | .change path x => t.changeAt ch path x
  | .attach path o => (t.attach path o, .start)
  | .detach path o => ((t.detach path o).1, .start)
  | .kick path deep => ((t.kick ch path deep).1, (t.kick ch path deep).2.1)

/-- The tree after a run. -/
def LiveTree.run (actions : List (Channel × Action)) (t : LiveTree) : LiveTree :=
  actions.foldl (fun t a => (t.perform a.1 a.2).1) t

/-- The context after the change that an action makes, if it makes one. -/
def Context.perform (a : Action) (c : Context) : Context :=
  match a with
  | .change path x => c.changeAt path x
  | _ => c

/-- The context after the changes of a run. -/
def Context.run (actions : List (Channel × Action)) (c : Context) : Context :=
  actions.foldl (fun c a => c.perform a.2) c

namespace LiveTree

/-- An action with reachable data leads from a reachable tree to a reachable one. -/
theorem Reachable.perform {t : LiveTree} (h : t.Reachable) (ch : Channel) {a : Action}
    (ha : a.Reachable) : (t.perform ch a).1.Reachable := by
  cases a with
  | change path x => exact h.changeAt ch path ha
  | attach path o => exact h.attach path o
  | detach path o => exact h.detach path o
  | kick path deep => exact h.kick ch path deep

/-- The tree holds what the context is. -/
structure Holds (t : LiveTree) (c : Context) : Prop where
  tree : t.Valid
  context : c.Valid
  beq : t.snapshot == c

/-- **One action on a tree is followed by the context the tree holds.** -/
theorem Holds.perform {t : LiveTree} {c : Context} (h : t.Holds c) (ch : Channel) {a : Action}
    (ha : a.Reachable) : (t.perform ch a).1.Holds (c.perform a) := by
  have hsame : ∀ t' : LiveTree, t'.Valid → t'.snapshot == t.snapshot → t'.Holds c :=
    fun t' ht' hbeq =>
      ⟨ht', h.context, ht'.snapshot.beq_trans h.tree.snapshot h.context hbeq h.beq⟩
  cases a with
  | change path x =>
    have hx : x.Sound := Change.Reachable.sound ha
    have hcarries := h.tree.carries_changeAt hx ch path
    refine ⟨hcarries.valid, h.context.changeAt hx path, ?_⟩
    show (t.changeAt ch path x).1.snapshot == c.changeAt path x
    rw [hcarries.snapshot]
    exact Context.changeAt_congr h.tree.snapshot h.context hx path h.beq
  | attach path o =>
    have ht' := h.tree.attach path o
    exact hsame _ ht' (snapshot_beq h.tree ht' (h.tree.base_nodeAt_attach path o))
  | detach path o =>
    have hkeeps := h.tree.keeps_detach path o
    exact hsame _ hkeeps.valid (snapshot_beq h.tree hkeeps.valid hkeeps.base)
  | kick path deep =>
    have hkeeps := h.tree.keeps_kick ch path deep
    exact hsame _ hkeeps.valid (snapshot_beq h.tree hkeeps.valid hkeeps.base)

/-- A run of a tree is followed by the context the tree holds. -/
theorem Holds.run {t : LiveTree} {c : Context} (h : t.Holds c)
    {actions : List (Channel × Action)} (hactions : ∀ a ∈ actions, a.2.Reachable) :
    (t.run actions).Holds (c.run actions) := by
  induction actions generalizing t c with
  | nil => exact h
  | cons a actions ih =>
    obtain ⟨ha, hactions⟩ := List.forall_mem_cons.1 hactions
    exact ih (h.perform a.1 ha) hactions

/-! ## what shows in a snapshot -/

/-- **Live trees refine contexts**, in each change, in the coming and going of observers,
and so in every run. -/
theorem snapshot_simulates {t : LiveTree} (ht : t.Reachable) (ch : Channel) (path : Path) :
    (∀ p : Patch, p.Reachable → (t.changeAt ch path (.patch p)).1.snapshot.text =
      (t.snapshot.applyAt path p).text) ∧
    (∀ c : Context, c.Reachable → (t.changeAt ch path (.assign c)).1.snapshot.text =
      (Context.assignAt path c t.snapshot).text) ∧
    (t.changeAt ch path .clear).1.snapshot.text = (t.snapshot.clearAt path).text ∧
    (∀ o, (t.attach path o).snapshot == t.snapshot) ∧
    (∀ o, (t.detach path o).1.snapshot == t.snapshot) ∧
    (∀ deep, (t.kick ch path deep).1.snapshot == t.snapshot) ∧
    ∀ actions : List (Channel × Action), (∀ a ∈ actions, a.2.Reachable) →
      (t.run actions).snapshot == t.snapshot.run actions := by
  have hchange : ∀ x : Change, x.Reachable →
      (t.changeAt ch path x).1.snapshot = t.snapshot.changeAt path x :=
    fun x hx => (ht.valid.carries_changeAt hx.sound ch path).snapshot
  have hholds : t.Holds t.snapshot := ⟨ht.valid, ht.valid.snapshot, ht.valid.snapshot.beq_rfl⟩
  refine ⟨fun p hp => ?_, fun c hc => ?_, ?_, fun o => ?_, fun o => ?_, fun deep => ?_,
    fun actions hactions => (hholds.run hactions).beq⟩
  · rw [hchange _ (.patch hp)]
    rfl
  · rw [hchange _ (.assign hc)]
    rfl
  · rw [hchange _ .clear]
    rfl
  · exact (hholds.perform ch (a := .attach path o) trivial).beq
  · exact (hholds.perform ch (a := .detach path o) trivial).beq
  · exact (hholds.perform ch (a := .kick path deep) trivial).beq

/-- An observer that refuses its notice does not keep the tree from being cleared, and stays
on an empty shell. -/
theorem snapshot_simulates_refused :
    ((empty.attach [.integer 1] ⟨0, false⟩).changeAt ⟨fun _ => some ⟨[]⟩, none⟩ []
        .clear).1.snapshot.text =
      ((empty.attach [.integer 1] ⟨0, false⟩).snapshot.clearAt []).text :=
  (snapshot_simulates (.attach .empty [.integer 1] ⟨0, false⟩) ⟨fun _ => some ⟨[]⟩, none⟩
    []).2.2.1

end LiveTree

end Intension
