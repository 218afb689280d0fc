import Intension.LiveTree.Observing
import Intension.Proofs.LiveTree.Changing

/-!
# Intension.Proofs.LiveTree.Scripts

Operations on live trees as scripts.  An operation has its notices to send in a
fixed order and makes of the tree what it makes of it; the answers only tell how
far the notices get.  So each step of an operation is a value and a script
(`Scripted`), and the delivery is the script sent in turn (`Delivery.post`), which
is cut right after the first refusal (`Delivery.upToRefusal_post`).
-/

namespace Intension

/-! ## sending a script -/

namespace Delivery

/-- Sends notices in turn. -/
def post (ch : Channel) (script : List Notice) (δ : Delivery) : Delivery :=
  script.foldl (fun δ n => δ.send ch n) δ

/-- Sending two scripts is sending the one after the other. -/
theorem post_append (ch : Channel) (a b : List Notice) (δ : Delivery) :
    δ.post ch (a ++ b) = (δ.post ch a).post ch b := List.foldl_append

/-- An announcement is a script: one notice for each observer. -/
theorem announce_eq_post (ch : Channel) (observers : List Observer) (e : Event)
    (path : Option Path) (δ : Delivery) : δ.announce ch observers e path =
      δ.post ch (observers.map fun o => ⟨o, e.toldTo o, path, ch.origin⟩) := by
  rw [post, List.foldl_map, announce]

/-- After a refusal nothing more is sent. -/
theorem post_of_refused {δ : Delivery} {r : Refusal} (h : δ.refusal? = some r) (ch : Channel)
    (script : List Notice) : δ.post ch script = δ := by
  induction script with
  | nil => rfl
  | cons n script ih =>
    have hsend : δ.send ch n = δ := by rw [send, h]
    rw [post, List.foldl_cons, hsend]
    exact ih

/-- A delivery is a script up to the first notice that is refused: all of it if none is, and
else the notices up to that one, with its refusal. -/
inductive UpToRefusal (respond : Responder) : List Notice → Delivery → Prop
  | all {script : List Notice} (accepted : ∀ l, l <+: script → l ≠ [] → respond l = none) :
      UpToRefusal respond script ⟨script, none⟩
  | cut {front rest : List Notice} {n : Notice} {r : Refusal}
      (accepted : ∀ l, l <+: front → l ≠ [] → respond l = none)
      (refused : respond (front ++ [n]) = some r) :
      UpToRefusal respond (front ++ n :: rest) ⟨front ++ [n], some r⟩

/-- **A script is sent up to the first refusal**, after notices that were all accepted. -/
theorem upToRefusal_post (ch : Channel) (script : List Notice) {sent : List Notice}
    (accepted : ∀ l, l <+: sent → l ≠ [] → ch.respond l = none) :
    UpToRefusal ch.respond (sent ++ script) (post ch script ⟨sent, none⟩) := by
  induction script generalizing sent with
  | nil =>
    rw [List.append_nil]
    exact .all accepted
  | cons n script ih =>
    have hsend : send ch n ⟨sent, none⟩ = ⟨sent ++ [n], ch.respond (sent ++ [n])⟩ := rfl
    rw [post, List.foldl_cons, hsend]
    cases hanswer : ch.respond (sent ++ [n]) with
    | some r =>
      have hstop : post ch script ⟨sent ++ [n], some r⟩ = ⟨sent ++ [n], some r⟩ :=
        post_of_refused rfl ch script
      rw [post] at hstop
      rw [hstop]
      exact .cut accepted hanswer
    | none =>
      have haccepted : ∀ l, l <+: sent ++ [n] → l ≠ [] → ch.respond l = none := by
        intro l hl hne
        obtain rfl | hl := List.prefix_concat_iff.1 hl
        · exact hanswer
        · exact accepted l hl hne
      rw [List.append_cons]
      exact ih haccepted

/-- What is sent of a script is the script up to the first notice that is refused. -/
theorem upToRefusal_post_start (ch : Channel) (script : List Notice) :
    UpToRefusal ch.respond script (start.post ch script) :=
  upToRefusal_post ch script fun _ hl hne => absurd (List.prefix_nil.1 hl) hne

/-- Where nothing was refused, all of a script was sent. -/
theorem post_eq_of_unrefused {ch : Channel} {script : List Notice}
    (h : (start.post ch script).refusal? = none) : start.post ch script = ⟨script, none⟩ := by
  have hpost := upToRefusal_post_start ch script
  generalize start.post ch script = δ at h hpost
  cases hpost with
  | all => rfl
  | cut => cases h

end Delivery

/-! ## steps that follow a script -/

/-- On every channel of an origin, and whatever was sent before, a step gives one value and
sends one script. -/
def Scripted {α : Type} (origin : Option Origin) (f : Channel → Delivery → α × Delivery) : Prop :=
  ∃ v script, ∀ ch : Channel, ch.origin = origin → ∀ δ, f ch δ = (v, δ.post ch script)

section

variable {α β : Type} {origin : Option Origin}

/-- A step that sends nothing sends the empty script. -/
theorem scripted_nothing (v : α) : Scripted origin fun _ δ => (v, δ) :=
  ⟨v, [], fun _ _ _ => rfl⟩

/-- An announcement sends the same script on all channels of an origin. -/
theorem scripted_announce (origin : Option Origin) (observers : List Observer) (e : Event)
    (path : Option Path) (v : α) :
    Scripted origin fun ch δ => (v, δ.announce ch observers e path) := by
  refine ⟨v, observers.map fun o => ⟨o, e.toldTo o, path, origin⟩, fun ch hch δ => ?_⟩
  rw [← hch]
  exact congrArg (v, ·) (Delivery.announce_eq_post ch observers e path δ)

namespace Scripted

variable {f : Channel → Delivery → α × Delivery}

/-- A step with the outcomes of a scripted one is scripted. -/
theorem congr (hf : Scripted origin f) {g : Channel → Delivery → α × Delivery}
    (h : ∀ ch δ, g ch δ = f ch δ) : Scripted origin g :=
  (funext fun ch => funext (h ch) : g = f) ▸ hf

/-- One step and then another, which may go by the value of the first. -/
theorem bind (hf : Scripted origin f) {g : α → Channel → Delivery → β × Delivery}
    (hg : ∀ v, Scripted origin (g v)) :
    Scripted origin fun ch δ => g (f ch δ).1 ch (f ch δ).2 := by
  obtain ⟨v, a, hf⟩ := hf
  obtain ⟨w, b, hg⟩ := hg v
  refine ⟨w, a ++ b, fun ch hch δ => ?_⟩
  dsimp only
  rw [hf ch hch δ, hg ch hch, Delivery.post_append]

/-- What is made of the value does not change the script. -/
theorem map (hf : Scripted origin f) (g : α → β) :
    Scripted origin fun ch δ => (g (f ch δ).1, (f ch δ).2) :=
  hf.bind fun v => scripted_nothing (g v)

end Scripted

end

namespace LiveTree

variable {origin : Option Origin}

/-! ## one child, and the end of a path -/

section

variable {α : Type}

/-- The tree with another one in the place of its child along `d`. -/
def putChild (t : LiveTree) (d : Dimension) (new : LiveTree) : LiveTree :=
  (t.withChild d fun _ => (new, ())).1

/-- Changing a child puts the changed child in its place. -/
theorem withChild_eq (d : Dimension) (f : LiveTree → LiveTree × α) (t : LiveTree) :
    t.withChild d f = (t.putChild d (f (t.along d)).1, (f (t.along d)).2) := rfl

/-- A scripted step at a child is scripted at the parent. -/
theorem scripted_withChild {f : Channel → LiveTree → Delivery → LiveTree × Delivery}
    {t : LiveTree} {d : Dimension} (hf : Scripted origin fun ch δ => f ch (t.along d) δ) :
    Scripted origin fun ch δ => t.withChild d fun k => f ch k δ :=
  hf.map (t.putChild d ·)

/-- The tree with another one in the place of the node at the end of a path. -/
def putAt (t : LiveTree) (path : Path) (new : LiveTree) : LiveTree :=
  (t.editAt (fun _ => (new, ())) path).1

/-- Changing a node puts the changed node in its place. -/
theorem editAt_eq (f : LiveTree → LiveTree × α) (path : Path) (t : LiveTree) :
    t.editAt f path = (t.putAt path (f (t.nodeAt path)).1, (f (t.nodeAt path)).2) := by
  induction path generalizing t with
  | nil => rfl
  | cons d path ih =>
    rw [editAt, withChild_eq, ih]
    rfl

end

/-! ## clearing -/

mutual

/-- A clearing is scripted, by induction on the tree. -/
theorem scripted_clearHere (origin : Option Origin) :
    ∀ t : LiveTree, Scripted origin fun ch δ => clearHere ch t δ
  | ⟨base, children, bases, heads, observers⟩ => by
    have hchildren := scripted_clearChildren origin (fun _ => false) children
    simp only [clearHere]
    exact (scripted_announce origin observers (.change .clear) none ()).bind fun _ =>
      hchildren.map ((takeBase ⟨base, children, bases, heads, observers⟩).withChildren ·)

/-- So is the clearing of children. -/
theorem scripted_clearChildren (origin : Option Origin) (listed : Dimension → Bool) :
    ∀ l : List (Dimension × LiveTree), Scripted origin fun ch δ => clearChildren ch listed l δ
  | [] => by
    simp only [clearChildren]
    exact scripted_nothing []
  | (d, k) :: rest => by
    have hk := scripted_clearHere origin k
    have hrest := scripted_clearChildren origin listed rest
    simp only [clearChildren]
    split
    · exact hrest.map _
    · exact hk.bind fun cleared =>
        hrest.map fun others => if cleared.isLive then (d, cleared) :: others else others

end

/-- So is the clearing of children that are not listed. -/
theorem scripted_clearUnlisted (listed : Dimension → Bool) (t : LiveTree) :
    Scripted origin fun ch δ => t.clearUnlisted ch listed δ :=
  (scripted_clearChildren origin listed t.children).map (t.withChildren ·)

/-! ## merging and assigning -/

/-- Changes of children in turn are scripted if each of them is. -/
theorem scripted_inTurn {α : Type} {f : Channel → α → LiveTree → Delivery → LiveTree × Delivery}
    {l : List (Dimension × α)}
    (hf : ∀ e ∈ l, ∀ k : LiveTree, Scripted origin fun ch δ => f ch e.2 k δ) (t : LiveTree) :
    Scripted origin fun ch δ => inTurn (f ch) l t δ := by
  induction l generalizing t with
  | nil => exact scripted_nothing t
  | cons e l ih =>
    obtain ⟨he, hf⟩ := List.forall_mem_cons.1 hf
    exact (scripted_withChild (f := fun ch k δ => f ch e.2 k δ) (he _)).bind (ih hf)

/-- The head of a patch is scripted. -/
theorem scripted_applyHead (p : Patch) (forced : Bool) (t : LiveTree) :
    Scripted origin fun ch δ => applyHead ch p forced t δ := by
  simp only [applyHead]
  split
  · exact scripted_clearUnlisted _ _
  · exact scripted_nothing _

/-- Applying a patch is scripted, by induction on the patch. -/
theorem scripted_applyHere (p : Patch) (forced : Bool) (t : LiveTree) :
    Scripted origin fun ch δ => applyHere ch p forced t δ := by
  induction p using Patch.children_induction generalizing forced t with
  | step p ih =>
    have htold := scripted_announce origin t.observers
      (.change (.patch (if forced then p.setClearDimsAt [] else p))) none ()
    have hall := (htold.bind fun _ => scripted_applyHead p forced t).bind
      (scripted_inTurn (f := fun ch k t δ => applyHere ch k (p.clearsDims || forced) t δ)
        fun e he k => ih e he _ k)
    exact hall.congr fun ch δ => applyHere_eq ch p forced t δ

/-- Assigning a context is scripted, by induction on the context. -/
theorem scripted_assignHere (c : Context) (t : LiveTree) :
    Scripted origin fun ch δ => assignHere ch c t δ := by
  induction c using Context.children_induction generalizing t with
  | step c ih =>
    have htold := scripted_announce origin t.observers (.change (.assign c)) none ()
    have hall := (htold.bind fun _ => scripted_clearUnlisted (Keyed.contains · c.children)
      (assignBase c t)).bind (scripted_inTurn (f := assignHere) fun e he k => ih e he k)
    exact hall.congr fun ch δ => assignHere_eq ch c t δ

/-- A change at a node is scripted. -/
theorem scripted_changeHere (x : Change) (t : LiveTree) :
    Scripted origin fun ch δ => changeHere ch x t δ := by
  cases x with
  | patch p => exact scripted_applyHere p false t
  | assign c => exact scripted_assignHere c t
  | clear => exact scripted_clearHere origin t

/-! ## whole operations -/

/-- The announcement above a node is scripted. -/
theorem scripted_announceAbove (origin : Option Origin) (path : Path) (e : Event) (t : LiveTree) :
    Scripted origin fun ch δ => ((), t.announceAbove ch path e δ) := by
  simp only [announceAbove]
  induction (above path t).reverse with
  | nil => exact scripted_nothing ()
  | cons step steps ih =>
    exact (scripted_announce origin step.2 e (some step.1) ()).bind fun _ => ih

/-- **A change of a tree follows a script.** -/
theorem exists_script_changeAt (origin : Option Origin) (path : Path) (x : Change) (t : LiveTree) :
    ∃ t' script, ∀ ch : Channel, ch.origin = origin →
      t.changeAt ch path x = (t', Delivery.start.post ch script) := by
  obtain ⟨k, script, hscript⟩ := (scripted_announceAbove origin path (.change x) t).bind
    fun _ => scripted_changeHere x (t.nodeAt path)
  refine ⟨t.putAt path k, script, fun ch hch => ?_⟩
  rw [changeAt, editAt_eq]
  exact congrArg (fun s => (t.putAt path s.1, s.2)) (hscript ch hch .start)

/-! ## kicking

What is given besides the tree and the delivery is the number of those who were kicked. -/

mutual

/-- A deep kick is scripted, by induction on the tree. -/
theorem scripted_kickAll (origin : Option Origin) : ∀ t : LiveTree,
    Scripted origin fun ch δ => (((kickAll ch t δ).1, (kickAll ch t δ).2.2), (kickAll ch t δ).2.1)
  | ⟨base, children, bases, heads, observers⟩ => by
    have hchildren := scripted_kickChildren origin children
    simp only [kickAll]
    exact (scripted_announce origin observers .kick none ()).bind fun _ =>
      hchildren.map fun below =>
        ((dismiss ⟨base, children, bases, heads, observers⟩).withChildren below.1,
          observers.length + below.2)

/-- So is the kick of children. -/
theorem scripted_kickChildren (origin : Option Origin) : ∀ l : List (Dimension × LiveTree),
    Scripted origin fun ch δ =>
      (((kickChildren ch l δ).1, (kickChildren ch l δ).2.2), (kickChildren ch l δ).2.1)
  | [] => by
    simp only [kickChildren]
    exact scripted_nothing ([], 0)
  | (d, k) :: rest => by
    have hk := scripted_kickAll origin k
    have hrest := scripted_kickChildren origin rest
    simp only [kickChildren]
    exact hk.bind fun kicked => hrest.map fun others =>
      (if kicked.1.isLive then (d, kicked.1) :: others.1 else others.1, kicked.2 + others.2)

end

/-- **Kicking follows a script.** -/
theorem exists_script_kick (origin : Option Origin) (path : Path) (deep : Bool) (t : LiveTree) :
    ∃ t' n script, ∀ ch : Channel, ch.origin = origin →
      t.kick ch path deep = (t', Delivery.start.post ch script, n) := by
  have hkicked : ∃ k n script, ∀ ch : Channel, ch.origin = origin →
      (if deep then kickAll ch (t.nodeAt path) .start else kickHere ch (t.nodeAt path) .start) =
        (k, Delivery.start.post ch script, n) := by
    cases deep with
    | true =>
      obtain ⟨v, script, hscript⟩ := scripted_kickAll origin (t.nodeAt path)
      refine ⟨v.1, v.2, script, fun ch hch => ?_⟩
      exact congrArg (fun s => (s.1.1, s.2, s.1.2)) (hscript ch hch .start)
    | false =>
      obtain ⟨n, script, hscript⟩ := scripted_announce origin
        (t.nodeAt path).observers .kick none (t.nodeAt path).observers.length
      refine ⟨(t.nodeAt path).dismiss, n, script, fun ch hch => ?_⟩
      exact congrArg (fun s => ((t.nodeAt path).dismiss, s.2, s.1)) (hscript ch hch .start)
  obtain ⟨k, n, script, hkicked⟩ := hkicked
  by_cases hnode : (t.get? path).isSome
  · refine ⟨t.putAt path k, n, script, fun ch hch => ?_⟩
    rw [kick, if_pos hnode, editAt_eq, hkicked ch hch]
  · refine ⟨t, 0, [], fun ch _ => ?_⟩
    rw [kick, if_neg hnode]
    rfl

end LiveTree

end Intension
