import Intension.Proofs.LiveTree.Following
import Intension.Proofs.LiveTree.Running

/-!
# Intension.Proofs.Mirror

The mirror law.  An observer that is attached once, takes the snapshot of its
node and from then on replays whatever it is told, holds what its node holds
after every step of every run, for as long as it stays attached and no notice is
refused.
-/

namespace Intension

/-! ## kicking tells of no change -/

/-- All notices are of being kicked. -/
def Delivery.OnlyKicks (δ : Delivery) : Prop := ∀ n ∈ δ.sent, n.event = .kick

theorem Delivery.onlyKicks_start : start.OnlyKicks := fun _ hn => nomatch hn

/-- One more notice of a kick. -/
theorem Delivery.OnlyKicks.send {δ : Delivery} (h : δ.OnlyKicks) (ch : Channel) {n : Notice}
    (hn : n.event = .kick) : (δ.send ch n).OnlyKicks := by
  rw [Delivery.send]
  split
  · exact h
  · intro k hk
    obtain hk | hk := List.mem_append.1 hk
    · exact h k hk
    · rw [List.mem_singleton.1 hk, hn]

/-- Announcing a kick sends notices of kicks. -/
theorem Delivery.OnlyKicks.announce {δ : Delivery} (h : δ.OnlyKicks) (ch : Channel)
    (observers : List Observer) (path : Option Path) :
    (δ.announce ch observers .kick path).OnlyKicks := by
  induction observers generalizing δ with
  | nil => exact h
  | cons o observers ih => exact ih (h.send ch rfl)

/-- Whoever replays notices of kicks only changes nothing. -/
theorem Delivery.OnlyKicks.follow {δ : Delivery} (h : δ.OnlyKicks) (o : Observer) (c : Context) :
    o.follow δ c = c := by
  have hall : ∀ l : List Notice, (∀ n ∈ l, n.event = .kick) →
      l.foldl (fun c n => n.replay c) c = c := by
    intro l hl
    induction l with
    | nil => rfl
    | cons n l ih =>
      obtain ⟨hn, hl⟩ := List.forall_mem_cons.1 hl
      rw [List.foldl_cons, Notice.replay, hn]
      exact ih hl
  exact hall _ fun n hn => h n (List.mem_filter.1 hn).1

namespace LiveTree

/-- Kicking children sends notices of kicks only. -/
theorem onlyKicks_kickChildren {ch : Channel} {l : List (Dimension × LiveTree)}
    (hl : ∀ e ∈ l, ∀ δ : Delivery, δ.OnlyKicks → (kickAll ch e.2 δ).2.1.OnlyKicks)
    {δ : Delivery} (h : δ.OnlyKicks) : (kickChildren ch l δ).2.1.OnlyKicks := by
  induction l generalizing δ with
  | nil => exact h
  | cons e l ih =>
    obtain ⟨he, hl⟩ := List.forall_mem_cons.1 hl
    exact ih hl (he δ h)

/-- A deep kick sends notices of kicks only, by induction on the tree. -/
theorem Valid.onlyKicks_kickAll {t : LiveTree} (h : t.Valid) (ch : Channel) {δ : Delivery}
    (hδ : δ.OnlyKicks) : (kickAll ch t δ).2.1.OnlyKicks := by
  induction h generalizing δ with
  | @intro t _ _ _ _ _ ih =>
    cases t
    rw [kickAll]
    exact onlyKicks_kickChildren (fun e he δ hδ => ih e he hδ) (hδ.announce ch _ none)

/-- A kick sends notices of kicks only. -/
theorem Valid.onlyKicks_kick {t : LiveTree} (h : t.Valid) (ch : Channel) (path : Path)
    (deep : Bool) : (t.kick ch path deep).2.1.OnlyKicks := by
  rw [kick]
  split
  · rw [snd_editAt]
    cases deep with
    | true => exact (h.nodeAt path).onlyKicks_kickAll ch Delivery.onlyKicks_start
    | false => exact Delivery.onlyKicks_start.announce ch _ none
  · exact Delivery.onlyKicks_start

/-! ## standing at a place -/

/-- Whether an observer is attached to the node at the end of a path. -/
def hosts (o : Observer) (p : Path) (t : LiveTree) : Bool :=
  (t.get? p).any (·.observers.any (·.id == o.id))

theorem hosts_eq (o : Observer) (p : Path) (t : LiveTree) :
    t.hosts o p = (t.nodeAt p).observers.any (·.id == o.id) := by
  rw [hosts, nodeAt_eq_getD]
  cases t.get? p <;> rfl

/-- Where an observer is not attached nobody has its number. -/
theorem filter_eq_nil_of_not_hosts {o : Observer} {p : Path} {t : LiveTree}
    (h : t.hosts o p = false) : (t.nodeAt p).observers.filter (·.id == o.id) = [] := by
  rw [hosts_eq, List.any_eq_false] at h
  exact List.filter_eq_nil_iff.2 h

/-- An observer attached for the first time stands where it was attached, and nowhere else. -/
theorem stands_attach {t : LiveTree} (h : t.Valid) {o : Observer}
    (hnew : ∀ q, t.hosts o q = false) (p : Path) : Stands o (some p) (t.attach p o) := by
  intro q
  rw [h.observers_nodeAt_attach, List.filter_append, filter_eq_nil_of_not_hosts (hnew q)]
  rw [Option.any_some]
  split <;> simp

namespace Stands

variable {o : Observer} {p : Path} {t t' : LiveTree}

/-- Where an observer stands a node is stored. -/
theorem exists_get? (hs : Stands o (some p) t) : ∃ k, t.get? p = some k := by
  cases hk : t.get? p with
  | some k => exact ⟨k, rfl⟩
  | none =>
    have hp := hs p
    rw [nodeAt_eq_getD, hk] at hp
    simp [empty] at hp

/-- Attaching another observer leaves this one where it stands. -/
theorem attach_other (hs : Stands o (some p) t) (h : t.Valid) {x : Observer}
    (hx : x.id ≠ o.id) (path : Path) : Stands o (some p) (t.attach path x) := by
  intro q
  rw [h.observers_nodeAt_attach, List.filter_append, hs q]
  have hnone : (if path == q then [x] else []).filter (·.id == o.id) = [] := by
    split <;> simp [hx]
  rw [hnone, List.append_nil]

/-- If others go, or the observer itself but for its place, it stands where it stood. -/
theorem of_keeps (hs : Stands o (some p) t) (hkeeps : Keeps t t') (hhosts : t'.hosts o p) :
    Stands o (some p) t' := by
  intro q
  have hsub := (hkeeps.observers q).filter (·.id == o.id)
  rw [hs q, Option.any_some] at hsub
  rw [Option.any_some]
  split
  · next hpq =>
    rw [if_pos hpq] at hsub
    have hnode : t'.nodeAt q = t'.nodeAt p := nodeAt_of_after? (Path.after?_eq_some_nil_iff.2 hpq) t'
    obtain hnil | hone := List.sublist_singleton.1 hsub
    · rw [hosts_eq, ← hnode, List.any_eq_true] at hhosts
      obtain ⟨x, hx, hid⟩ := hhosts
      exact absurd hid (List.filter_eq_nil_iff.1 hnil x hx)
    · exact hone
  · next hpq =>
    rw [if_neg hpq] at hsub
    exact List.sublist_nil.1 hsub

end Stands

/-! ## runs -/

/-- The context is what the observer's node holds. -/
structure Mirrors (o : Observer) (p : Path) (t : LiveTree) (c : Context) : Prop where
  tree : t.Valid
  stands : Stands o (some p) t
  context : c.Valid
  beq : c == (t.nodeAt p).snapshot

end LiveTree

/-- An action that does not attach an observer of the same number again. -/
def Action.Spares (o : Observer) : Action → Prop
  | .attach _ x => x.id ≠ o.id
  | _ => True

/-- Throughout a run no notice is refused and an observer stays attached at one place, and
it is not attached once more. -/
def Observer.Stays (o : Observer) (p : Path) : List (Channel × Action) → LiveTree → Prop
  | [], _ => True
  | (ch, a) :: actions, t =>
    a.Spares o ∧ (t.perform ch a).2.refusal? = none ∧ (t.perform ch a).1.hosts o p ∧
      o.Stays p actions (t.perform ch a).1

/-- The context of an observer after a run: it replays what it is told in each action. -/
def Observer.mirror (o : Observer) : List (Channel × Action) → LiveTree → Context → Context
  | [], _, c => c
  | (ch, a) :: actions, t, c =>
    o.mirror actions (t.perform ch a).1 (o.follow (t.perform ch a).2 c)

namespace LiveTree

/-- **One action keeps the mirror**, if the observer is still there after it. -/
theorem Mirrors.perform {o : Observer} {p : Path} {t : LiveTree} {c : Context}
    (h : t.Mirrors o p c) {ch : Channel} {a : Action} (ha : a.Reachable) (hspares : a.Spares o)
    (hnone : (t.perform ch a).2.refusal? = none) (hhosts : (t.perform ch a).1.hosts o p) :
    (t.perform ch a).1.Mirrors o p (o.follow (t.perform ch a).2 c) := by
  -- what leaves the bases where they are and tells of no change
  have hsame : ∀ t' δ, t'.Valid → Stands o (some p) t' →
      (∀ q, (t'.nodeAt q).base = (t.nodeAt q).base) → δ.OnlyKicks →
      t'.Mirrors o p (o.follow δ c) := by
    intro t' δ ht' hs' hbase hδ
    have hold := (h.tree.nodeAt p).snapshot
    have hnew := (ht'.nodeAt p).snapshot
    have hsnapshot : (t.nodeAt p).snapshot == (t'.nodeAt p).snapshot := by
      rw [Context.beq_iff_baseAt hold hnew]
      intro r
      rw [← ht'.baseAt_snapshot_append, ← h.tree.baseAt_snapshot_append, ht'.baseAt_snapshot,
        h.tree.baseAt_snapshot, hbase]
      exact BEq.rfl
    rw [hδ.follow]
    exact ⟨ht', hs', h.context, h.context.beq_trans hold hnew h.beq hsnapshot⟩
  cases a with
  | change path x =>
    have hx : x.Sound := Change.Reachable.sound ha
    have hcarries := h.tree.carries_changeAt hx ch path
    obtain ⟨hvalid, hbeq⟩ := h.tree.follow_changeAt hx h.stands ch path hnone h.context h.beq
    exact ⟨hcarries.valid, h.stands.congr hcarries.observers, hvalid, hbeq⟩
  | attach path x =>
    exact hsame _ _ (h.tree.attach path x) (h.stands.attach_other h.tree hspares path)
      (h.tree.base_nodeAt_attach path x) Delivery.onlyKicks_start
  | detach path x =>
    have hkeeps := h.tree.keeps_detach path x
    exact hsame _ _ hkeeps.valid (h.stands.of_keeps hkeeps hhosts) hkeeps.base
      Delivery.onlyKicks_start
  | kick path deep =>
    have hkeeps := h.tree.keeps_kick ch path deep
    exact hsame _ _ hkeeps.valid (h.stands.of_keeps hkeeps hhosts) hkeeps.base
      (h.tree.onlyKicks_kick ch path deep)

/-- A run keeps the mirror. -/
theorem Mirrors.run {o : Observer} {p : Path} {t : LiveTree} {c : Context}
    (h : t.Mirrors o p c) {actions : List (Channel × Action)}
    (hactions : ∀ a ∈ actions, a.2.Reachable) (hstays : o.Stays p actions t) :
    (t.run actions).Mirrors o p (o.mirror actions t c) := by
  induction actions generalizing t c with
  | nil => exact h
  | cons a actions ih =>
    obtain ⟨ha, hactions⟩ := List.forall_mem_cons.1 hactions
    obtain ⟨hspares, hnone, hhosts, hstays⟩ := hstays
    exact ih (h.perform ha hspares hnone hhosts) hactions hstays

/-- **Mirror law**: an observer that is attached for the first time, takes the snapshot of
its node and replays what it is told holds what its node holds, after every run in which it
stays attached and no notice is refused. -/
theorem mirror_beq_snapshot {t : LiveTree} (ht : t.Reachable) {o : Observer}
    (hnew : ∀ q, t.hosts o q = false) (p : Path) :
    ∃ k, (t.attach p o).get? p = some k ∧
      ∀ actions : List (Channel × Action), (∀ a ∈ actions, a.2.Reachable) →
        o.Stays p actions (t.attach p o) →
        ∃ k', ((t.attach p o).run actions).get? p = some k' ∧
          o.mirror actions (t.attach p o) k.snapshot == k'.snapshot := by
  have hvalid := ht.valid.attach p o
  have hstands := stands_attach ht.valid hnew p
  obtain ⟨k, hk⟩ := hstands.exists_get?
  have hsnapshot : k.snapshot.Valid := (hvalid.get? hk).snapshot
  have hnode : ((t.attach p o).nodeAt p) = k := by rw [nodeAt_eq_getD, hk]; rfl
  refine ⟨k, hk, fun actions hactions hstays => ?_⟩
  have hmirrors : (t.attach p o).Mirrors o p k.snapshot :=
    ⟨hvalid, hstands, hsnapshot, hnode ▸ hsnapshot.beq_rfl⟩
  have hend := hmirrors.run hactions hstays
  obtain ⟨k', hk'⟩ := hend.stands.exists_get?
  have hnode' : (((t.attach p o).run actions).nodeAt p) = k' := by rw [nodeAt_eq_getD, hk']; rfl
  exact ⟨k', hk', hnode' ▸ hend.beq⟩

/-- A patch that sets a base below `1`, one that forces this base to go, a change elsewhere
below `1` and a clearing of all, with nobody refusing. -/
def clearingRun : List (Channel × Action) :=
  [.change [] (.patch (.setBaseAt [.integer 1, .integer 2] .alpha .noop)),
    .change [] (.patch (.setBaseAt [.integer 1] .omega (.setClearDimsAt [] .noop))),
    .change [.integer 1, .integer 3] (.assign (.ofBase .alpha)),
    .change [] .clear].map fun a => (⟨fun _ => none, none⟩, a)

/-- An observer at `1` that takes patches only mirrors its node through all of it. -/
theorem mirror_beq_snapshot_of_clearing :
    ∃ k, (empty.attach [.integer 1] ⟨0, true⟩).get? [.integer 1] = some k ∧
      ∃ k', ((empty.attach [.integer 1] ⟨0, true⟩).run clearingRun).get? [.integer 1] = some k' ∧
        (⟨0, true⟩ : Observer).mirror clearingRun (empty.attach [.integer 1] ⟨0, true⟩)
          k.snapshot == k'.snapshot := by
  have hnew : ∀ q, empty.hosts ⟨0, true⟩ q = false := by
    intro q
    rw [hosts_eq, nodeAt_empty]
    rfl
  have hreachable : ∀ a ∈ clearingRun, a.2.Reachable := by
    have hfirst : (Patch.setBaseAt [.integer 1, .integer 2] .alpha .noop).Reachable :=
      .setBaseAt .noop _ _
    have hsecond : (Patch.setBaseAt [.integer 1] .omega (.setClearDimsAt [] .noop)).Reachable :=
      .setBaseAt (.setClearDimsAt .noop []) _ _
    simp only [clearingRun, List.map_cons, List.map_nil, List.forall_mem_cons]
    exact ⟨.patch hfirst, .patch hsecond, .assign (.ofBase .alpha), .clear,
      fun _ ha => nomatch ha⟩
  have hstays : (⟨0, true⟩ : Observer).Stays [.integer 1] clearingRun
      (empty.attach [.integer 1] ⟨0, true⟩) :=
    ⟨trivial, rfl, rfl, trivial, rfl, rfl, trivial, rfl, rfl, trivial, rfl, rfl, trivial⟩
  obtain ⟨k, hk, hrun⟩ := mirror_beq_snapshot .empty hnew [.integer 1]
  exact ⟨k, hk, hrun clearingRun hreachable hstays⟩

end LiveTree

end Intension
