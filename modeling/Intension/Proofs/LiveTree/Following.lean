import Intension.Proofs.LiveTree.Observing
import Intension.Proofs.LiveTree.Telling

/-!
# Intension.Proofs.LiveTree.Following

Why replaying notices is enough.  The part of a change that is told at a place
does to the bases there what the whole change does to them (`Explains`): where it
was amended for a clearing region, where it was replaced by a clearing, and where
it was left out because there was nothing to clear.  So a context that equals the
node of an observer and replays what the observer is told equals it again after
the change (`Valid.follow_changeAt`).
-/

namespace Intension

/-! ## parts through heads -/

/-- To the bases `old` what is told, if anything, does what the heads say. -/
structure Explains (told? : Option Change) (heads : Path → Patch.Head)
    (old : Path → Option Scalar) : Prop where
  sound : ∀ x ∈ told?, x.Sound
  act : ∀ r, told?.elim (old r) (fun x => (x.headAt r).act (old r)) = (heads r).act (old r)

/-- Nodes that are dropped are cleared, and empty ones already are. -/
theorem LiveTree.Valid.explains_doomed {t : LiveTree} (h : t.Valid) (q : Path) :
    Explains (t.doomed q) (fun _ => Patch.clearAll.head) (t.nodeAt q).snapshot.baseAt := by
  rw [doomed]
  split
  · next hempty =>
    refine ⟨fun _ hx => (by cases hx), fun r => ?_⟩
    rw [(h.nodeAt q).snapshot_eq_empty hempty, Context.baseAt_empty]
    rfl
  · refine ⟨fun x hx => ?_, fun r => rfl⟩
    obtain rfl := Option.some.inj hx
    trivial

section

variable {doomed : Option Change} {old : Path → Option Scalar}
  (hdoomed : Explains doomed (fun _ => Patch.clearAll.head) old)
include hdoomed

/-- What is told below a patch does there what the heads of the patch say. -/
theorem Patch.Ordered.explains_partAt {p : Patch} (hp : p.Ordered) (forced : Bool) (q : Path) :
    Explains (p.partAt doomed forced q) (fun r => p.headAt forced (q ++ r)) old := by
  induction q generalizing p forced with
  | nil =>
    refine ⟨fun x hx => ?_, fun r => ?_⟩
    · obtain rfl := Option.some.inj hx
      cases forced with
      | false => exact hp
      | true => exact hp.setDimsMark true false
    · cases forced with
      | false => rfl
      | true => exact Patch.act_headAt_setDimsMark hp r (old r)
  | cons d q ih =>
    simp only [List.cons_append, Patch.headAt_cons, Patch.along, Patch.partAt_cons]
    cases hk : p.child? d with
    | some k =>
      obtain ⟨e, -, he⟩ := Keyed.mem_of_get? hk
      exact ih (hp.inner _ he) (p.clearsDims || forced)
    | none =>
      simp only [Option.elim_none, Option.getD_none, Patch.headAt_absent]
      cases p.clearsDims || forced with
      | false => exact ⟨fun _ hx => (by cases hx), fun _ => rfl⟩
      | true => exact hdoomed

/-- What is told below an assigned context does there what the context says. -/
theorem Context.Valid.explains_partAt {c : Context} (hc : c.Valid) (q : Path) :
    Explains (c.partAt doomed q) (fun r => ⟨c.baseAt (q ++ r), true, true⟩) old := by
  induction q generalizing c with
  | nil =>
    refine ⟨fun x hx => ?_, fun r => rfl⟩
    obtain rfl := Option.some.inj hx
    exact hc
  | cons d q ih =>
    simp only [List.cons_append, Context.baseAt_cons, Context.along, Context.partAt_cons]
    cases hk : c.child? d with
    | some k => exact ih (hc.child? hk).1
    | none =>
      simp only [Option.getD_none, Context.baseAt_empty]
      exact hdoomed

/-- **What is told at a place does there what the change does.** -/
theorem Change.Sound.explains_partAt {x : Change} (hx : x.Sound) (q : Path) :
    Explains (x.partAt doomed q) (fun r => x.headAt (q ++ r)) old := by
  cases x with
  | patch p => exact Patch.Ordered.explains_partAt hdoomed hx false q
  | assign c => exact Context.Valid.explains_partAt hdoomed hx q
  | clear =>
    cases q with
    | nil =>
      refine ⟨fun x hx => ?_, fun r => rfl⟩
      obtain rfl := Option.some.inj hx
      trivial
    | cons d q => exact hdoomed

end

/-! ## replaying -/

/-- A context that replays in turn what an observer was sent. -/
def Observer.follow (o : Observer) (δ : Delivery) (c : Context) : Context :=
  (δ.sentTo o).foldl (fun c n => n.replay c) c

/-- A change as it is told to an observer. -/
def Observer.hears (o : Observer) (x : Change) : Change :=
  if o.patchesOnly then .patch x.toPatch else x

/-- What an observer hears of a sound change is sound. -/
theorem Observer.sound_hears (o : Observer) {x : Change} (hx : x.Sound) : (o.hears x).Sound := by
  rw [hears]
  split
  · exact x.ordered_toPatch hx
  · exact hx

/-- An observer that hears the patch of a change hears what it does. -/
theorem Observer.headAt_hears (o : Observer) (x : Change) (r : Path) :
    (o.hears x).headAt r = x.headAt r := by
  rw [hears]
  split
  · exact x.headAt_toPatch r
  · rfl

/-- A notice of a change is replayed as that change, in whichever form it came. -/
theorem Observer.replay_note (o : Observer) (x : Change) (path : Option Path)
    (origin : Option Origin) (c : Context) :
    Notice.replay ⟨o, (Event.change x).toldTo o, path, origin⟩ c =
      c.changeAt (path.getD []) (o.hears x) := by
  rw [Notice.replay, Event.toldTo, hears]
  split <;> split <;> simp_all

/-- A context that replays the one notice of a change that was sent, or none. -/
theorem Observer.follow_eq {o : Observer} {δ : Delivery} {ch : Channel} {path : Option Path}
    {x? : Option Change} (hsent : δ.sentTo o = o.notes ch path x?) (c : Context) :
    o.follow δ c = x?.elim c fun x => c.changeAt (path.getD []) (o.hears x) := by
  rw [follow, hsent, notes]
  cases x? with
  | none => rfl
  | some x => exact o.replay_note x path ch.origin c

/-- What a notice of a change, or none, does to the bases `old` of whoever replays it. -/
def Change.replayed (x? : Option Change) (path : Option Path) (old : Path → Option Scalar)
    (r : Path) : Option Scalar :=
  x?.elim (old r) fun x =>
    (Path.after? (path.getD []) r).elim (old r) fun s => (x.headAt s).act (old r)

/-- Replaying what was sent of one change does to the bases what the change does, as far as it is
told. -/
theorem Observer.baseAt_follow {o : Observer} {δ : Delivery} {ch : Channel} {path : Option Path}
    {x? : Option Change} (hsent : δ.sentTo o = o.notes ch path x?) (hx : ∀ x ∈ x?, x.Sound)
    {c : Context} (hc : c.Valid) {old : Path → Option Scalar} (hold : ∀ r, c.baseAt r == old r) :
    (o.follow δ c).Valid ∧ ∀ r, (o.follow δ c).baseAt r == Change.replayed x? path old r := by
  rw [o.follow_eq hsent]
  cases x? with
  | none => exact ⟨hc, hold⟩
  | some x =>
    have hhears := o.sound_hears (hx x rfl)
    refine ⟨hc.changeAt hhears _, fun r => ?_⟩
    rw [Option.elim_some, Context.baseAt_changeAt hc hhears, Change.replayed, Option.elim_some]
    cases Path.after? (path.getD []) r with
    | none => exact hold r
    | some s =>
      rw [Option.elim_some, Option.elim_some, o.headAt_hears]
      exact (x.headAt s).act_congr (hold r)

/-! ## one change -/

namespace LiveTree

variable {t : LiveTree}

/-- The bases below a node are those of its own snapshot. -/
theorem Valid.baseAt_snapshot_append (h : t.Valid) (p r : Path) :
    t.snapshot.baseAt (p ++ r) = (t.nodeAt p).snapshot.baseAt r := by
  rw [Context.baseAt_append, h.nodeAt_snapshot]

/-- What a change at the end of one path does to the bases below the end of another. -/
theorem Valid.baseAt_nodeAt_changeAt (h : t.Valid) {x : Change} (hx : x.Sound) (ch : Channel)
    (path p r : Path) : ((t.changeAt ch path x).1.nodeAt p).snapshot.baseAt r =
      (Path.after? path (p ++ r)).elim ((t.nodeAt p).snapshot.baseAt r)
        fun s => (x.headAt s).act ((t.nodeAt p).snapshot.baseAt r) := by
  have hcarries := h.carries_changeAt hx ch path
  rw [← hcarries.valid.baseAt_snapshot_append, hcarries.snapshot,
    Context.baseAt_changeAt h.snapshot hx, h.baseAt_snapshot_append]

/-- **What an observer is told of a change does to the bases at its place what the change
does**: it is told its part if it stands at or below the place of the change, all of it with
the path down if it stands above, and nothing elsewhere. -/
theorem Valid.exists_replayed (h : t.Valid) {x : Change} (hx : x.Sound) {o : Observer} {p : Path}
    (hs : Stands o (some p) t) (ch : Channel) (path : Path)
    (hnone : (t.changeAt ch path x).2.refusal? = none) :
    ∃ (y? : Option Change) (rest : Option Path),
      (t.changeAt ch path x).2.sentTo o = o.notes ch rest y? ∧ (∀ y ∈ y?, y.Sound) ∧
      ∀ r, ((t.changeAt ch path x).1.nodeAt p).snapshot.baseAt r =
        Change.replayed y? rest (t.nodeAt p).snapshot.baseAt r := by
  obtain ⟨-, hsent⟩ := h.tells_changeAt hx hs ch path hnone
  rw [Option.bind_some, Option.bind_some] at hsent
  cases hdown : Path.after? path p with
  | some q =>
    -- at or below the place of the change
    have habove : notesAbove o ch x (Path.after? p path) = [] := by
      rcases hup : Path.after? p path with _ | _ | ⟨d, s⟩
      · rfl
      · rfl
      · rw [Path.after?_eq_none_of_cons hup] at hdown
        cases hdown
    rw [habove, hdown, List.nil_append, Option.bind_some] at hsent
    have hexplains := hx.explains_partAt ((h.nodeAt path).explains_doomed q) q
    rw [← nodeAt_of_after? hdown] at hexplains
    refine ⟨_, none, hsent, hexplains.sound, fun r => ?_⟩
    rw [h.baseAt_nodeAt_changeAt hx, Path.after?_append_of_some hdown, Option.elim_some,
      ← hexplains.act r]
    rfl
  | none =>
    rw [hdown, Option.bind_none] at hsent
    rcases hup : Path.after? p path with _ | _ | ⟨d, s⟩
    · -- elsewhere
      rw [hup] at hsent
      refine ⟨none, none, hsent, fun _ hy => (nomatch hy), fun r => ?_⟩
      rw [h.baseAt_nodeAt_changeAt hx, Path.after?_append_of_none hdown hup]
      rfl
    · -- nothing is left of the path only if both are equal
      have hpath : path == p := BEq.symm (Path.after?_eq_some_nil_iff.1 hup)
      rw [Path.after?_eq_some_nil_iff.2 hpath] at hdown
      cases hdown
    · -- above
      rw [hup] at hsent
      have hsound : ∀ y ∈ some x, y.Sound := fun y hy => Option.some.inj hy ▸ hx
      refine ⟨some x, some (d :: s), hsent, hsound, fun r => ?_⟩
      rw [h.baseAt_nodeAt_changeAt hx, Path.after?_append_of_front hup]
      rfl

/-- **An observer that replays what it is told of a change follows its node.** -/
theorem Valid.follow_changeAt (h : t.Valid) {x : Change} (hx : x.Sound) {o : Observer}
    {p : Path} (hs : Stands o (some p) t) (ch : Channel) (path : Path)
    (hnone : (t.changeAt ch path x).2.refusal? = none) {c : Context} (hc : c.Valid)
    (hbeq : c == (t.nodeAt p).snapshot) :
    (o.follow (t.changeAt ch path x).2 c).Valid ∧
      o.follow (t.changeAt ch path x).2 c == ((t.changeAt ch path x).1.nodeAt p).snapshot := by
  have hold := (Context.beq_iff_baseAt hc (h.nodeAt p).snapshot).1 hbeq
  have hnew : ((t.changeAt ch path x).1.nodeAt p).snapshot.Valid :=
    ((h.carries_changeAt hx ch path).valid.nodeAt p).snapshot
  obtain ⟨y?, rest, hsent, hsound, hreplayed⟩ := h.exists_replayed hx hs ch path hnone
  obtain ⟨hvalid, hbase⟩ := o.baseAt_follow hsent hsound hc hold
  refine ⟨hvalid, (Context.beq_iff_baseAt hvalid hnew).2 fun r => ?_⟩
  rw [hreplayed r]
  exact hbase r

end LiveTree

end Intension
