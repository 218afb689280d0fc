import Intension.Proofs.Change
import Intension.Proofs.Patch.Editing
import Intension.Proofs.Reachable

/-!
# Intension.Proofs.Law

What patches do, told place by place, and the laws of composition.  To know the
base at a path after a patch it is enough to walk down the patch along that path and
to remember whether a node on the way clears dimensions (`Patch.walk`); nothing else
of the patch or of the context bears on it.  The nodes that are there afterwards are
those with a base at or below them.

One patch composed of two acts on every context like the two in turn, also where the
second is composed at the end of a path.  Both sides are compared base by base, where
a patch is its head at that path and composed patches are composed heads.
-/

namespace Intension

/-! ## walking down a patch -/

/-- The base that a patch leaves at the end of a path, where `old` was before: what the node
there says or, if the walk leaves the listed children, whether a node passed on the way clears
dimensions.  `cleared` tells whether one did so above this patch. -/
def Patch.walk (cleared : Bool) (old : Option Scalar) : Patch → Path → Option Scalar
  | p, [] => match p.base with
    | some v => some v
    | none => if p.clearsBase then none else old
  | p, d :: q => match p.child? d with
    | some k => k.walk (cleared || p.clearsDims) old q
    | none => if cleared || p.clearsDims then none else old

/-- The walk finds what the head at the end of the path makes of the base there. -/
theorem Patch.walk_eq (cleared : Bool) (old : Option Scalar) (p : Patch) (q : Path) :
    p.walk cleared old q = (p.headAt cleared q).act old := by
  induction q generalizing cleared p with
  | nil => rfl
  | cons d q ih =>
    rw [walk, headAt_cons, along, Bool.or_comm p.clearsDims]
    cases p.child? d with
    | none => rw [Option.getD_none, headAt_absent, act_head_absent]
    | some k => exact ih _ k

namespace Context

/-- **A patch acts pointwise**: the base at a path after it is found by walking down the patch
along that path, and below the top there is a node just where there is a base at or below it. -/
theorem baseAt_apply_eq_walk {c : Context} (hc : c.Reachable) {p : Patch} (hp : p.Ordered)
    (q : Path) :
    (c.apply p).baseAt q = p.walk false (c.baseAt q) q ∧
    (q ≠ [] → ((∃ k, (c.apply p).get? q = some k) ↔
      ∃ r v, (c.apply p).baseAt (q ++ r) = some v)) :=
  ⟨by rw [baseAt_apply hc.valid hp, Patch.walk_eq], (hc.valid.apply hp).exists_get?_iff⟩

/-- A patch that clears what is below `1` and lists `1:2:4` there: the node at `1:2`, which it
passes without a mark, keeps its base and loses its child along `5`. -/
theorem baseAt_apply_eq_walk_forced :
    let c := ((empty.setBaseAt [.integer 1, .integer 2] .omega).setBaseAt
      [.integer 1, .integer 2, .integer 5] .omega)
    let p := (Patch.noop.setBaseAt [.integer 1, .integer 2, .integer 4] .alpha).setClearDimsAt
      [.integer 1]
    (c.apply p).baseAt [.integer 1, .integer 2] = some .omega ∧
    (c.apply p).baseAt [.integer 1, .integer 2, .integer 5] = none ∧
    ∃ k, (c.apply p).get? [.integer 1] = some k := by
  intro c p
  have hc : c.Reachable := .setBaseAt (.setBaseAt .empty _ _) _ _
  have hp : p.Ordered := (Patch.Reachable.setClearDimsAt (.setBaseAt .noop _ _) _).ordered
  obtain ⟨hkept, _⟩ := baseAt_apply_eq_walk hc hp [.integer 1, .integer 2]
  obtain ⟨hlost, _⟩ := baseAt_apply_eq_walk hc hp [.integer 1, .integer 2, .integer 5]
  obtain ⟨_, hnode⟩ := baseAt_apply_eq_walk hc hp [.integer 1]
  exact ⟨hkept.trans rfl, hlost.trans rfl, (hnode nofun).2 ⟨[.integer 2], .omega, hkept.trans rfl⟩⟩

/-! ## composition at the top -/

/-- Two patches in turn, seen at one path. -/
theorem baseAt_apply_apply {c : Context} (hc : c.Valid) {p q : Patch} (hp : p.Ordered)
    (hq : q.Ordered) (r : Path) : ((c.apply p).apply q).baseAt r =
      ((p.headAt false r).followedBy (q.headAt false r)).act (c.baseAt r) := by
  rw [baseAt_apply (hc.apply hp) hq, baseAt_apply hc hp, Patch.Head.act_followedBy]

/-- **Composition law**: a composed patch acts like its parts in turn, in and out of
clearing regions. -/
theorem apply_compose {c : Context} (hc : c.Reachable) {p q : Patch} (hp : p.Reachable)
    (hq : q.Reachable) : (c.apply p).apply q == c.apply (.compose p q) := by
  have hpq : (Patch.compose p q).Ordered := hp.ordered.compose hq.ordered
  have htwice : ((c.apply p).apply q).Valid := (hc.valid.apply hp.ordered).apply hq.ordered
  rw [beq_iff_baseAt htwice (hc.valid.apply hpq)]
  intro r
  have hr : ((c.apply p).apply q).baseAt r = (c.apply (.compose p q)).baseAt r := by
    rw [baseAt_apply_apply hc.valid hp.ordered hq.ordered, baseAt_apply hc.valid hpq,
      Patch.headAt_compose hq.ordered]
  rw [hr]
  exact BEq.rfl

/-- The first patch clears what is below `1` but for `1:2`, the second sets a base in that
region and clears the base it finds at the top. -/
theorem apply_compose_clearing_region :
    ((((empty.setBaseAt [] .omega).setBaseAt [.integer 1, .integer 3] .alpha).apply
        ((Patch.noop.setBaseAt [.integer 1, .integer 2] .alpha).setClearDimsAt
          [.integer 1])).apply
        ((Patch.noop.setBaseAt [.integer 1, .integer 3, .integer 4] .omega).setClearBaseAt [])) ==
      ((empty.setBaseAt [] .omega).setBaseAt [.integer 1, .integer 3] .alpha).apply
        (.compose
          ((Patch.noop.setBaseAt [.integer 1, .integer 2] .alpha).setClearDimsAt [.integer 1])
          ((Patch.noop.setBaseAt [.integer 1, .integer 3, .integer 4] .omega).setClearBaseAt
            [])) :=
  apply_compose ((Reachable.empty.setBaseAt [] .omega).setBaseAt _ .alpha)
    ((Patch.Reachable.noop.setBaseAt _ .alpha).setClearDimsAt _)
    ((Patch.Reachable.noop.setBaseAt _ .omega).setClearBaseAt [])

/-! ## composition at the end of a path -/

/-- A patch composed at the end of a path, seen at one path. -/
theorem baseAt_apply_composeAt {c : Context} (hc : c.Valid) {p q : Patch} (hp : p.Ordered)
    (hq : q.Ordered) (path r : Path) : (c.apply (.composeAt path q p)).baseAt r =
      ((c.apply p).applyAt path q).baseAt r := by
  have hturn : ((c.apply p).applyAt path q).baseAt r =
      (Path.after? path r).elim ((c.apply p).baseAt r)
        fun s => (q.headAt false s).act ((c.apply p).baseAt r) :=
    baseAt_changeAt (hc.apply hp) (x := .patch q) hq path r
  rw [hturn, baseAt_apply hc (hp.composeAt hq path), baseAt_apply hc hp,
    Patch.headAt_composeAt hq]
  cases Path.after? path r with
  | none => rfl
  | some s => exact Patch.Head.act_followedBy _ _ _

/-- **Composing at the end of a path is patching there**: after one patch, in and out of the
regions that it clears, and so from the patch that changes nothing.  The patches need not be in
normal form, only in order. -/
theorem apply_composeAt {c : Context} (hc : c.Reachable) {p q : Patch} (hp : p.Ordered)
    (hq : q.Ordered) (path : Path) :
    c.apply (.composeAt path q p) == (c.apply p).applyAt path q ∧
    c.apply (.composeAt path q .noop) == c.applyAt path q := by
  have hturn {p : Patch} (hp : p.Ordered) :
      c.apply (.composeAt path q p) == (c.apply p).applyAt path q := by
    refine (beq_iff_baseAt (hc.valid.apply (hp.composeAt hq path))
      ((hc.valid.apply hp).editAt (fun _ hk => hk.apply hq) path)).2 fun r => ?_
    rw [baseAt_apply_composeAt hc.valid hp hq]
    exact BEq.rfl
  exact ⟨hturn hp, hturn Patch.ordered_noop⟩

/-- The first patch clears what is below `1` but for `1:2`.  The second one goes to `1:3`, which is
absent there: it must neither bring back the base at `1:3` nor that at `1:3:5`. -/
theorem apply_composeAt_of_absent :
    let c := ((empty.setBaseAt [.integer 1, .integer 2] .omega).setBaseAt
      [.integer 1, .integer 3] .alpha).setBaseAt [.integer 1, .integer 3, .integer 5] .alpha
    let p := (Patch.noop.setBaseAt [.integer 1, .integer 2] .alpha).setClearDimsAt [.integer 1]
    let q := Patch.noop.setBaseAt [.integer 4] .omega
    c.apply (.composeAt [.integer 1, .integer 3] q p) ==
        (c.apply p).applyAt [.integer 1, .integer 3] q ∧
      c.apply (.composeAt [.integer 1, .integer 3] q .noop) ==
        c.applyAt [.integer 1, .integer 3] q ∧
      (c.apply (.composeAt [.integer 1, .integer 3] q p)).text = "<1:<2:<~>+3:<4:<^>>>>".toList := by
  intro c p q
  have hc : c.Reachable := ((Reachable.empty.setBaseAt _ _).setBaseAt _ _).setBaseAt _ _
  have hp : p.Ordered := ((Patch.Reachable.noop.setBaseAt _ _).setClearDimsAt _).ordered
  have hq : q.Ordered := (Patch.Reachable.noop.setBaseAt _ _).ordered
  obtain ⟨hturn, hnoop⟩ := apply_composeAt hc hp hq [.integer 1, .integer 3]
  exact ⟨hturn, hnoop, by decide +kernel⟩

end Context

end Intension
