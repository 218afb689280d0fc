import Intension.Proofs.Change
import Intension.Proofs.Grammar.Stability
import Intension.Proofs.Monoid

/-!
# Intension.Proofs.Idempotence

A change that is delivered twice does what it does once.  The second time it meets nodes
that the first one created, cleared or pruned, but at every path it says the same as
before, and a head followed by itself is that head: what it sets is set, and what it
clears is cleared already.

The patch of a context says everywhere what is to be there, so nothing that was there
before matters: not to what it makes of a context, and not where it is composed after
another patch.  It is written as the context is, and that text is read as it.
-/

namespace Intension

namespace Patch

/-- A head followed by itself is the head. -/
theorem Head.followedBy_self (h : Head) : h.followedBy h = h := by
  obtain ⟨base, clearsBase, clearsDims⟩ := h
  cases base <;> cases clearsBase <;> simp [followedBy]

/-- A head that acts twice does what it does once. -/
theorem Head.act_act (h : Head) (old : Option Scalar) : h.act (h.act old) = h.act old := by
  rw [← act_followedBy, followedBy_self]

/-- A patch composed with itself is still the same patch. -/
theorem Reduced.compose_self {p : Patch} (hp : p.Reduced) : Patch.compose p p == p :=
  (hp.compose hp).beq_of_headAt hp fun r => by
    rw [headAt_compose hp.ordered, Head.followedBy_self]

end Patch

namespace Context

/-- **A change made a second time changes nothing more**, at the end of any path. -/
theorem Valid.changeAt_changeAt {c : Context} (hc : c.Valid) {x : Change} (hx : x.Sound)
    (path : Path) : (c.changeAt path x).changeAt path x == c.changeAt path x := by
  have honce : (c.changeAt path x).Valid := hc.changeAt hx path
  refine (beq_iff_baseAt (honce.changeAt hx path) honce).2 fun q => ?_
  rw [baseAt_changeAt honce hx, baseAt_changeAt hc hx]
  cases Path.after? path q with
  | none => exact BEq.rfl
  | some r =>
    rw [Option.elim_some, Option.elim_some, Patch.Head.act_act]
    exact BEq.rfl

/-- **Patching is idempotent**, at the top and at the end of any path, and so is composition: a
patch in normal form composed with itself is that patch and not only one of the same effect. -/
theorem apply_idempotent {c : Context} (hc : c.Reachable) {p : Patch} (hp : p.Reduced)
    (path : Path) :
    (c.apply p).apply p == c.apply p ∧
    (c.applyAt path p).applyAt path p == c.applyAt path p ∧
    Patch.compose p p == p :=
  ⟨hc.valid.changeAt_changeAt (x := .patch p) hp.ordered [],
    hc.valid.changeAt_changeAt (x := .patch p) hp.ordered path, hp.compose_self⟩

/-- In the region that the patch clears at `1` it lists `1:2` and `1:4` without a mark: they keep their
bases, and `1:4:6` goes.  At `5` it makes a node that was not there. -/
theorem apply_idempotent_of_region :
    let c := ((empty.setBaseAt [.integer 1, .integer 2] .omega).setBaseAt
      [.integer 1, .integer 4, .integer 6] .omega).setBaseAt [.integer 1, .integer 4] .alpha
    let p := (((Patch.noop.setBaseAt [.integer 1, .integer 2, .integer 3] .alpha).setClearDimsAt
      [.integer 1]).resetClearBaseAt [.integer 1, .integer 4]).setBaseAt [.integer 5] .alpha
    (c.apply p).apply p == c.apply p ∧
      (c.applyAt [.integer 1] p).applyAt [.integer 1] p == c.applyAt [.integer 1] p ∧
      Patch.compose p p == p ∧
      (c.apply p).text = "<1:<2:<^+3:<~>>+4:<~>>+5:<~>>".toList := by
  intro c p
  have hc : c.Reachable := .setBaseAt (.setBaseAt (.setBaseAt .empty _ _) _ _) _ _
  have hp : p.Reduced :=
    (Patch.Built.setBaseAt (.resetClearBaseAt (.setClearDimsAt (.setBaseAt .noop _ _) _) _) _
      _).reduced
  obtain ⟨htop, hbelow, hcompose⟩ := apply_idempotent hc hp [.integer 1]
  exact ⟨htop, hbelow, hcompose, by decide +kernel⟩

end Context

/-! ## the patch of a context -/

namespace Patch

/-! ## clearing everything -/

/-- What clears everywhere covers the patch it is composed after. -/
theorem Reduced.compose_beq_of_clears {p q : Patch} (hp : p.Reduced) (hq : q.Reduced)
    (hclears : ∀ r, (q.headAt false r).clearsBase ∧ (q.headAt false r).clearsDims) :
    Patch.compose p q == q :=
  (hp.compose hq).beq_of_headAt hq fun r => by
    rw [headAt_compose hq.ordered, Head.followedBy_of_clears (hclears r).1 (hclears r).2]

/-- The patch of a context clears base and children at every node. -/
theorem headAt_ofContext_clears (c : Context) (r : Path) :
    ((ofContext c).headAt false r).clearsBase ∧ ((ofContext c).headAt false r).clearsDims := by
  rw [headAt_ofContext]
  exact ⟨rfl, rfl⟩

/-! ## patches of contexts -/

/-- **The patch of a context is absolute**: it makes the same tree of every other context and of
the empty one, composed after any patch in normal form it is still the same, and in texts it is not
told from the context. -/
theorem ofContext_absolute {c d : Context} (hc : c.Reachable) (hd : d.Reachable) {p : Patch}
    (hp : p.Reduced) :
    c.apply (.ofContext d) = d ∧
    Context.ofPatch (.ofContext d) = d ∧
    compose p (.ofContext d) == .ofContext d ∧
    (ofContext d).shortText = d.text ∧
    ∀ (limits : Limits) (t : Text) (e : Context),
      Context.parse limits t = .ok e → Patch.parse limits t = .ok (.ofContext e) := by
  have hreduced : (ofContext d).Reduced := (Built.ofContext hd).reduced
  refine ⟨Context.apply_ofContext hc.valid hd.valid, Context.ofPatch_ofContext hd.valid, ?_,
    spelling_ofContext d, fun limits t e he => parse_of_context he⟩
  exact hp.compose_beq_of_clears hreduced (headAt_ofContext_clears d)

/-- The context before has a quoted key where the one to be made has it bare, and more below that.
The patch before lists a child without marks in a region that it clears.  The text to be read has a
child that is not kept. -/
theorem ofContext_absolute_over_regions :
    let c := (Context.empty.setBaseAt [.name ['a'] true, .integer 1] .alpha).setBaseAt [] .omega
    let d := Context.empty.setBaseAt [.name ['a'] false, .integer 2] .omega
    let p := (noop.setBaseAt [.name ['a'] true, .integer 2, .integer 3] .alpha).setClearDimsAt []
    c.apply (.ofContext d) = d ∧
      Context.ofPatch (.ofContext d) = d ∧
      compose p (.ofContext d) == .ofContext d ∧
      (ofContext d).shortText = "<a:<2:<^>>>".toList ∧
      ∃ e, Context.parse ⟨0, 0, 0, 2⟩ "<a:<>+b:<^>>".toList = .ok e ∧ e.text = "<b:<^>>".toList ∧
        Patch.parse ⟨0, 0, 0, 2⟩ "<a:<>+b:<^>>".toList = .ok (.ofContext e) := by
  intro c d p
  have hc : c.Reachable := (Context.Reachable.empty.setBaseAt _ _).setBaseAt _ _
  have hd : d.Reachable := Context.Reachable.empty.setBaseAt _ _
  have hp : p.Reduced := (Built.setClearDimsAt (.setBaseAt .noop _ _) _).reduced
  have hread : (Context.parse ⟨0, 0, 0, 2⟩ "<a:<>+b:<^>>".toList).toOption.any
      fun e => e.text = "<b:<^>>".toList := by decide +kernel
  obtain ⟨e, he, htext⟩ := Grammar.exists_of_any_toOption hread
  obtain ⟨happly, hmade, hcompose, hshort, hparse⟩ := ofContext_absolute hc hd hp
  exact ⟨happly, hmade, hcompose, hshort.trans (by decide +kernel),
    e, he, of_decide_eq_true htext, hparse _ _ e he⟩

end Patch

end Intension
