import Intension.Proofs.Built
import Intension.Proofs.Patch.Equality

/-!
# Intension.Proofs.Monoid

Patches under composition are a monoid, with the patch that changes nothing as
its unit.  That is so of heads as they follow one another, and equality of
patches in normal form is that of their heads at every path: pruning between
the steps forgets nothing that a later step could ask for.
-/

namespace Intension.Patch

/-! ## heads -/

/-- Of three heads in a row it does not matter which two are taken together first. -/
theorem Head.followedBy_assoc (h k l : Head) :
    (h.followedBy k).followedBy l = h.followedBy (k.followedBy l) := by
  obtain ⟨hbase, hclearsBase, hclearsDims⟩ := h
  obtain ⟨kbase, kclearsBase, kclearsDims⟩ := k
  obtain ⟨lbase, lclearsBase, lclearsDims⟩ := l
  cases kbase <;> cases lbase <;> cases kclearsBase <;> cases lclearsBase <;>
    simp [followedBy, Bool.or_assoc]

/-- The head that does nothing changes no head that follows it. -/
theorem Head.noop_followedBy (h : Head) : noop.head.followedBy h = h := by
  obtain ⟨base, clearsBase, clearsDims⟩ := h
  simp [followedBy, head, noop]

/-- The patch that changes nothing says so everywhere. -/
theorem headAt_noop (r : Path) : noop.headAt false r = noop.head := headAt_absent false r

/-! ## normal form -/

/-- The form in which patches are kept: in order, and without redundant children. -/
structure Reduced (p : Patch) : Prop where
  ordered : p.Ordered
  pruned : p.Pruned false

theorem reduced_noop : noop.Reduced := ⟨ordered_noop, pruned_absent false false⟩

/-- A patch that is built as a whole is kept in this form. -/
theorem Built.reduced {p : Patch} (h : p.Built) : p.Reduced := ⟨h.ordered, h.pruned⟩

namespace Reduced

variable {p q : Patch}

/-- Composed normalized patches are normalized. -/
theorem compose (hp : p.Reduced) (hq : q.Reduced) : (Patch.compose p q).Reduced :=
  ⟨hp.ordered.compose hq.ordered, hp.pruned.composeInto hq.ordered false false hp.ordered⟩

/-- Patches that say the same everywhere are equal. -/
theorem beq_of_headAt (hp : p.Reduced) (hq : q.Reduced)
    (h : ∀ r, p.headAt false r = q.headAt false r) : p == q :=
  (agrees_iff_headAt hp.ordered hp.pruned hq.ordered hq.pruned).2 fun r => h r ▸ Head.same_rfl

end Reduced

/-- **Patches are a monoid under composition**, in the equality of patches themselves and not
only in what they do. -/
theorem compose_monoid {a b c : Patch} (ha : a.Reduced) (hb : b.Reduced) (hc : c.Reduced) :
    (compose a b).Reduced ∧
    compose (compose a b) c == compose a (compose b c) ∧
    compose noop a == a ∧
    a == compose a noop := by
  have hbc : (compose b c).Reduced := hb.compose hc
  refine ⟨ha.compose hb, ?_, ?_, ?_⟩
  · refine ((ha.compose hb).compose hc).beq_of_headAt (ha.compose hbc) fun r => ?_
    rw [headAt_compose hc.ordered, headAt_compose hb.ordered, headAt_compose hbc.ordered,
      headAt_compose hc.ordered, Head.followedBy_assoc]
  · refine (reduced_noop.compose ha).beq_of_headAt ha fun r => ?_
    rw [headAt_compose ha.ordered, headAt_noop, Head.noop_followedBy]
  · refine ha.beq_of_headAt (ha.compose reduced_noop) fun r => ?_
    rw [headAt_compose ordered_noop, headAt_noop, Head.followedBy_noop]

/-- The first patch lists a child without a mark in the region that it clears at `1`, the second
sets a base below another one there, and the third drops what is below `1:3`. -/
theorem compose_monoid_of_regions :
    let a := (noop.setBaseAt [.integer 1, .integer 2, .integer 4] .alpha).setClearDimsAt
      [.integer 1]
    let b := (noop.setBaseAt [.integer 1, .integer 3, .integer 4] .omega).setClearBaseAt []
    let c := (noop.setClearDimsAt [.integer 1, .integer 3]).setClearBaseAt [.integer 1, .integer 2]
    compose (compose a b) c == compose a (compose b c) ∧
    compose noop a == a ∧
    a == compose a noop := by
  intro a b c
  have ha : a.Reduced := (Built.setClearDimsAt (.setBaseAt .noop _ _) _).reduced
  have hb : b.Reduced := (Built.setClearBaseAt (.setBaseAt .noop _ _) _).reduced
  have hc : c.Reduced := (Built.setClearBaseAt (.setClearDimsAt .noop _) _).reduced
  exact (compose_monoid ha hb hc).2

end Intension.Patch
