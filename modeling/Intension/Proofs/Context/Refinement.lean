import Intension.Proofs.Context.Equality

/-!
# Intension.Proofs.Context.Refinement

Refinement of contexts, path by path: every base on the left is matched by one
on the right that it refines to (`refines_iff_baseAt`).  So refinement is a
partial order up to equality, and the short cut by equality that `refines`
takes does not change its answer.
-/

namespace Intension.Context

open Std

/-- An empty node refines to everything, any other one needs its base matched and all of its
children. -/
theorem refinesView_eq (a b : Context) : refinesView a b =
    if a.baseCount = 0 then true
    else if b.isEmpty then false
    else (match a.base with
      | none => true
      | some v => match b.base with
        | some w => v.refines w
        | none => false) && refinesChildren a.children b := by
  cases a
  exact refinesView.eq_def _ _

/-- Whether a base is matched where the other context may have none. -/
theorem match_base_iff (v w : Option Scalar) : (match v with
      | none => true
      | some x => match w with
        | some y => x.refines y
        | none => false) = true ↔ ∀ x, v = some x → ∃ y, w = some y ∧ x.refines y := by
  cases v <;> cases w <;> simp

/-- Children that hold bases are matched when each refines to the child along its dimension. -/
theorem refinesChildren_iff {l : List (Dimension × Context)} {b : Context}
    (hl : ∀ e ∈ l, e.2.isEmpty = false) :
    refinesChildren l b ↔ ∀ e ∈ l, refinesView e.2 (b.along e.1) := by
  induction l with
  | nil => simp [refinesChildren]
  | cons e l ih =>
    obtain ⟨d, c⟩ := e
    obtain ⟨hc, hl⟩ := List.forall_mem_cons.1 hl
    rw [List.forall_mem_cons, ← ih hl, refinesChildren, Bool.and_eq_true]
    refine and_congr_left fun _ => ?_
    have hcount : c.baseCount ≠ 0 := by simpa [isEmpty] using hc
    rw [along]
    cases b.child? d with
    | none => simp [hc, refinesView_eq, hcount]
    | some k =>
      by_cases hk : k.isEmpty
      · simp [hc, hk, refinesView_eq, hcount]
      · simp [hc, hk]

/-- Refinement of views, path by path. -/
theorem refinesView_iff_baseAt {a b : Context} (ha : a.Valid) (hb : b.Valid) :
    refinesView a b ↔
      ∀ p v, a.baseAt p = some v → ∃ w, b.baseAt p = some w ∧ v.refines w := by
  induction ha generalizing b with
  | @intro a sorted count nonempty inner ih =>
    have ha : a.Valid := .intro sorted count nonempty inner
    rw [refinesView_eq]
    by_cases hcount : a.baseCount = 0
    · have hempty := (isEmpty_iff_baseAt ha).1 (isEmpty_iff.2 hcount)
      simp [hcount, hempty]
    rw [if_neg hcount]
    by_cases hbempty : b.isEmpty
    · obtain ⟨p, v, hv⟩ := exists_baseAt ha (by simpa [isEmpty] using hcount)
      have hnone := (isEmpty_iff_baseAt hb).1 hbempty
      simp only [hbempty, if_pos, Bool.false_eq_true, false_iff, hnone]
      intro h
      obtain ⟨w, hw, -⟩ := h p v hv
      cases hw
    rw [if_neg hbempty, Bool.and_eq_true, match_base_iff, refinesChildren_iff nonempty]
    constructor
    · rintro ⟨hbase, hchildren⟩ p v hv
      cases p with
      | nil => exact hbase v hv
      | cons d p =>
        rw [baseAt_cons, along] at hv
        cases hget : a.child? d with
        | none => simp [hget] at hv
        | some c =>
          obtain ⟨e, hde, he⟩ := Keyed.mem_of_get? hget
          rw [baseAt_cons, along_congr hde]
          rw [hget] at hv
          exact (ih _ he (hb.along e)).1 (hchildren _ he) p v hv
    · intro h
      refine ⟨h [], fun e he => (ih e he (hb.along e.1)).2 fun p v hv => ?_⟩
      rw [← baseAt_cons]
      refine h (e.1 :: p) v ?_
      rw [baseAt_cons, along, child?, sorted.get?_of_mem he]
      exact hv

/-- Equal contexts refine to each other also without the test for equality. -/
theorem refinesView_of_beq {a b : Context} (ha : a.Valid) (hb : b.Valid) (h : a == b) :
    refinesView a b := by
  refine (refinesView_iff_baseAt ha hb).2 fun p v hv => ?_
  have hp := (beq_iff_baseAt ha hb).1 h p
  rw [hv] at hp
  cases hw : b.baseAt p with
  | none => simp [hw] at hp
  | some w =>
    rw [hw] at hp
    exact ⟨w, rfl, Scalar.refines_of_beq hp⟩

/-- The short cut by equality does not change the answer. -/
theorem refines_eq_refinesView {a b : Context} (ha : a.Valid) (hb : b.Valid) :
    a.refines b = refinesView a b := by
  rw [Bool.eq_iff_iff, refines, Bool.or_eq_true, Bool.and_eq_true]
  exact or_iff_right_of_imp fun h => refinesView_of_beq ha hb h.2

/-- **Refinement is pointwise.** -/
theorem refines_iff_baseAt {a b : Context} (ha : a.Valid) (hb : b.Valid) :
    a.refines b ↔ ∀ p v, a.baseAt p = some v → ∃ w, b.baseAt p = some w ∧ v.refines w := by
  rw [refines_eq_refinesView ha hb, refinesView_iff_baseAt ha hb]

/-! ## a partial order -/

namespace Valid

variable {a b c : Context}

theorem refines_refl (ha : a.Valid) : a.refines a :=
  (refines_iff_baseAt ha ha).2 fun _ v hv => ⟨v, hv, Scalar.refines_refl v⟩

theorem refines_of_beq (ha : a.Valid) (hb : b.Valid) (h : a == b) : a.refines b := by
  rw [refines_eq_refinesView ha hb]
  exact refinesView_of_beq ha hb h

/-- Refinement is transitive, since it is so at each path. -/
theorem refines_trans (ha : a.Valid) (hb : b.Valid) (hc : c.Valid) (hab : a.refines b)
    (hbc : b.refines c) : a.refines c := by
  rw [refines_iff_baseAt ha hb] at hab
  rw [refines_iff_baseAt hb hc] at hbc
  refine (refines_iff_baseAt ha hc).2 fun p v hv => ?_
  obtain ⟨w, hw, hvw⟩ := hab p v hv
  obtain ⟨x, hx, hwx⟩ := hbc p w hw
  exact ⟨x, hx, Scalar.refines_trans hvw hwx⟩

/-- **Contexts that refine to each other are equal**. -/
theorem beq_of_refines (ha : a.Valid) (hb : b.Valid) (hab : a.refines b) (hba : b.refines a) :
    a == b := by
  rw [refines_iff_baseAt ha hb] at hab
  rw [refines_iff_baseAt hb ha] at hba
  refine (beq_iff_baseAt ha hb).2 fun p => ?_
  cases hv : a.baseAt p with
  | some v =>
    obtain ⟨w, hw, hvw⟩ := hab p v hv
    obtain ⟨x, hx, hwx⟩ := hba p w hw
    obtain rfl : v = x := Option.some.inj (hv.symm.trans hx)
    rw [hw]
    exact Scalar.beq_of_refines hvw hwx
  | none =>
    cases hw : b.baseAt p with
    | none => exact BEq.rfl
    | some w =>
      obtain ⟨x, hx, -⟩ := hba p w hw
      rw [hv] at hx
      cases hx

end Valid

end Intension.Context
