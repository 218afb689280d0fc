import Intension.Proofs.Patch.Equality
import Intension.Proofs.Patch.Normalizing
import Intension.Proofs.Patch.Spelling

/-!
# Intension.Proofs.Patch.Settled

What shows of normal form.  A text shows every child that is stored, so it becomes
shorter when children are dropped (`Exact.text_normalize_eq_iff`).  Equality looks
past redundant children, but it takes them as they stand and misses those that
become redundant only once their own children are gone.  Patches without such
children are *settled*: they are the ones that are equal to their normal form
(`agrees_normalize_iff`).
-/

namespace Intension.Patch

/-- No child becomes redundant only once its own children are gone, at any depth; `forced` tells
whether the patch stands in a clearing region. -/
inductive Settled : Bool → Patch → Prop
  | intro {forced : Bool} {p : Patch}
      (kept : ∀ e ∈ p.children, e.2.isRedundant (p.clearsDims || forced) = false →
        (e.2.normalize (p.clearsDims || forced)).isRedundant (p.clearsDims || forced) = false)
      (inner : ∀ e ∈ p.children, e.2.isRedundant (p.clearsDims || forced) = false →
        Settled (p.clearsDims || forced) e.2) : Settled forced p

/-- Where nothing is redundant, nothing becomes so. -/
theorem Pruned.settled {forced : Bool} {p : Patch} (h : p.Pruned forced) (hp : p.Exact) :
    p.Settled forced := by
  induction h with
  | @intro forced p kept inner ih =>
    refine .intro (fun e he hkept => ?_) fun e he _ => ih e he (hp.inner e he)
    rw [(hp.inner e he).normalize_eq_self (inner e he)]
    exact hkept

variable {clearing : Bool} {l : List (Dimension × Patch)}

/-! ## equality -/

section

variable (ρ : Relabelling)

/-- Normalizing relabelled children is relabelling normalized ones, if it is so for each. -/
theorem normalizeChildren_relabelled
    (hl : ∀ e ∈ l, (e.2.relabelled ρ).normalize clearing =
      (e.2.normalize clearing).relabelled ρ) :
    normalizeChildren clearing (l.map fun e => (ρ.dimension e.1, e.2.relabelled ρ)) =
      (normalizeChildren clearing l).map fun e => (ρ.dimension e.1, e.2.relabelled ρ) := by
  induction l with
  | nil => rfl
  | cons e l ih =>
    obtain ⟨he, hl⟩ := List.forall_mem_cons.1 hl
    rw [List.map_cons, normalizeChildren_cons, normalizeChildren_cons, he,
      isRedundant_relabelled, ih hl]
    split
    · rfl
    · rw [List.map_cons]

/-- Normal form takes no notice of what equality and texts do not show. -/
theorem normalize_relabelled (forced : Bool) (p : Patch) :
    (p.relabelled ρ).normalize forced = (p.normalize forced).relabelled ρ := by
  induction p using children_induction generalizing forced with
  | step p ih =>
    rw [relabelled_eq, normalize_eq, relabelled_eq, normalize_eq]
    exact congrArg (node _ _ _) (normalizeChildren_relabelled ρ fun e he => ih e he _)

/-- A redundant patch is so in normal form. -/
theorem isRedundant_normalize {p : Patch} (h : p.isRedundant clearing) (forced : Bool) :
    (p.normalize forced).isRedundant clearing := by
  obtain ⟨hhead, hchildren⟩ := isRedundant_iff.1 h
  rw [normalize_eq, hchildren]
  exact isRedundant_iff.2 ⟨hhead, rfl⟩

/-- No more children are left in normal form than are essential. -/
theorem length_normalizeChildren_le_essential (clearing : Bool) (l : List (Dimension × Patch)) :
    (normalizeChildren clearing l).length ≤ (essential clearing l).length := by
  induction l with
  | nil => exact Nat.le_refl _
  | cons e l ih =>
    rw [normalizeChildren_cons, essential, List.filter_cons]
    cases hkept : e.2.isRedundant clearing with
    | true =>
      rw [if_pos (isRedundant_normalize hkept clearing)]
      exact ih
    | false =>
      rw [Bool.not_false, if_pos rfl, List.length_cons]
      split
      · exact Nat.le_succ_of_le ih
      · exact Nat.succ_le_succ ih

/-- The normal form of children agrees with them just if it keeps all that are essential, and if
theirs agree with them. -/
theorem agreesChildren_normalizeChildren_iff :
    agreesChildren clearing
        ((normalizeChildren clearing l).map fun e => (ρ.dimension e.1, e.2.relabelled ρ))
        (essential clearing l) ↔
      ∀ e ∈ l, e.2.isRedundant clearing = false →
        (e.2.normalize clearing).isRedundant clearing = false ∧
          agrees clearing ((e.2.normalize clearing).relabelled ρ) e.2 := by
  have hnormal : ∀ e ∈ (normalizeChildren clearing l).map
      fun e => (ρ.dimension e.1, e.2.relabelled ρ), e.2.isRedundant clearing = false :=
    List.forall_mem_map.2 fun e he => by
      rw [isRedundant_relabelled]
      exact isRedundant_of_mem_normalizeChildren he
  rw [agreesChildren_iff_forall₂ hnormal, List.forall₂_map_left_iff]
  clear hnormal
  induction l with
  | nil => exact iff_of_true .nil (List.forall_mem_nil _)
  | cons e l ih =>
    rw [normalizeChildren_cons, essential, List.filter_cons, List.forall_mem_cons]
    cases hkept : e.2.isRedundant clearing with
    | true =>
      rw [if_pos (isRedundant_normalize hkept clearing)]
      exact ih.trans (by simp)
    | false =>
      rw [Bool.not_false, if_pos rfl]
      cases hdropped : (e.2.normalize clearing).isRedundant clearing with
      | true =>
        -- one child fewer is left than there are essential ones
        rw [if_pos rfl]
        refine iff_of_false (fun h => ?_) (by simp)
        have hlength := h.length_eq
        have hle := length_normalizeChildren_le_essential clearing l
        rw [List.length_cons] at hlength
        exact absurd (hlength ▸ hle) (Nat.not_succ_le_self _)
      | false =>
        rw [if_neg Bool.false_ne_true]
        refine (List.forall₂_cons.trans (and_congr_right fun _ => ih)).trans ?_
        simp [ρ.dimension_beq e.1]

/-- **A patch is equal to its normal form just if it is settled**, whatever names and objects are
put in place of its own. -/
theorem agrees_normalize_iff (forced : Bool) (p : Patch) :
    agrees forced ((p.normalize forced).relabelled ρ) p ↔ p.Settled forced := by
  induction p using children_induction generalizing forced with
  | step p ih =>
    rw [agrees_eq, relabelled_eq, normalize_eq, node, node]
    simp only [Bool.and_eq_true, beq_self_eq_true, true_and, ρ.map_scalar_beq,
      agreesChildren_normalizeChildren_iff]
    constructor
    · intro h
      exact .intro (fun e he hkept => (h e he hkept).1) fun e he hkept =>
        (ih e he _).1 (h e he hkept).2
    · rintro ⟨kept, inner⟩ e he hkept
      exact ⟨kept e he hkept, (ih e he _).2 (inner e he hkept)⟩

end

/-! ## texts -/

/-- Joining terms adds no character but plus signs. -/
theorem count_joinTerms {c : Char} (hc : c ≠ '+') (terms : List Text) :
    (Text.joinTerms terms).count c = terms.flatten.count c := by
  induction terms with
  | nil => rfl
  | cons t terms ih =>
    by_cases hterms : terms = []
    · subst hterms
      simp [Text.joinTerms]
    · rw [Text.joinTerms_cons hterms, List.flatten_cons, List.count_append, List.count_append,
        List.count_cons_of_ne hc.symm, ih]

/-- Brackets open for the node itself and for those in its terms. -/
theorem count_text (p : Patch) : p.text.count '[' =
    p.headTerms.flatten.count '[' + (childTerms p.children).flatten.count '[' + 1 := by
  obtain ⟨base, children, clearsBase, clearsDims, bases, blanks⟩ := p
  rw [text, squared, List.count_cons_self, List.count_append, count_joinTerms (by decide),
    List.flatten_append, List.count_append]
  rfl

/-- Brackets open in a child's key and in its patch, and then in the other children. -/
theorem count_childTerms_cons (e : Dimension × Patch) (l : List (Dimension × Patch)) :
    (childTerms (e :: l)).flatten.count '[' =
      e.1.text.count '[' + e.2.text.count '[' + (childTerms l).flatten.count '[' := by
  rw [childTerms, List.flatten_cons, List.count_append, List.count_append,
    List.count_cons_of_ne (by decide)]

/-- Children that are not in normal form open more brackets than their normal form. -/
theorem normalizeChildren_eq_self_or_lt
    (hl : ∀ e ∈ l, e.2.normalize clearing = e.2 ∨
      (e.2.normalize clearing).text.count '[' < e.2.text.count '[') :
    normalizeChildren clearing l = l ∨
      (childTerms (normalizeChildren clearing l)).flatten.count '[' <
        (childTerms l).flatten.count '[' := by
  induction l with
  | nil => exact .inl rfl
  | cons e l ih =>
    obtain ⟨he, hl⟩ := List.forall_mem_cons.1 hl
    have hrest := ih hl
    have hle : (childTerms (normalizeChildren clearing l)).flatten.count '[' ≤
        (childTerms l).flatten.count '[' := hrest.elim (fun h => by rw [h]) Nat.le_of_lt
    rw [normalizeChildren_cons, count_childTerms_cons]
    split
    · have hopen := count_text e.2
      exact .inr (by omega)
    · rw [count_childTerms_cons]
      dsimp only
      obtain he | he := he
      · obtain hrest | hrest := hrest
        · exact .inl (by rw [he, hrest])
        · exact .inr (by rw [he]; omega)
      · exact .inr (by omega)

/-- A patch that is not in normal form opens more brackets than its normal form. -/
theorem Exact.normalize_eq_self_or_lt {p : Patch} (h : p.Exact) (forced : Bool) :
    p.normalize forced = p ∨ (p.normalize forced).text.count '[' < p.text.count '[' := by
  induction h generalizing forced with
  | @intro p sorted bases blanks inner ih =>
    rw [normalize_eq]
    obtain hself | hless := normalizeChildren_eq_self_or_lt fun e he =>
      ih e he (p.clearsDims || forced)
    · rw [hself]
      exact .inl (Exact.node_eq (.intro sorted bases blanks inner))
    · refine .inr ?_
      rw [count_text, count_text]
      exact Nat.add_lt_add_right (Nat.add_lt_add_left hless _) 1

/-- **Normal form leaves the text as it is just if nothing is redundant.** -/
theorem Exact.text_normalize_eq_iff {p : Patch} (h : p.Exact) (forced : Bool) :
    (p.normalize forced).text = p.text ↔ p.Pruned forced := by
  constructor
  · intro htext
    obtain hself | hless := h.normalize_eq_self_or_lt forced
    · exact hself ▸ pruned_normalize forced p
    · exact absurd (congrArg (List.count '[') htext) hless.ne
  · intro hpruned
    rw [h.normalize_eq_self hpruned]

end Intension.Patch
