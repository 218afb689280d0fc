import Intension.Context.Order
import Intension.Proofs.Context.Shape

/-!
# Intension.Proofs.Context.Equality

Equality of contexts, which is that of their total order.  On contexts of the
right shape the tie-break by counts never hides a difference: equal contexts
are equal node by node (`cmp_eq_eq_iff`), and so contexts are equal exactly
when they carry equal bases at every path (`beq_iff_baseAt`).
-/

namespace Intension.Context

open Std

/-! ## equality, one node at a time -/

/-- Contexts are compared by their bases, then by their children, and the counts decide where one
list of children ends first. -/
theorem cmp_eq (a b : Context) : cmp a b = (compare a.base b.base).then
    (cmpChildren (compare a.baseCount b.baseCount) a.children (live b.children)) := by
  cases a
  rfl

/-- In a context of the right shape no child has to be passed over. -/
theorem live_children {b : Context} (hb : b.Valid) : live b.children = b.children :=
  List.filter_eq_self.2 fun e he => by simp [hb.nonempty e he]

/-- First children are compared by dimension, then as contexts, then by what follows them. -/
theorem cmpChildren_cons_cons {byCount : Ordering} {e k : Dimension × Context}
    {l m : List (Dimension × Context)} (he : e.2.isEmpty = false) :
    cmpChildren byCount (e :: l) (k :: m) =
      (compare e.1 k.1).then ((cmp e.2 k.2).then (cmpChildren byCount l m)) := by
  obtain ⟨d, c⟩ := e
  rw [cmpChildren, if_neg (by simp [he])]

/-- Where the right children have ended, the left ones come after unless the counts are equal. -/
theorem cmpChildren_cons_nil {byCount : Ordering} {e : Dimension × Context}
    {l : List (Dimension × Context)} (he : e.2.isEmpty = false) :
    cmpChildren byCount (e :: l) [] = if byCount == .eq then .eq else .gt := by
  obtain ⟨d, c⟩ := e
  rw [cmpChildren, if_neg (by simp [he])]

/-- The order passes over a child without a base. -/
theorem cmpChildren_cons_of_isEmpty {byCount : Ordering} {e : Dimension × Context}
    (he : e.2.isEmpty) (l m : List (Dimension × Context)) :
    cmpChildren byCount (e :: l) m = cmpChildren byCount l m := by
  obtain ⟨d, c⟩ := e
  rw [cmpChildren.eq_def]
  simp only [if_pos he]

/-- What is left over on one side holds bases. -/
theorem totalBases_cons_ne {e : Dimension × Context} {l : List (Dimension × Context)}
    (he : e.2.isEmpty = false) : totalBases (e :: l) ≠ 0 := by
  simp only [isEmpty, beq_eq_false_iff_ne] at he
  simp only [totalBases_eq, Keyed.total_cons]
  omega

/-- Equal totals with equal first counts leave equal totals. -/
theorem totalBases_tail {e k : Dimension × Context} {l m : List (Dimension × Context)}
    (hek : e.2.baseCount = k.2.baseCount) (h : totalBases (e :: l) = totalBases (k :: m)) :
    totalBases l = totalBases m := by
  simp only [totalBases_eq, Keyed.total_cons] at h ⊢
  omega

/-- Children that compare equal are equal one by one, if equal counts of the whole trees
(`byCount`) mean equal totals. -/
theorem forall₂_of_cmpChildren_eq {byCount : Ordering} {l m : List (Dimension × Context)}
    (hl : ∀ e ∈ l, e.2.isEmpty = false) (hm : ∀ k ∈ m, k.2.isEmpty = false)
    (hpair : ∀ e ∈ l, ∀ k ∈ m, cmp e.2 k.2 = .eq → e.2.baseCount = k.2.baseCount)
    (hcount : byCount = .eq → totalBases l = totalBases m) (h : cmpChildren byCount l m = .eq) :
    List.Forall₂ (fun e k => e.1 == k.1 ∧ cmp e.2 k.2 = .eq) l m := by
  induction l generalizing m with
  | nil =>
    cases m with
    | nil => exact .nil
    | cons k m =>
      have htotal := hcount (by cases byCount <;> first | rfl | cases h)
      exact absurd htotal.symm (totalBases_cons_ne (hm k List.mem_cons_self))
  | cons e l ih =>
    obtain ⟨he, hl⟩ := List.forall_mem_cons.1 hl
    cases m with
    | nil =>
      rw [cmpChildren_cons_nil he] at h
      have htotal := hcount (by cases byCount <;> first | rfl | cases h)
      exact absurd htotal (totalBases_cons_ne he)
    | cons k m =>
      obtain ⟨hk, hm⟩ := List.forall_mem_cons.1 hm
      rw [cmpChildren_cons_cons he, Ordering.then_eq_eq, Ordering.then_eq_eq] at h
      have hek := hpair e List.mem_cons_self k List.mem_cons_self h.2.1
      refine .cons ⟨compare_eq_iff_beq.1 h.1, h.2.1⟩ (ih hl hm ?_ ?_ h.2.2)
      · exact fun x hx y hy => hpair x (List.mem_cons_of_mem _ hx) y (List.mem_cons_of_mem _ hy)
      · exact fun hc => totalBases_tail hek (hcount hc)

/-- Children that are equal one by one compare as equal, whatever the counts. -/
theorem cmpChildren_eq_of_forall₂ {byCount : Ordering} {l m : List (Dimension × Context)}
    (hl : ∀ e ∈ l, e.2.isEmpty = false)
    (h : List.Forall₂ (fun e k => e.1 == k.1 ∧ cmp e.2 k.2 = .eq) l m) :
    cmpChildren byCount l m = .eq := by
  induction h with
  | nil => rfl
  | cons hek _ ih =>
    obtain ⟨he, hl⟩ := List.forall_mem_cons.1 hl
    rw [cmpChildren_cons_cons he, compare_eq_iff_beq.2 hek.1, hek.2, ih hl]
    rfl

/-- With equal bases, equal counts are equal totals of the children. -/
theorem totalBases_eq_iff {a b : Context} (ha : a.Valid) (hb : b.Valid)
    (h : a.base == b.base) :
    totalBases a.children = totalBases b.children ↔ a.baseCount = b.baseCount := by
  have hlength : a.base.toList.length = b.base.toList.length := by
    cases ha' : a.base <;> cases hb' : b.base <;> simp_all
  rw [ha.count, hb.count]
  omega

/-- Contexts that compare equal have as many bases. -/
theorem baseCount_eq_of_cmp_eq {a b : Context} (ha : a.Valid) (hb : b.Valid)
    (h : cmp a b = .eq) : a.baseCount = b.baseCount := by
  induction ha generalizing b with
  | @intro a sorted count nonempty inner ih =>
    have ha : a.Valid := .intro sorted count nonempty inner
    rw [cmp_eq, Ordering.then_eq_eq, live_children hb] at h
    have hbase : a.base == b.base := compare_eq_iff_beq.1 h.1
    have hpairs := forall₂_of_cmpChildren_eq nonempty hb.nonempty
      (fun e he k hk => ih e he (hb.inner k hk))
      (fun hc => (totalBases_eq_iff ha hb hbase).2 (Nat.compare_eq_eq.1 hc)) h.2
    exact (totalBases_eq_iff ha hb hbase).1 <|
      Keyed.total_eq_of_forall₂ hpairs fun e he k hk hek => ih e he (hb.inner k hk) hek.2

/-- Contexts compare equal when their bases are equal and their children are one by one. -/
theorem cmp_eq_eq_iff {a b : Context} (ha : a.Valid) (hb : b.Valid) :
    cmp a b = .eq ↔ a.base == b.base ∧
      List.Forall₂ (fun e k => e.1 == k.1 ∧ cmp e.2 k.2 = .eq) a.children b.children := by
  rw [cmp_eq, Ordering.then_eq_eq, live_children hb, compare_eq_iff_beq]
  refine and_congr_right fun hbase => ⟨fun h => ?_, fun h => ?_⟩
  · exact forall₂_of_cmpChildren_eq ha.nonempty hb.nonempty
      (fun e he k hk => baseCount_eq_of_cmp_eq (ha.inner e he) (hb.inner k hk))
      (fun hc => (totalBases_eq_iff ha hb hbase).2 (Nat.compare_eq_eq.1 hc)) h
  · exact cmpChildren_eq_of_forall₂ ha.nonempty h

/-! ## equality at every path -/

/-- A context that is not empty has a base somewhere. -/
theorem exists_baseAt {c : Context} (h : c.Valid) (hc : c.isEmpty = false) :
    ∃ p v, c.baseAt p = some v := by
  induction h with
  | @intro c sorted count nonempty inner ih =>
    cases hbase : c.base with
    | some v => exact ⟨[], v, hbase⟩
    | none =>
      cases hchildren : c.children with
      | nil => simp_all [isEmpty, totalBases]
      | cons e l =>
        have he : e ∈ c.children := by simp [hchildren]
        obtain ⟨p, v, hp⟩ := ih e he (nonempty e he)
        refine ⟨e.1 :: p, v, ?_⟩
        rw [baseAt_cons, along, child?, sorted.get?_of_mem he]
        exact hp

/-- An empty context is one without a base anywhere. -/
theorem isEmpty_iff_baseAt {c : Context} (h : c.Valid) :
    c.isEmpty ↔ ∀ p, c.baseAt p = none := by
  constructor
  · intro hc p
    rw [h.eq_empty hc, baseAt_empty]
  · intro hp
    by_contra hc
    obtain ⟨p, v, hv⟩ := exists_baseAt h (by simpa using hc)
    rw [hp p] at hv
    cases hv

/-- No stored descendant is empty. -/
theorem Valid.isEmpty_of_get? {c k : Context} (h : c.Valid) {p : Path} (hp : p ≠ [])
    (hk : c.get? p = some k) : k.isEmpty = false := by
  induction p generalizing c with
  | nil => exact absurd rfl hp
  | cons d p ih =>
    rw [Context.get?] at hk
    cases hd : c.child? d with
    | none =>
      rw [hd] at hk
      cases hk
    | some m =>
      rw [hd] at hk
      cases p with
      | nil =>
        cases hk
        exact (h.child? hd).2
      | cons e p => exact ih (h.child? hd).1 (List.cons_ne_nil e p) hk

/-- Below the top there is a node just where a base is to be found at or below it. -/
theorem Valid.exists_get?_iff {c : Context} (h : c.Valid) {p : Path} (hp : p ≠ []) :
    (∃ k, c.get? p = some k) ↔ ∃ q v, c.baseAt (p ++ q) = some v := by
  constructor
  · rintro ⟨k, hk⟩
    obtain ⟨q, v, hv⟩ := exists_baseAt (h.get? hk) (h.isEmpty_of_get? hp hk)
    exact ⟨q, v, by rw [baseAt_append, nodeAt_eq_getD, hk, Option.getD_some, hv]⟩
  · rintro ⟨q, v, hv⟩
    cases hk : c.get? p with
    | some k => exact ⟨k, rfl⟩
    | none =>
      rw [baseAt_append, nodeAt_eq_getD, hk, Option.getD_none, baseAt_empty] at hv
      cases hv

/-- Children along one dimension compare equal when what lies below it does, both sides
being told apart where a child is on one side only. -/
theorem rel_child?_iff {a b : Context} (ha : a.Valid) (hb : b.Valid) {d : Dimension}
    (hchild : ∀ c k, a.child? d = some c → k.Valid →
      (cmp c k = .eq ↔ ∀ p, c.baseAt p == k.baseAt p)) :
    Option.Rel (fun c k => cmp c k = .eq) (a.child? d) (b.child? d) ↔
      ∀ p, (a.along d).baseAt p == (b.along d).baseAt p := by
  rw [along, along]
  cases hc : a.child? d with
  | none =>
    cases hk : b.child? d with
    | none => simp
    | some k =>
      obtain ⟨p, v, hv⟩ := exists_baseAt (hb.child? hk).1 (hb.child? hk).2
      refine iff_of_false Option.not_rel_none_some fun h => ?_
      have hp := h p
      simp [hv] at hp
  | some c =>
    cases hk : b.child? d with
    | none =>
      obtain ⟨p, v, hv⟩ := exists_baseAt (ha.child? hc).1 (ha.child? hc).2
      refine iff_of_false Option.not_rel_some_none fun h => ?_
      have hp := h p
      simp [hv] at hp
    | some k => exact Option.rel_some_some.trans (hchild c k hc (hb.child? hk).1)

/-- **Equality of contexts is equality of their bases at every path.** -/
theorem beq_iff_baseAt {a b : Context} (ha : a.Valid) (hb : b.Valid) :
    a == b ↔ ∀ p, a.baseAt p == b.baseAt p := by
  show (cmp a b == .eq) = true ↔ _
  rw [beq_iff_eq]
  induction ha generalizing b with
  | @intro a sorted count nonempty inner ih =>
    have ha : a.Valid := .intro sorted count nonempty inner
    have hrel (d : Dimension) := rel_child?_iff (d := d) ha hb fun c k hc hk => by
      obtain ⟨e, -, he⟩ := Keyed.mem_of_get? hc
      exact ih _ he hk
    rw [cmp_eq_eq_iff ha hb]
    constructor
    · rintro ⟨hbase, hpairs⟩ p
      cases p with
      | nil => exact hbase
      | cons d p =>
        rw [baseAt_cons, baseAt_cons]
        exact (hrel d).1 (Keyed.rel_get?_of_forall₂ hpairs d) p
    · intro h
      refine ⟨h [], Keyed.forall₂_of_rel_get? sorted hb.sorted fun d => (hrel d).2 fun p => ?_⟩
      rw [← baseAt_cons, ← baseAt_cons]
      exact h (d :: p)

/-- Equality is that of the order. -/
theorem compare_eq_eq_iff {a b : Context} : compare a b = .eq ↔ a == b := beq_iff_eq.symm

/-- A context of the right shape is equal to itself. -/
theorem Valid.beq_rfl {c : Context} (h : c.Valid) : c == c :=
  (beq_iff_baseAt h h).2 fun _ => BEq.rfl

theorem Valid.beq_symm {a b : Context} (ha : a.Valid) (hb : b.Valid) (h : a == b) : b == a :=
  (beq_iff_baseAt hb ha).2 fun p => BEq.symm ((beq_iff_baseAt ha hb).1 h p)

theorem Valid.beq_trans {a b c : Context} (ha : a.Valid) (hb : b.Valid) (hc : c.Valid)
    (hab : a == b) (hbc : b == c) : a == c :=
  (beq_iff_baseAt ha hc).2 fun p =>
    BEq.trans ((beq_iff_baseAt ha hb).1 hab p) ((beq_iff_baseAt hb hc).1 hbc p)

end Intension.Context
