import Intension.Proofs.Patch.Pruned

/-!
# Intension.Proofs.Patch.Equality

Equality of patches, path by path.  A pruned patch shows each child it stores:
somewhere below, the child says something else than an absent one
(`Pruned.exists_headAt_ne`).  So two pruned patches are equal exactly when
their heads agree at every path (`agrees_iff_headAt`).
-/

namespace Intension.Patch

open Std

/-! ## heads -/

/-- Two heads have the same marks and equal bases. -/
structure Head.Same (h k : Head) : Prop where
  clearsBase : h.clearsBase = k.clearsBase
  clearsDims : h.clearsDims = k.clearsDims
  base : h.base == k.base

theorem Head.same_rfl {h : Head} : h.Same h := ⟨rfl, rfl, BEq.rfl⟩

theorem Head.Same.symm {h k : Head} (hs : h.Same k) : k.Same h :=
  ⟨hs.clearsBase.symm, hs.clearsDims.symm, BEq.symm hs.base⟩

/-- There is no other head like that of an absent child. -/
theorem Head.Same.eq_absent {clearing : Bool} {h : Head}
    (hs : h.Same (absent clearing).head) : h = (absent clearing).head := by
  obtain ⟨base, clearsBase, clearsDims⟩ := h
  obtain ⟨hclearsBase, hclearsDims, hbase⟩ := hs
  cases clearing <;> cases base <;> simp_all [head, absent, noop, clearAll]

/-! ## what is stored shows -/

/-- **A child that is kept says something that an absent one does not.** -/
theorem Pruned.exists_headAt_ne {clearing : Bool} {p : Patch} (h : p.Pruned clearing)
    (hp : p.Ordered) (hkept : p.isRedundant clearing = false) :
    ∃ r, p.headAt clearing r ≠ (absent clearing).head := by
  induction h with
  | @intro clearing p kept inner ih =>
    by_cases hhead : p.head = (absent clearing).head
    · -- the head says nothing of its own, so there is a child, and the region stays the same
      have hclears : (p.clearsDims || clearing) = clearing := by
        have hdims : p.clearsDims = (absent clearing).clearsDims := congrArg Head.clearsDims hhead
        rw [hdims]
        cases clearing <;> rfl
      rw [hclears] at kept ih
      obtain ⟨e, he⟩ : ∃ e, e ∈ p.children := List.exists_mem_of_ne_nil _ fun hnil =>
        Bool.eq_false_iff.1 hkept (isRedundant_iff.2 ⟨hhead, hnil⟩)
      obtain ⟨r, hr⟩ := ih e he (hp.inner e he) (kept e he)
      refine ⟨e.1 :: r, ?_⟩
      rwa [headAt_cons, along, Patch.child?, hp.sorted.get?_of_mem he, Option.getD_some, hclears]
    · exact ⟨[], hhead⟩

/-! ## equality -/

/-- Where no child is redundant all of them are essential. -/
theorem essential_eq_self {clearing : Bool} {l : List (Dimension × Patch)}
    (hl : ∀ e ∈ l, e.2.isRedundant clearing = false) : essential clearing l = l :=
  List.filter_eq_self.2 fun e he => by rw [hl e he]; rfl

/-- Children without redundant ones agree when they do one by one. -/
theorem agreesChildren_iff_forall₂ {clearing : Bool} {l m : List (Dimension × Patch)}
    (hl : ∀ e ∈ l, e.2.isRedundant clearing = false) : agreesChildren clearing l m ↔
      List.Forall₂ (fun e k => e.1 == k.1 ∧ agrees clearing e.2 k.2) l m := by
  induction l generalizing m with
  | nil => cases m <;> simp [agreesChildren]
  | cons e l ih =>
    obtain ⟨he, hl⟩ := List.forall_mem_cons.1 hl
    cases m with
    | nil =>
      obtain ⟨d, p⟩ := e
      rw [agreesChildren.eq_def]
      simp only [he]
      simp
    | cons k m =>
      rw [agreesChildren_cons_of_kept he, Bool.and_eq_true, Bool.and_eq_true,
        List.forall₂_cons, ih hl]

/-- Pruned patches agree when their heads do and their children do one by one. -/
theorem agrees_iff_forall₂ {forced : Bool} {p q : Patch} (hp : p.Pruned forced)
    (hq : q.Pruned forced) : agrees forced p q ↔ p.head.Same q.head ∧
      List.Forall₂ (fun e k => e.1 == k.1 ∧ agrees (p.clearsDims || forced) e.2 k.2)
        p.children q.children := by
  rw [agrees_eq]
  simp only [Bool.and_eq_true, beq_iff_eq, agreesChildren_iff_forall₂ hp.kept]
  constructor
  · rintro ⟨⟨⟨hbaseMark, hdimsMark⟩, hbase⟩, hchildren⟩
    rw [essential_eq_self (hdimsMark ▸ hq.kept)] at hchildren
    exact ⟨⟨hbaseMark, hdimsMark, hbase⟩, hchildren⟩
  · rintro ⟨⟨hbaseMark, hdimsMark, hbase⟩, hchildren⟩
    have hdims : p.clearsDims = q.clearsDims := hdimsMark
    rw [essential_eq_self (hdims ▸ hq.kept)]
    exact ⟨⟨⟨hbaseMark, hdimsMark⟩, hbase⟩, hchildren⟩

/-- Children along one dimension agree when their heads do everywhere below, both sides being
told apart where a child is on one side only. -/
theorem rel_child?_iff {forced : Bool} {p q : Patch} (hp : p.Ordered)
    (hpruned : p.Pruned forced) (hq : q.Ordered) (hqpruned : q.Pruned forced)
    (hclears : q.clearsDims = p.clearsDims) {d : Dimension}
    (hchild : ∀ k m, p.child? d = some k → m.Ordered → m.Pruned (p.clearsDims || forced) →
      (agrees (p.clearsDims || forced) k m ↔
        ∀ r, (k.headAt (p.clearsDims || forced) r).Same (m.headAt (p.clearsDims || forced) r))) :
    Option.Rel (fun k m => agrees (p.clearsDims || forced) k m) (p.child? d) (q.child? d) ↔
      ∀ r, (p.headAt forced (d :: r)).Same (q.headAt forced (d :: r)) := by
  simp only [headAt_cons, along, hclears]
  have hpkept (k : Patch) (hk : p.child? d = some k) := hpruned.child? hk
  have hqkept (m : Patch) (hm : q.child? d = some m) := hclears ▸ hqpruned.child? hm
  generalize (p.clearsDims || forced) = clearing at hchild hpkept hqkept ⊢
  cases hk : p.child? d with
  | none =>
    cases hm : q.child? d with
    | none => simp [Head.same_rfl]
    | some m =>
      obtain ⟨hkept, hpruned⟩ := hqkept m hm
      obtain ⟨r, hr⟩ := hpruned.exists_headAt_ne (hq.child? hm) hkept
      simp only [Option.getD_none, Option.getD_some, headAt_absent]
      exact iff_of_false Option.not_rel_none_some fun h => hr (h r).symm.eq_absent
  | some k =>
    cases hm : q.child? d with
    | none =>
      obtain ⟨hkept, hpruned⟩ := hpkept k hk
      obtain ⟨r, hr⟩ := hpruned.exists_headAt_ne (hp.child? hk) hkept
      simp only [Option.getD_none, Option.getD_some, headAt_absent]
      exact iff_of_false Option.not_rel_some_none fun h => hr (h r).eq_absent
    | some m =>
      exact Option.rel_some_some.trans (hchild k m hk (hq.child? hm) (hqkept m hm).2)

/-- **Equality of pruned patches is that of their heads at every path.** -/
theorem agrees_iff_headAt {forced : Bool} {p q : Patch} (hp : p.Ordered)
    (hpruned : p.Pruned forced) (hq : q.Ordered) (hqpruned : q.Pruned forced) :
    agrees forced p q ↔ ∀ r, (p.headAt forced r).Same (q.headAt forced r) := by
  induction hpruned generalizing q with
  | @intro forced p kept inner ih =>
    have hpruned : p.Pruned forced := .intro kept inner
    have hrel (hclears : q.clearsDims = p.clearsDims) (d : Dimension) :=
      rel_child?_iff (d := d) hp hpruned hq hqpruned hclears fun k m hk hm hmpruned => by
        obtain ⟨e, -, he⟩ := Keyed.mem_of_get? hk
        exact ih _ he (hp.inner _ he) hm hmpruned
    rw [agrees_iff_forall₂ hpruned hqpruned]
    constructor
    · rintro ⟨hhead, hpairs⟩ r
      cases r with
      | nil => exact hhead
      | cons d r => exact (hrel hhead.clearsDims.symm d).1 (Keyed.rel_get?_of_forall₂ hpairs d) r
    · intro h
      exact ⟨h [], Keyed.forall₂_of_rel_get? hp.sorted hq.sorted fun d =>
        (hrel (h []).clearsDims.symm d).2 fun r => h (d :: r)⟩

end Intension.Patch
