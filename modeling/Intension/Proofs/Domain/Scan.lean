import Intension.Proofs.Domain.Shape

/-!
# Intension.Proofs.Domain.Scan

What a scan has found out about the versions that it has passed over
(`Scan.Covers`), and with it what `best?` and `near` give.  The versions come
in ascending order, which says nothing about refinement: the best of a scan may
be followed by versions that it refines to, that refine to it, or neither.
-/

namespace Intension.Domain

open Std

/-- Whether `v` refines to `w`, and not the other way. -/
def StrictlyBelow (v w : Context) : Prop := v.refines w ∧ ¬ w.refines v

/-- The test of the second pass: some candidate of the list lies strictly above `v`. -/
theorem isBelow_iff {v : Context} {l : List Context} :
    isBelow v l = true ↔ ∃ w ∈ l, StrictlyBelow v w := by
  simp [isBelow, StrictlyBelow]

/-! ## the invariant -/

/-- What a scan knows of the survivors it has passed over. -/
structure Scan.Covers (s : Scan) (seen : List Context) : Prop where
  best_mem : s.best ∈ seen
  seconds_mem : ∀ v ∈ s.seconds, v ∈ seen
  nodup : (s.best :: s.seconds).Nodup
  /-- The survivors that were let go. -/
  below : ∀ v ∈ seen, v ∉ s.best :: s.seconds → StrictlyBelow v s.best
  /-- None of the others is one that all survivors refine to. -/
  beaten : ∀ v ∈ s.seconds, ∃ w ∈ seen, ¬ w.refines v

namespace Scan

variable {s : Scan} {seen rest : List Context} {v : Context}

theorem covers_singleton (v : Context) : Covers ⟨v, []⟩ [v] where
  best_mem := List.mem_singleton_self v
  seconds_mem := fun _ hw => nomatch hw
  nodup := by simp
  below := fun _ hw hne => absurd hw hne
  beaten := fun _ hw => nomatch hw

/-- What the scan has kept so far was among the versions it has seen. -/
theorem Covers.mem (h : s.Covers seen) {w : Context} (hw : w ∈ s.best :: s.seconds) : w ∈ seen := by
  obtain rfl | hw := List.mem_cons.1 hw
  · exact h.best_mem
  · exact h.seconds_mem w hw

/-- A new best, with the old one among the others. -/
theorem Covers.overtake (h : s.Covers seen) (hasc : Ascending (seen ++ [v])) (hv : v ∉ seen)
    (hbest : s.best.refines v) : Covers ⟨v, s.best :: s.seconds⟩ (seen ++ [v]) where
  best_mem := List.mem_append_right _ (List.mem_singleton_self v)
  seconds_mem := fun w hw => List.mem_append_left _ (h.mem hw)
  nodup := List.nodup_cons.2 ⟨fun hmem => hv (h.mem hmem), h.nodup⟩
  below := fun w hw hne => by
    rw [List.mem_cons, not_or] at hne
    obtain ⟨hwv, hrest⟩ := hne
    have hw : w ∈ seen := by simpa [hwv] using hw
    have hb := h.below w hw hrest
    have hvalid : ∀ x ∈ seen, x.Valid := fun x hx => hasc.valid x (List.mem_append_left _ hx)
    have hvalidv : v.Valid := hasc.valid v (by simp)
    have hvalidb := hvalid _ h.best_mem
    refine ⟨(hvalid w hw).refines_trans hvalidb hvalidv hb.1 hbest, fun hvw => hb.2 ?_⟩
    exact hvalidb.refines_trans hvalidv (hvalid w hw) hbest hvw
  beaten := fun w hw => by
    obtain rfl | hw := List.mem_cons.1 hw
    · refine ⟨v, by simp, fun hvb => hv ?_⟩
      have hmem := List.mem_append_left [v] h.best_mem
      rw [hasc.eq_of_refines (by simp) hmem hvb hbest]
      exact h.best_mem
    · obtain ⟨x, hx, hxw⟩ := h.beaten w hw
      exact ⟨x, List.mem_append_left _ hx, hxw⟩

/-- A survivor strictly below the best is let go. -/
theorem Covers.pass (h : s.Covers seen) (hbest : ¬ s.best.refines v) (hv : v.refines s.best) :
    s.Covers (seen ++ [v]) where
  best_mem := List.mem_append_left _ h.best_mem
  seconds_mem := fun w hw => List.mem_append_left _ (h.seconds_mem w hw)
  nodup := h.nodup
  below := fun w hw hne => by
    obtain hw | hw := List.mem_append.1 hw
    · exact h.below w hw hne
    · rw [List.mem_singleton.1 hw]
      exact ⟨hv, hbest⟩
  beaten := fun w hw => by
    obtain ⟨x, hx, hxw⟩ := h.beaten w hw
    exact ⟨x, List.mem_append_left _ hx, hxw⟩

/-- A survivor beside the best is kept. -/
theorem Covers.keep (h : s.Covers seen) (hv : v ∉ seen) (hbest : ¬ s.best.refines v) :
    Covers ⟨s.best, v :: s.seconds⟩ (seen ++ [v]) where
  best_mem := List.mem_append_left _ h.best_mem
  seconds_mem := fun w hw => by
    obtain rfl | hw := List.mem_cons.1 hw
    · simp
    · exact List.mem_append_left _ (h.seconds_mem w hw)
  nodup := by
    obtain ⟨hb, hrest⟩ := List.nodup_cons.1 h.nodup
    have hbv : s.best ≠ v := fun heq => hv (heq ▸ h.best_mem)
    have hvs : v ∉ s.seconds := fun hmem => hv (h.seconds_mem v hmem)
    simp [hb, hbv, hvs, hrest]
  below := fun w hw hne => by
    have hwv : w ≠ v := fun heq => hne (by simp [heq])
    have hw : w ∈ seen := by simpa [hwv] using hw
    refine h.below w hw fun hmem => hne ?_
    obtain rfl | hmem := List.mem_cons.1 hmem
    · exact List.mem_cons_self
    · exact List.mem_cons_of_mem _ (List.mem_cons_of_mem _ hmem)
  beaten := fun w hw => by
    obtain rfl | hw := List.mem_cons.1 hw
    · exact ⟨s.best, List.mem_append_left _ h.best_mem, hbest⟩
    · obtain ⟨x, hx, hxw⟩ := h.beaten w hw
      exact ⟨x, List.mem_append_left _ hx, hxw⟩

/-- **One survivor more keeps what a scan knows.** -/
theorem Covers.step (h : s.Covers seen) (hasc : Ascending (seen ++ [v])) :
    (s.step v).Covers (seen ++ [v]) := by
  have hv : v ∉ seen := fun hmem => (List.nodup_append.1 hasc.nodup).2.2 v hmem v (by simp) rfl
  rw [Scan.step]
  split
  next hbest => exact h.overtake hasc hv hbest
  next hbest =>
    split
    next hvb => exact h.pass hbest hvb
    next => exact h.keep hv hbest

/-- The run lemma of the scan: if it covers the versions seen so far, it covers all of them at the
end. -/
theorem Covers.foldl (h : s.Covers seen) (hasc : Ascending (seen ++ rest)) :
    (rest.foldl Scan.step s).Covers (seen ++ rest) := by
  induction rest generalizing s seen with
  | nil =>
    rw [List.append_nil]
    exact h
  | cons v rest ih =>
    rw [List.append_cons] at hasc ⊢
    have hstep : (s.step v).Covers (seen ++ [v]) :=
      h.step ⟨fun w hw => hasc.valid w (List.mem_append_left _ hw),
        (List.pairwise_append.1 hasc.sorted).1⟩
    exact ih hstep hasc

/-- When nothing but the best is left, every version seen refines it. -/
theorem Covers.refines_best (h : s.Covers seen) (hseen : Ascending seen) (hunique : s.isUnique)
    (hv : v ∈ seen) : v.refines s.best := by
  by_cases hmem : v ∈ s.best :: s.seconds
  · obtain rfl | hmem := List.mem_cons.1 hmem
    · exact (hseen.valid _ hv).refines_refl
    · exact List.all_eq_true.1 hunique v hmem
  · exact (h.below v hv hmem).1

/-- Only the best of a scan can be one that all survivors refine to. -/
theorem Covers.eq_best (h : s.Covers seen) (hv : v ∈ seen) (hall : ∀ w ∈ seen, w.refines v) :
    v = s.best := by
  by_contra hne
  by_cases hmem : v ∈ s.seconds
  · obtain ⟨w, hw, hwv⟩ := h.beaten v hmem
    exact hwv (hall w hw)
  · exact (h.below v hv (by simp [hne, hmem])).2 (hall s.best h.best_mem)

end Scan

/-! ## what a scan gives -/

variable {d : Domain} {request v : Context}

/-- The scan finds nothing exactly if no version is refined by the request. -/
theorem scan_eq_none_iff : d.scan request = none ↔ d.survivors request = [] := by
  rw [scan]
  split
  next h => simp [h]
  next h => simp [h]

/-- A scan covers all survivors. -/
theorem covers_of_scan (hd : Ascending d.versions) {s : Scan} (h : d.scan request = some s) :
    s.Covers (d.survivors request) := by
  have hsurvivors : Ascending (d.survivors request) := hd.filter _
  rw [scan] at h
  split at h
  next => cases h
  next v rest heq =>
    cases h
    rw [heq] at hsurvivors ⊢
    exact (Scan.covers_singleton v).foldl hsurvivors

/-- The best fit is the survivor that all survivors refine to. -/
theorem best?_eq_some_iff (hd : Ascending d.versions) {m : Context} :
    d.best? request = some m ↔
      m ∈ d.survivors request ∧ ∀ v ∈ d.survivors request, v.refines m := by
  have hsurvivors : Ascending (d.survivors request) := hd.filter _
  rw [best?]
  obtain hscan | ⟨s, hscan⟩ := Option.eq_none_or_eq_some (d.scan request)
  · simp [hscan, scan_eq_none_iff.1 hscan]
  · have hcovers := covers_of_scan hd hscan
    simp only [hscan]
    constructor
    · intro h
      split at h
      next hunique =>
        cases h
        exact ⟨hcovers.best_mem, fun v hv => hcovers.refines_best hsurvivors hunique hv⟩
      next => cases h
    · rintro ⟨hm, hall⟩
      obtain rfl := hcovers.eq_best hm hall
      have hunique : s.isUnique = true :=
        List.all_eq_true.2 fun v hv => hall v (hcovers.seconds_mem v hv)
      rw [if_pos hunique]

/-! ## near fits -/

/-- Each version refines to one that is not strictly below another. -/
theorem exists_maximal {l : List Context} (hl : ∀ w ∈ v :: l, w.Valid) :
    ∃ m ∈ v :: l, v.refines m ∧ ∀ w ∈ l, ¬ StrictlyBelow m w := by
  induction l generalizing v with
  | nil =>
    have hv : v.Valid := hl v List.mem_cons_self
    exact ⟨v, List.mem_cons_self, hv.refines_refl, fun _ hw => nomatch hw⟩
  | cons x l ih =>
    obtain ⟨hv, hxl⟩ := List.forall_mem_cons.1 hl
    obtain ⟨hx, hrest⟩ := List.forall_mem_cons.1 hxl
    by_cases hvx : StrictlyBelow v x
    · obtain ⟨m, hm, hxm, hmax⟩ := ih hxl
      refine ⟨m, List.mem_cons_of_mem _ hm, hv.refines_trans hx (hxl m hm) hvx.1 hxm, ?_⟩
      exact List.forall_mem_cons.2 ⟨fun hmx => hmx.2 hxm, hmax⟩
    · have hvl : ∀ w ∈ v :: l, w.Valid := List.forall_mem_cons.2 ⟨hv, hrest⟩
      obtain ⟨m, hm, hvm, hmax⟩ := ih hvl
      have hmem : m ∈ v :: x :: l := by
        obtain rfl | hm := List.mem_cons.1 hm
        · exact List.mem_cons_self
        · exact List.mem_cons_of_mem _ (List.mem_cons_of_mem _ hm)
      -- were `m` strictly below `x`, so would `v` be
      have hmx : ¬ StrictlyBelow m x := fun hmx =>
        hvx ⟨hv.refines_trans (hvl m hm) hx hvm hmx.1,
          fun hxv => hmx.2 (hx.refines_trans hv (hvl m hm) hxv hvm)⟩
      exact ⟨m, hmem, hvm, List.forall_mem_cons.2 ⟨hmx, hmax⟩⟩

/-- The versions that are not strictly below another. -/
def maximal (l : List Context) : List Context := l.filter fun v => !isBelow v l

/-- The maximal members of a list are those with no other member strictly above them. -/
theorem mem_maximal {l : List Context} :
    v ∈ maximal l ↔ v ∈ l ∧ ∀ w ∈ l, ¬ StrictlyBelow v w := by
  have hbelow : (!isBelow v l) = true ↔ ∀ w ∈ l, ¬ StrictlyBelow v w := by
    rw [Bool.not_eq_true', ← Bool.not_eq_true, isBelow_iff]
    simp
  rw [maximal, List.mem_filter, hbelow]

/-- Every member of a list lies below a maximal one. -/
theorem exists_mem_maximal {l : List Context} (hl : ∀ w ∈ l, w.Valid) (hv : v ∈ l) :
    ∃ m ∈ maximal l, v.refines m := by
  obtain ⟨m, hm, hvm, hmax⟩ := exists_maximal (List.forall_mem_cons.2 ⟨hl v hv, hl⟩)
  have hmem : m ∈ l := by
    obtain rfl | hm := List.mem_cons.1 hm
    · exact hv
    · exact hm
  exact ⟨m, mem_maximal.2 ⟨hmem, hmax⟩, hvm⟩

/-- A version that all refine to is the only maximal one. -/
theorem maximal_eq_singleton {l : List Context} (hl : Ascending l) (hv : v ∈ l)
    (hall : ∀ w ∈ l, w.refines v) : maximal l = [v] := by
  have hsingle : Ascending [v] :=
    Ascending.cons_iff.2 ⟨hl.valid v hv, fun _ hw => (nomatch hw), .nil⟩
  refine (hl.filter _).eq_of_mem_iff hsingle fun w => mem_maximal.trans ?_
  rw [List.mem_singleton]
  constructor
  · rintro ⟨hw, hmax⟩
    have hvw : v.refines w := by
      by_contra hvw
      exact hmax v hv ⟨hall w hw, hvw⟩
    exact hl.eq_of_refines hw hv (hall w hw) hvw
  · rintro rfl
    exact ⟨hv, fun x hx hwx => hwx.2 (hall x hx)⟩

/-- What a scan has let go has no part in the near fits. -/
theorem Scan.Covers.mem_maximal_iff {s : Scan} {seen candidates : List Context}
    (h : s.Covers seen) (hseen : Ascending seen)
    (hcandidates : ∀ w, w ∈ candidates ↔ w ∈ s.best :: s.seconds) :
    v ∈ maximal candidates ↔ v ∈ maximal seen := by
  rw [mem_maximal, mem_maximal, hcandidates]
  constructor
  · rintro ⟨hv, hmax⟩
    have hvb := hmax s.best ((hcandidates _).2 List.mem_cons_self)
    refine ⟨h.mem hv, fun w hw hvw => ?_⟩
    by_cases hmem : w ∈ s.best :: s.seconds
    · exact hmax w ((hcandidates w).2 hmem) hvw
    · have hwb := h.below w hw hmem
      have hb := hseen.valid _ h.best_mem
      refine hvb ⟨?_, fun hbv => hwb.2 ?_⟩
      · exact (hseen.valid v (h.mem hv)).refines_trans (hseen.valid w hw) hb hvw.1 hwb.1
      · exact hb.refines_trans (hseen.valid v (h.mem hv)) (hseen.valid w hw) hbv hvw.1
  · rintro ⟨hv, hmax⟩
    have hmem : v ∈ s.best :: s.seconds := by
      by_contra hne
      exact hmax s.best h.best_mem (h.below v hv hne)
    exact ⟨hmem, fun w hw => hmax w (h.mem ((hcandidates w).1 hw))⟩

/-- The near fits are the maximal survivors, in their order. -/
theorem near_eq (hd : Ascending d.versions) :
    d.near request = maximal (d.survivors request) := by
  have hsurvivors : Ascending (d.survivors request) := hd.filter _
  rw [near]
  obtain hscan | ⟨s, hscan⟩ := Option.eq_none_or_eq_some (d.scan request)
  · simp [hscan, scan_eq_none_iff.1 hscan, maximal]
  · have hcovers := covers_of_scan hd hscan
    simp only [hscan]
    split
    next hunique =>
      have hall := fun v hv => hcovers.refines_best (v := v) hsurvivors hunique hv
      exact (maximal_eq_singleton hsurvivors hcovers.best_mem hall).symm
    next =>
      have hsorted := hsurvivors.mergeSort (fun v hv => hcovers.mem hv) hcovers.nodup
      refine (hsorted.filter _).eq_of_mem_iff (hsurvivors.filter _) fun v => ?_
      exact hcovers.mem_maximal_iff hsurvivors fun w => List.mem_mergeSort

end Intension.Domain
