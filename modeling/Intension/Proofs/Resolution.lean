import Intension.Proofs.Domain.Scan

/-!
# Intension.Proofs.Resolution

Best-fit resolution is exact: what the single pass over a domain answers is what
refinement alone says of the versions that refine to the request.
-/

namespace Intension.Domain

variable {d : Domain} {request m : Context}

/-- `v` is a version that refines to the request. -/
def Fits (d : Domain) (request v : Context) : Prop := v ∈ d.versions ∧ v.refines request

/-- `m` fits, and all that fit refine to it. -/
def IsBest (d : Domain) (request m : Context) : Prop :=
  d.Fits request m ∧ ∀ v, d.Fits request v → v.refines m

/-- `v` fits and is not strictly below another that fits. -/
def IsNear (d : Domain) (request v : Context) : Prop :=
  d.Fits request v ∧ ∀ w, d.Fits request w → ¬ StrictlyBelow v w

/-- The survivors are the versions that fit the request. -/
theorem mem_survivors_iff {v : Context} : v ∈ d.survivors request ↔ d.Fits request v :=
  List.mem_filter

/-! ## near fits and the best fit -/

/-- The scan finds the best fit, if there is one, and nothing else. -/
theorem best?_eq_some_iff_isBest (hd : Ascending d.versions) :
    d.best? request = some m ↔ d.IsBest request m := by
  simp only [best?_eq_some_iff hd, IsBest, mem_survivors_iff]

/-- The near fits are found exactly. -/
theorem mem_near_iff (hd : Ascending d.versions) {v : Context} :
    v ∈ d.near request ↔ d.IsNear request v := by
  simp only [near_eq hd, mem_maximal, IsNear, mem_survivors_iff]

/-- There are no near fits exactly if no version fits. -/
theorem near_eq_nil_iff (hd : Ascending d.versions) :
    d.near request = [] ↔ ∀ v, ¬ d.Fits request v := by
  have hvalid : ∀ v ∈ d.survivors request, v.Valid := (hd.filter (·.refines request)).valid
  rw [List.eq_nil_iff_forall_not_mem]
  constructor
  · intro h v hv
    obtain ⟨m, hm, _⟩ := exists_mem_maximal hvalid (mem_survivors_iff.2 hv)
    exact h m (near_eq hd ▸ hm)
  · exact fun h v hv => h v ((mem_near_iff hd).1 hv).1

/-- There is a best fit just where a near fit stands alone. -/
theorem best?_eq_some_iff_near_eq (hd : Ascending d.versions) :
    d.best? request = some m ↔ d.near request = [m] := by
  have hsurvivors : Ascending (d.survivors request) := hd.filter _
  rw [best?_eq_some_iff hd, near_eq hd]
  constructor
  · rintro ⟨hm, hall⟩
    exact maximal_eq_singleton hsurvivors hm hall
  · intro h
    have hm : m ∈ maximal (d.survivors request) := h ▸ List.mem_cons_self
    refine ⟨(mem_maximal.1 hm).1, fun v hv => ?_⟩
    obtain ⟨m', hm', hvm⟩ := exists_mem_maximal hsurvivors.valid hv
    rw [h, List.mem_singleton] at hm'
    exact hm' ▸ hvm

/-! ## the answers -/

/-- Asking for the best fit gives the one the scan finds. -/
theorem requireBest_eq_ok_iff : d.requireBest request = .ok m ↔ d.best? request = some m := by
  rw [requireBest]
  cases d.best? request <;> simp

/-- Asking for the best fit fails exactly if there is none, with the request as it was. -/
theorem requireBest_eq_error_iff {e : NoBest} :
    d.requireBest request = .error e ↔ d.best? request = none ∧ e = ⟨request⟩ := by
  rw [requireBest]
  cases d.best? request <;> simp [eq_comm]

/-- A request is resolved to the best fit exactly if there is one. -/
theorem resolve_eq_best_iff : d.resolve request = .best m ↔ d.best? request = some m := by
  rw [resolve]
  cases d.best? request with
  | some v => simp
  | none => cases d.near request <;> simp

/-- A request is resolved to the near fits exactly if there is no best one, but some. -/
theorem resolve_eq_near_iff {vs : List Context} : d.resolve request = .near vs ↔
    d.best? request = none ∧ d.near request = vs ∧ vs ≠ [] := by
  rw [resolve]
  cases d.best? request with
  | some v => simp
  | none =>
    cases d.near request with
    | nil => simp +contextual [eq_comm]
    | cons v l =>
      simp only [Resolution.near.injEq, true_and]
      exact ⟨fun h => ⟨h, h ▸ List.cons_ne_nil v l⟩, fun h => h.1⟩

/-- A request is resolved to nothing exactly if no version is near. -/
theorem resolve_eq_nothing_iff (hd : Ascending d.versions) :
    d.resolve request = .nothing ↔ d.near request = [] := by
  rw [resolve]
  cases hb : d.best? request with
  | some v => simp [(best?_eq_some_iff_near_eq hd).1 hb]
  | none => cases d.near request <;> simp

/-- **Best-fit resolution is exact**: the best fit is the version of those that fit that all
of them refine to, the near fits are those that are not strictly below another, once each
and in ascending order, and the answers to a request say which of these there are. -/
theorem resolve_exact (hd : d.Reachable) (request : Context) :
    (∀ m, d.best? request = some m ↔ d.IsBest request m) ∧
    (d.near request).Pairwise (fun v w => compare v w = .lt) ∧
    (d.near request).Nodup ∧
    (∀ v, v ∈ d.near request ↔ d.IsNear request v) ∧
    (∀ m, d.best? request = some m ↔ d.near request = [m]) ∧
    (∀ m, d.requireBest request = .ok m ↔ d.best? request = some m) ∧
    (∀ e, d.requireBest request = .error e ↔ d.best? request = none ∧ e = ⟨request⟩) ∧
    (∀ m, d.resolve request = .best m ↔ d.best? request = some m) ∧
    (∀ vs, d.resolve request = .near vs ↔
      d.best? request = none ∧ d.near request = vs ∧ vs ≠ []) ∧
    (d.resolve request = .nothing ↔ ∀ v, ¬ d.Fits request v) := by
  have hasc : Ascending d.versions := hd.ascending
  have hnear : Ascending (d.near request) := by
    rw [near_eq hasc]
    exact (hasc.filter _).filter _
  exact ⟨fun m => best?_eq_some_iff_isBest hasc, hnear.sorted, hnear.nodup,
    fun v => mem_near_iff hasc, fun m => best?_eq_some_iff_near_eq hasc,
    fun m => requireBest_eq_ok_iff, fun e => requireBest_eq_error_iff,
    fun m => resolve_eq_best_iff, fun vs => resolve_eq_near_iff,
    (resolve_eq_nothing_iff hasc).trans (near_eq_nil_iff hasc)⟩

/-- The versions `~`, `^` and `#01` under the request `^`: the scan takes `~` and then `^`
for the best, and meets `#01`, which refines to `^`, after it. -/
theorem resolve_exact_of_late_survivor :
    let d : Domain := .ofList [.ofBase .alpha, .ofBase (.binary [1]), .ofBase .omega]
    d.best? (.ofBase .omega) = some (.ofBase .omega) ∧
      d.near (.ofBase .omega) = [.ofBase .omega] ∧
      d.resolve (.ofBase .omega) = .best (.ofBase .omega) := by
  intro d
  have hd : d.Reachable := .ofList <| List.forall_mem_cons.2 ⟨.ofBase _,
    List.forall_mem_cons.2 ⟨.ofBase _, List.forall_mem_singleton.2 (.ofBase _)⟩⟩
  have hversions : d.versions =
    [.ofBase .alpha, .ofBase .omega, .ofBase (.binary [1])] := rfl
  obtain ⟨hbest, _, _, _, hnear, _, _, hresolve, _⟩ := resolve_exact hd (.ofBase .omega)
  have h : d.best? (.ofBase .omega) = some (.ofBase .omega) := by
    refine (hbest _).2 ⟨⟨hversions ▸ by simp, rfl⟩, fun v hv => ?_⟩
    exact hv.2
  exact ⟨h, (hnear _).1 h, (hresolve _).2 h⟩

end Intension.Domain
