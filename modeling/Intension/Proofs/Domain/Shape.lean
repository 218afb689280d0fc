import Intension.Domain
import Intension.Proofs.Context.Order
import Intension.Proofs.Context.Refinement
import Intension.Proofs.Reachable

/-!
# Intension.Proofs.Domain.Shape

The shape that domains keep: versions of the shape of contexts in strictly
ascending order (`Ascending`).  In such a list no two versions are equal, and it
is told by its members alone.
-/

namespace Intension

open Std

/-- Contexts of the right shape in strictly ascending order. -/
structure Ascending (l : List Context) : Prop where
  valid : ∀ v ∈ l, v.Valid
  sorted : l.Pairwise fun v w => compare v w = .lt

namespace Ascending

variable {l m : List Context} {v w : Context}

theorem nil : Ascending [] := ⟨fun _ hv => (nomatch hv), List.Pairwise.nil⟩

/-- A version list is ascending exactly if its head is valid and below every later version and the
rest is ascending. -/
theorem cons_iff :
    Ascending (v :: l) ↔ v.Valid ∧ (∀ w ∈ l, compare v w = .lt) ∧ Ascending l := by
  refine ⟨fun h => ?_, fun ⟨hv, hlt, h⟩ =>
    ⟨List.forall_mem_cons.2 ⟨hv, h.valid⟩, List.pairwise_cons.2 ⟨hlt, h.sorted⟩⟩⟩
  obtain ⟨hv, hl⟩ := List.forall_mem_cons.1 h.valid
  obtain ⟨hlt, hsorted⟩ := List.pairwise_cons.1 h.sorted
  exact ⟨hv, hlt, hl, hsorted⟩

/-- Any selection of an ascending version list is ascending. -/
theorem filter (h : Ascending l) (p : Context → Bool) : Ascending (l.filter p) :=
  ⟨fun v hv => h.valid v (List.mem_filter.1 hv).1, h.sorted.filter p⟩

/-- Equal versions of one list are the same. -/
theorem eq_of_compare (h : Ascending l) (hv : v ∈ l) (hw : w ∈ l) (heq : compare v w = .eq) :
    v = w := by
  induction l with
  | nil => cases hv
  | cons x l ih =>
    obtain ⟨hx, hlt, hl⟩ := cons_iff.1 h
    obtain rfl | hvl := List.mem_cons.1 hv <;> obtain rfl | hwl := List.mem_cons.1 hw
    · rfl
    · rw [hlt w hwl] at heq
      cases heq
    · rw [(hl.valid v hvl).compare_swap hx, hlt v hvl] at heq
      cases heq
    · exact ih hl hvl hwl

/-- No version is listed twice. -/
theorem nodup (h : Ascending l) : l.Nodup := by
  refine h.sorted.imp_of_mem fun {v w} hv hw hlt hvw => ?_
  have hself : compare w w = .eq := Context.compare_eq_eq_iff.2 (h.valid w hw).beq_rfl
  rw [hvw, hself] at hlt
  cases hlt

/-- Such a list is told by its members. -/
theorem eq_of_mem_iff (hl : Ascending l) (hm : Ascending m) (h : ∀ v, v ∈ l ↔ v ∈ m) : l = m := by
  have hperm : l.Perm m := (List.perm_ext_iff_of_nodup hl.nodup hm.nodup).2 h
  refine hperm.eq_of_pairwise (fun v w hv hw hvw hwv => ?_) hl.sorted hm.sorted
  rw [(hl.valid v hv).compare_swap (hm.valid w hw), hwv] at hvw
  cases hvw

/-- Versions of one list that refine to one another are the same. -/
theorem eq_of_refines (h : Ascending l) (hv : v ∈ l) (hw : w ∈ l) (hvw : v.refines w)
    (hwv : w.refines v) : v = w :=
  h.eq_of_compare hv hw
    (Context.compare_eq_eq_iff.2 ((h.valid v hv).beq_of_refines (h.valid w hw) hvw hwv))

/-- Sorting brings versions of one list, each taken once, back in ascending order. -/
theorem mergeSort (h : Ascending l) (hmem : ∀ v ∈ m, v ∈ l) (hnodup : m.Nodup) :
    Ascending (m.mergeSort fun v w => (compare v w).isLE) := by
  let le : Context → Context → Bool :=
    fun v w => (Context.compareListings v.listing w.listing).isLE
  have hvalid : ∀ v ∈ m, v.Valid := fun v hv => h.valid v (hmem v hv)
  have hle : m.mergeSort (fun v w => (compare v w).isLE) = m.mergeSort le := by
    have hmap := List.map_mergeSort (f := id) (s := le) (fun v hv w hw => congrArg Ordering.isLE
      (Context.compare_eq_compareListings (hvalid v hv) (hvalid w hw)))
    simpa only [List.map_id, id_eq] using hmap
  have htrans : ∀ u v w, le u v → le v w → le u w := fun _ _ _ => TransCmp.isLE_trans
  have htotal : ∀ v w, (le v w || le w v) = true := fun v w => by
    have hswap : Context.compareListings w.listing v.listing =
      (Context.compareListings v.listing w.listing).swap := OrientedCmp.eq_swap
    simp only [le, hswap]
    cases Context.compareListings v.listing w.listing <;> rfl
  have hsorted := List.pairwise_mergeSort htrans htotal m
  have hnodup' : (m.mergeSort le).Nodup := (List.mergeSort_perm m le).nodup_iff.2 hnodup
  rw [hle]
  refine ⟨fun v hv => hvalid v (List.mem_mergeSort.1 hv), ?_⟩
  refine (hsorted.and hnodup').imp_of_mem fun {v w} hv hw hvw => ?_
  obtain ⟨hvw, hne⟩ := hvw
  have hv := List.mem_mergeSort.1 hv
  have hw := List.mem_mergeSort.1 hw
  simp only [le, ← Context.compare_eq_compareListings (hvalid v hv) (hvalid w hw)] at hvw
  cases hc : compare v w with
  | lt => rfl
  | eq => exact absurd (h.eq_of_compare (hmem v hv) (hmem w hw) hc) hne
  | gt => simp [hc] at hvw

end Ascending

/-! ## the versions of a domain -/

namespace Domain

/-- Placing a version adds nothing but this version. -/
theorem mem_place {choose : Context → Context → Context}
    (hchoose : ∀ v w, choose v w = v ∨ choose v w = w) {v x : Context} {l : List Context}
    (h : x ∈ place choose v l) : x = v ∨ x ∈ l := by
  induction l with
  | nil => exact .inl (List.mem_singleton.1 h)
  | cons w l ih =>
    rw [place] at h
    cases hvw : compare v w with
    | lt =>
      rw [hvw] at h
      exact List.mem_cons.1 h
    | eq =>
      rw [hvw] at h
      obtain rfl | h := List.mem_cons.1 h
      · obtain hc | hc := hchoose w v <;> rw [hc]
        · exact .inr List.mem_cons_self
        · exact .inl rfl
      · exact .inr (List.mem_cons_of_mem _ h)
    | gt =>
      rw [hvw] at h
      obtain rfl | h := List.mem_cons.1 h
      · exact .inr List.mem_cons_self
      · exact (ih h).imp_right (List.mem_cons_of_mem _)

/-- A version finds its place, whichever of two equal ones stays. -/
theorem ascending_place {choose : Context → Context → Context}
    (hchoose : ∀ v w, choose v w = v ∨ choose v w = w) {v : Context} {l : List Context}
    (hv : v.Valid) (h : Ascending l) : Ascending (place choose v l) := by
  induction l with
  | nil => exact Ascending.cons_iff.2 ⟨hv, fun _ hw => (nomatch hw), .nil⟩
  | cons w l ih =>
    obtain ⟨hw, hlt, hl⟩ := Ascending.cons_iff.1 h
    rw [place]
    cases hvw : compare v w with
    | lt =>
      refine Ascending.cons_iff.2 ⟨hv, List.forall_mem_cons.2 ⟨hvw, fun x hx => ?_⟩, h⟩
      exact hv.lt_trans hw (hl.valid x hx) hvw (hlt x hx)
    | eq =>
      refine Ascending.cons_iff.2 ⟨?_, fun x hx => ?_, hl⟩
      · obtain hc | hc := hchoose w v <;> rw [hc] <;> assumption
      · obtain hc | hc := hchoose w v <;> rw [hc]
        · exact hlt x hx
        · exact hv.lt_of_eq_of_lt hw (hl.valid x hx) hvw (hlt x hx)
    | gt =>
      refine Ascending.cons_iff.2 ⟨hw, fun x hx => ?_, ih hl⟩
      obtain rfl | hx := mem_place hchoose hx
      · rw [hw.compare_swap hv, hvw]
        rfl
      · exact hlt x hx

/-- The domains that the operations give. -/
inductive Reachable : Domain → Prop
  | empty : Reachable .empty
  | ofList {vs : List Context} (hvs : ∀ v ∈ vs, v.Reachable) : Reachable (.ofList vs)
  | insert {d : Domain} (hd : Reachable d) {v : Context} (hv : v.Reachable) :
      Reachable (d.insert v)
  | erase {d : Domain} (hd : Reachable d) (v : Context) : Reachable (d.erase v)
  | replace {d d' : Domain} (hd : Reachable d) {old new : Context} (hnew : new.Reachable)
      (hd' : d.replace? old new = some d') : Reachable d'
  | extend {d : Domain} (hd : Reachable d) {vs : List Context} (hvs : ∀ v ∈ vs, v.Reachable) :
      Reachable (d.extend vs)

/-- Adding a version keeps the list in ascending order. -/
theorem ascending_insert {d : Domain} (h : Ascending d.versions) {v : Context} (hv : v.Valid) :
    Ascending (d.insert v).versions := ascending_place (fun _ _ => .inl rfl) hv h

/-- Replacing a version keeps the list in ascending order. -/
theorem ascending_put {d : Domain} (h : Ascending d.versions) {v : Context} (hv : v.Valid) :
    Ascending (d.put v).versions := ascending_place (fun _ _ => .inr rfl) hv h

/-- A run of additions keeps the list in ascending order if each of them does. -/
theorem ascending_foldl {f : Domain → Context → Domain}
    (hf : ∀ d v, Ascending d.versions → v.Valid → Ascending (f d v).versions)
    {vs : List Context} (hvs : ∀ v ∈ vs, v.Valid) {d : Domain} (h : Ascending d.versions) :
    Ascending (vs.foldl f d).versions := by
  induction vs generalizing d with
  | nil => exact h
  | cons v vs ih =>
    obtain ⟨hv, hvs⟩ := List.forall_mem_cons.1 hvs
    exact ih hvs (hf d v h hv)

/-- **The versions of a domain are in strictly ascending order.** -/
theorem Reachable.ascending {d : Domain} (h : d.Reachable) : Ascending d.versions := by
  induction h with
  | empty => exact .nil
  | ofList hvs =>
    exact ascending_foldl (fun _ _ h hv => ascending_put h hv) (fun v hv => (hvs v hv).valid) .nil
  | insert _ hv ih => exact ascending_insert ih hv.valid
  | erase _ v ih => exact ih.filter _
  | replace _ hnew hd' ih =>
    rw [replace?] at hd'
    split at hd'
    · cases hd'
      exact ascending_insert (ih.filter _) hnew.valid
    · cases hd'
  | extend _ hvs ih =>
    exact ascending_foldl (fun _ _ h hv => ascending_insert h hv) (fun v hv => (hvs v hv).valid) ih

end Domain

end Intension
