import Intension.Proofs.Context.Order
import Intension.Proofs.Monoid
import Intension.Proofs.Resolution

/-!
# Intension.Proofs.Congruence

Equality is coarser than identity: it looks past the quoting of names, the sign
of zero, the kinds of NaN and the objects of bound values, all of which are
stored.  Nothing that is done with contexts and patches tells equal ones apart
(`equals_for_equals`).  Of what is edited or composed this is seen base by base and
head by head, where equals are put for equals; of the two orders it follows from
their own laws.
-/

namespace Intension

open Std

/-! ## paths -/

/-- What is left after a front is the same after an equal one. -/
theorem Path.after?_congr {p p' : Path} (h : p == p') (q : Path) :
    Path.after? p q = Path.after? p' q := by
  induction p generalizing p' q with
  | nil =>
    cases p' with
    | nil => rfl
    | cons e p' => cases h
  | cons d p ih =>
    cases p' with
    | nil => cases h
    | cons e p' =>
      rw [List.cons_beq_cons, Bool.and_eq_true] at h
      cases q with
      | nil => rfl
      | cons k q => rw [after?_cons, after?_cons, BEq.congr_left h.1, ih h.2]

/-! ## patches -/

namespace Patch

/-- One head after another says the same if both do. -/
theorem Head.Same.followedBy {h h' k k' : Head} (hh : h.Same h') (hk : k.Same k') :
    (h.followedBy k).Same (h'.followedBy k') := by
  obtain ⟨hbase, hclears, hdims⟩ := h
  obtain ⟨kbase, kclears, kdims⟩ := k
  obtain ⟨kbase', kclears', kdims'⟩ := k'
  obtain ⟨rfl, rfl, hhbase⟩ := hh
  obtain ⟨rfl, rfl, hkbase⟩ := hk
  have hbases : Option.Rel _ kbase kbase' := Scalar.option_beq_iff.1 hkbase
  cases hbases with
  | some _ => exact ⟨rfl, rfl, hkbase⟩
  | none =>
    cases kclears with
    | true => exact ⟨rfl, rfl, BEq.rfl⟩
    | false => exact ⟨rfl, rfl, hhbase⟩

/-- Heads that say the same make equal bases of equal ones. -/
theorem Head.Same.act {h h' : Head} (hh : h.Same h') {old old' : Option Scalar}
    (hold : old == old') : h.act old == h'.act old' := by
  obtain ⟨base, clears, dims⟩ := h
  obtain ⟨base', clears', dims'⟩ := h'
  obtain ⟨rfl, rfl, hbase⟩ := hh
  have hbases : Option.Rel _ base base' := Scalar.option_beq_iff.1 hbase
  cases hbases with
  | some _ => exact hbase
  | none =>
    cases clears with
    | true => exact BEq.rfl
    | false => exact hold

namespace Reduced

variable {p p' q q' : Patch}

/-- Patches in normal form are equal just if they say the same everywhere. -/
theorem beq_iff_headAt (hp : p.Reduced) (hq : q.Reduced) :
    p == q ↔ ∀ r, (p.headAt false r).Same (q.headAt false r) :=
  agrees_iff_headAt hp.ordered hp.pruned hq.ordered hq.pruned

/-- **Equal patches compose to equal ones**. -/
theorem compose_congr (hp : p.Reduced) (hp' : p'.Reduced) (hq : q.Reduced) (hq' : q'.Reduced)
    (hpp : p == p') (hqq : q == q') : Patch.compose p q == Patch.compose p' q' := by
  refine ((hp.compose hq).beq_iff_headAt (hp'.compose hq')).2 fun r => ?_
  rw [headAt_compose hq.ordered, headAt_compose hq'.ordered]
  exact ((hp.beq_iff_headAt hp').1 hpp r).followedBy ((hq.beq_iff_headAt hq').1 hqq r)

end Reduced

/-- The patch of a context is in normal form. -/
theorem reduced_ofContext {c : Context} (hc : c.Valid) : (ofContext c).Reduced :=
  ⟨ordered_ofContext hc, pruned_ofContext hc false⟩

/-- Equal contexts have equal patches. -/
theorem ofContext_congr {a a' : Context} (ha : a.Valid) (ha' : a'.Valid) (h : a == a') :
    ofContext a == ofContext a' := by
  refine ((reduced_ofContext ha).beq_iff_headAt (reduced_ofContext ha')).2 fun r => ?_
  rw [headAt_ofContext, headAt_ofContext]
  exact ⟨rfl, rfl, (Context.beq_iff_baseAt ha ha').1 h r⟩

end Patch

/-! ## contexts -/

namespace Context

variable {a a' b b' : Context}

/-- Equal patches at the ends of equal paths make equal contexts of equal ones. -/
theorem applyAt_congr (ha : a.Valid) (ha' : a'.Valid) (haa : a == a') {o o' : Patch}
    (ho : o.Reduced) (ho' : o'.Reduced) (hoo : o == o') {p p' : Path} (hpp : p == p') :
    a.applyAt p o == a'.applyAt p' o' := by
  have hturn {c : Context} (hc : c.Valid) {x : Patch} (hx : x.Ordered) (p q : Path) :
      (c.applyAt p x).baseAt q = (Path.after? p q).elim (c.baseAt q)
        fun s => (x.headAt false s).act (c.baseAt q) :=
    baseAt_changeAt hc (x := .patch x) hx p q
  refine (beq_iff_baseAt (ha.editAt (fun _ hk => hk.apply ho.ordered) p)
    (ha'.editAt (fun _ hk => hk.apply ho'.ordered) p')).2 fun q => ?_
  have hq : a.baseAt q == a'.baseAt q := (beq_iff_baseAt ha ha').1 haa q
  rw [← applyAt, ← applyAt, hturn ha ho.ordered, hturn ha' ho'.ordered, Path.after?_congr hpp]
  cases Path.after? p' q with
  | none => exact hq
  | some s => exact ((ho.beq_iff_headAt ho').1 hoo s).act hq

/-- Equal contexts of the right shape. -/
structure Alike (a b : Context) : Prop where
  left : a.Valid
  right : b.Valid
  beq : a == b

namespace Alike

/-- The order looks at contexts up to equality. -/
theorem compare_eq (ha : a.Alike a') (hb : b.Alike b') : compare a b = compare a' b' := by
  have hleft : compareValid ⟨a, ha.left⟩ ⟨a', ha.right⟩ = .eq := compare_eq_eq_iff.2 ha.beq
  have hright : compareValid ⟨b, hb.left⟩ ⟨b', hb.right⟩ = .eq := compare_eq_eq_iff.2 hb.beq
  exact (TransCmp.congr_left hleft).trans (TransCmp.congr_right hright)

theorem symm (h : a.Alike b) : b.Alike a := ⟨h.right, h.left, h.left.beq_symm h.right h.beq⟩

/-- What refines to a context does so to its equals, and so do its own equals. -/
theorem refines_of_refines (ha : a.Alike a') (hb : b.Alike b') (h : a.refines b) :
    a'.refines b' := by
  have hab' : a.refines b' :=
    ha.left.refines_trans hb.left hb.right h (hb.left.refines_of_beq hb.right hb.beq)
  exact ha.right.refines_trans ha.left hb.right
    (ha.right.refines_of_beq ha.left ha.symm.beq) hab'

/-- Refinement looks at contexts up to equality. -/
theorem refines_eq (ha : a.Alike a') (hb : b.Alike b') : a.refines b = a'.refines b' :=
  Bool.eq_iff_iff.2 ⟨ha.refines_of_refines hb, ha.symm.refines_of_refines hb.symm⟩

end Alike

end Context

/-! ## domains -/

namespace Domain

open Context (Alike)

variable {d d' : Domain} {a a' : Context} {l m : List Context}

/-- Lists that are equal one by one are alike one by one. -/
theorem alike_of_beq (hl : ∀ v ∈ l, v.Valid) (hm : ∀ v ∈ m, v.Valid)
    (h : List.Forall₂ (· == ·) l m) : List.Forall₂ Alike l m := by
  induction h with
  | nil => exact .nil
  | cons hvw _ ih =>
    obtain ⟨hv, hl⟩ := List.forall_mem_cons.1 hl
    obtain ⟨hw, hm⟩ := List.forall_mem_cons.1 hm
    exact .cons ⟨hv, hw, hvw⟩ (ih hl hm)

/-- Whether one of several contexts lies above another is asked up to equality. -/
theorem isBelow_congr (ha : a.Alike a') (h : List.Forall₂ Alike l m) :
    isBelow a l = isBelow a' m := by
  induction h with
  | nil => rfl
  | cons hvw _ ih =>
    rw [isBelow, List.any_cons, ha.refines_eq hvw, hvw.refines_eq ha]
    exact congrArg _ ih

/-- What is maximal among contexts stays so among their equals, in the same places. -/
theorem maximal_congr (h : List.Forall₂ Alike l m) :
    List.Forall₂ Alike (maximal l) (maximal m) :=
  List.rel_filter (fun v w hvw => by simp only [isBelow_congr hvw h]) h

/-- Domains of equal versions have equal near fits. -/
theorem near_congr (hd : Ascending d.versions) (hd' : Ascending d'.versions)
    (hdd : List.Forall₂ Alike d.versions d'.versions) (ha : a.Alike a') :
    List.Forall₂ Alike (d.near a) (d'.near a') := by
  rw [near_eq hd, near_eq hd']
  exact maximal_congr (List.rel_filter (fun v w hvw => by simp only [hvw.refines_eq ha]) hdd)

/-- Domains of equal versions have equal best fits: those near fits that stand alone. -/
theorem best?_congr (hd : Ascending d.versions) (hd' : Ascending d'.versions)
    (hdd : List.Forall₂ Alike d.versions d'.versions) (ha : a.Alike a') :
    Option.Rel (· == ·) (d.best? a) (d'.best? a') := by
  have hnear := near_congr hd hd' hdd ha
  cases hm : d.best? a with
  | some m =>
    rw [(best?_eq_some_iff_near_eq hd).1 hm, List.forall₂_cons_left_iff] at hnear
    obtain ⟨m', rest, hmm, hrest, hnear'⟩ := hnear
    rw [List.forall₂_nil_left_iff.1 hrest] at hnear'
    rw [(best?_eq_some_iff_near_eq hd').2 hnear']
    exact .some hmm.beq
  | none =>
    cases hm' : d'.best? a' with
    | none => exact .none
    | some m' =>
      rw [(best?_eq_some_iff_near_eq hd').1 hm', List.forall₂_cons_right_iff] at hnear
      obtain ⟨m, rest, -, hrest, hnear'⟩ := hnear
      rw [List.forall₂_nil_right_iff.1 hrest] at hnear'
      rw [(best?_eq_some_iff_near_eq hd).2 hnear'] at hm
      cases hm

end Domain

/-! ## all together -/

/-- What equality looks past: how a name is written, the sign of zero, which NaN it is, and the
object of a bound value. -/
theorem beq_looks_past :
    (∀ (t : Text) (quoted quoted' : Bool), Dimension.name t quoted == .name t quoted') ∧
    Scalar.number (.ofMagnitude false 0) == .number (.ofMagnitude true 0) ∧
    (∀ x y : Number, x.isNaN → y.isNaN → Scalar.number x == .number y) ∧
    ∀ (packed : List UInt8) (object object' : Option HostObject),
      Scalar.bound ⟨packed, object⟩ == .bound ⟨packed, object'⟩ := by
  refine ⟨fun t _ _ => ?_, by decide +kernel, fun x y hx hy => ?_, fun packed _ _ => ?_⟩
  · exact compare_eq_iff_beq.1 (ReflCmp.compare_self : compare t t = .eq)
  · refine compare_eq_iff_beq.1 ?_
    rw [Scalar.compare_number_of_isNaN hy x, if_pos hx]
  · exact compare_eq_iff_beq.1 (Scalar.compare_bound_eq_eq_iff.2 rfl)

/-- **Equals may be put for equals.**  Equal contexts, patches in normal form and paths give equal
edits, compositions and patches of contexts; both orders answer the same of equal contexts; and
of domains with equal versions equal requests bring out equal best fits and near fits.  And there
are equals that are not identical. -/
theorem equals_for_equals {a a' b b' : Context} (ha : a.Reachable) (ha' : a'.Reachable)
    (haa : a == a') (hb : b.Reachable) (hb' : b'.Reachable) (hbb : b == b')
    {o o' r r' : Patch} (ho : o.Reduced) (ho' : o'.Reduced) (hoo : o == o')
    (hr : r.Reduced) (hr' : r'.Reduced) (hrr : r == r') {p p' : Path} (hpp : p == p')
    {d d' : Domain} (hd : d.Reachable) (hd' : d'.Reachable)
    (hdd : List.Forall₂ (· == ·) d.versions d'.versions) :
    a.applyAt p o == a'.applyAt p' o' ∧
    Patch.compose o r == Patch.compose o' r' ∧
    Patch.ofContext a == Patch.ofContext a' ∧
    compare a b = compare a' b' ∧
    a.refines b = a'.refines b' ∧
    Option.Rel (· == ·) (d.best? a) (d'.best? a') ∧
    List.Forall₂ (· == ·) (d.near a) (d'.near a') ∧
    (∀ (t : Text) (quoted quoted' : Bool), Dimension.name t quoted == .name t quoted') ∧
    Scalar.number (.ofMagnitude false 0) == .number (.ofMagnitude true 0) ∧
    (∀ x y : Number, x.isNaN → y.isNaN → Scalar.number x == .number y) ∧
    ∀ (packed : List UInt8) (object object' : Option HostObject),
      Scalar.bound ⟨packed, object⟩ == .bound ⟨packed, object'⟩ := by
  have halike : a.Alike a' := ⟨ha.valid, ha'.valid, haa⟩
  have hblike : b.Alike b' := ⟨hb.valid, hb'.valid, hbb⟩
  have hdlike : List.Forall₂ Context.Alike d.versions d'.versions :=
    Domain.alike_of_beq hd.ascending.valid hd'.ascending.valid hdd
  exact ⟨Context.applyAt_congr ha.valid ha'.valid haa ho ho' hoo hpp,
    ho.compose_congr ho' hr hr' hoo hrr,
    Patch.ofContext_congr ha.valid ha'.valid haa,
    halike.compare_eq hblike,
    halike.refines_eq hblike,
    Domain.best?_congr hd.ascending hd'.ascending hdlike halike,
    (Domain.near_congr hd.ascending hd'.ascending hdlike halike).imp fun _ _ h => h.beq,
    beq_looks_past⟩

/-- The context is built twice, with a name bare and quoted, a zero of either sign and a bound
value with and without its object; so are the patches, whose clearing region spares that name,
and the domain, whose other version holds a NaN. -/
theorem equals_for_equals_unlike_inside :
    let build (quoted sign : Bool) (object : Option HostObject) : Context :=
      (Context.empty.setBaseAt [.name ['x'] quoted] (.number (.ofMagnitude sign 0))).setBaseAt
        [.integer 1] (.bound ⟨[7], object⟩)
    let other (sign : Bool) : Context := .ofBase (.number (.nan sign))
    let spare (quoted sign : Bool) : Patch :=
      (Patch.noop.setBaseAt [.name ['x'] quoted, .integer 2] (.number (.nan sign))).setClearDimsAt
        []
    let a := build false false none
    let a' := build true true (some (.integer 5))
    let path (quoted : Bool) : Path := [.name ['x'] quoted]
    let d : Domain := .ofList [a, other false]
    let d' : Domain := .ofList [a', other true]
    a.applyAt (path true) (spare false true) == a'.applyAt (path false) (spare true false) ∧
      Patch.compose (spare false true) (.ofContext a) ==
        Patch.compose (spare true false) (.ofContext a') ∧
      Patch.ofContext a == Patch.ofContext a' ∧
      compare a (other false) = compare a' (other true) ∧
      a.refines (other false) = a'.refines (other true) ∧
      Option.Rel (· == ·) (d.best? a) (d'.best? a') ∧
      List.Forall₂ (· == ·) (d.near a) (d'.near a') ∧
      (a.applyAt (path true) (spare false true)).text = "<1:<@07>+\"x\":<0+x:<2:<NaN>>>>".toList := by
  intro build other spare a a' path d d'
  have ha : a.Reachable := .setBaseAt (.setBaseAt .empty _ _) _ _
  have ha' : a'.Reachable := .setBaseAt (.setBaseAt .empty _ _) _ _
  have hother (sign : Bool) : (other sign).Reachable := .ofBase _
  have hspare (quoted sign : Bool) : (spare quoted sign).Reduced :=
    (Patch.Built.setClearDimsAt (.setBaseAt .noop _ _) _).reduced
  have hd : d.Reachable := .ofList (by simp [ha, hother])
  have hd' : d'.Reachable := .ofList (by simp [ha', hother])
  have hversions : List.Forall₂ (· == ·) d.versions d'.versions :=
    .cons (by decide +kernel) (.cons (by decide +kernel) .nil)
  have hpath : path true == path false := by decide
  obtain ⟨happly, hcompose, hof, hcompare, hrefines, hbest, hnear, -⟩ :=
    equals_for_equals ha ha' (by decide +kernel) (hother false) (hother true) (by decide +kernel)
      (hspare false true) (hspare true false) (by decide +kernel)
      (Patch.reduced_ofContext ha.valid) (Patch.reduced_ofContext ha'.valid) (by decide +kernel)
      hpath hd hd' hversions
  exact ⟨happly, hcompose, hof, hcompare, hrefines, hbest, hnear, by decide +kernel⟩

end Intension
