import Intension.Proofs.Change
import Intension.Proofs.Context.Order
import Intension.Proofs.Context.Refinement
import Intension.Proofs.LiveTree.Content
import Intension.Proofs.Reachable

/-!
# Intension.Proofs.Orders

The two orders are what they are taken for.  The total order, whose tie-break
reads the cached counts, is one of content: it tells two trees apart just when
they carry different bases at some path.  Refinement is pointwise, and a
partial order up to that equality.

Contexts and the nodes of live trees can be compared in any mixture; the order
sees a node of a live tree as a context of the right shape (`Mimics`), and there
the laws are those of contexts.

Changes keep refinement.  What a change makes of the base at a path depends on nothing
but that base, and it makes a matched base of a matched one, so the contexts may be of
any two shapes: what is created, cleared or pruned in one of them and not in the other
makes no difference.
-/

namespace Intension.Context

/-! ## what can be compared -/

/-- What the total order is asked about: contexts, and nodes of live trees with their shells. -/
inductive Comparable : Context → Prop
  | context {c : Context} (hc : c.Reachable) : Comparable c
  | node {t k : LiveTree} {path : Path} (ht : t.Reachable) (hk : t.get? path = some k) :
      Comparable k.content

/-- The total order cannot tell `c` from `k`, which is of the right shape and has the bases
of `c`. -/
structure Mimics (k c : Context) : Prop where
  valid : k.Valid
  left : ∀ b, compare c b = compare k b
  right : ∀ a, compare a c = compare a k
  baseAt : ∀ p, c.baseAt p = k.baseAt p

/-- Contexts compare like those that mimic them. -/
theorem Mimics.compare_eq {a b k m : Context} (hk : Mimics k a) (hm : Mimics m b) :
    compare a b = compare k m := (hk.left b).trans (hm.right k)

/-- Every content to be compared is mimicked by a context. -/
theorem Comparable.exists_mimics {c : Context} (h : c.Comparable) : ∃ k, Mimics k c := by
  cases h with
  | context hc => exact ⟨c, hc.valid, fun _ => rfl, fun _ => rfl, fun _ => rfl⟩
  | @node t k path ht hk =>
    have hvalid : k.Valid := ht.valid.get? hk
    exact ⟨k.snapshot, hvalid.snapshot, hvalid.compare_content_left,
      hvalid.compare_content_right, hvalid.baseAt_content_eq⟩

/-! ## the total order -/

/-- **The total order is one of content**: it is total and transitive, and trees compare equal
just when at every path they have either no base or equal ones.  Of bases all NaNs are equal and
above the other numbers, the two zeros are equal, and bound values go by their bytes. -/
theorem compare_total_order {a b c : Context} (ha : a.Comparable) (hb : b.Comparable)
    (hc : c.Comparable) :
    compare a b = (compare b a).swap ∧
    ((compare a b).isLE → (compare b c).isLE → (compare a c).isLE) ∧
    (compare a b = .lt → compare b c = .lt → compare a c = .lt) ∧
    (compare a b = .eq ↔
      ∀ p, Option.Rel (fun v w => compare v w = .eq) (a.baseAt p) (b.baseAt p)) ∧
    (∀ x y : Number, x.isNaN →
      compare (Scalar.number y) (.number x) = if y.isNaN then .eq else .lt) ∧
    compare (Scalar.number (.ofMagnitude false 0)) (.number (.ofMagnitude true 0)) = .eq ∧
    (∀ s t : Bound, compare (Scalar.bound s) (.bound t) = .eq ↔ s.packed = t.packed) := by
  obtain ⟨k, hk⟩ := ha.exists_mimics
  obtain ⟨m, hm⟩ := hb.exists_mimics
  obtain ⟨n, hn⟩ := hc.exists_mimics
  refine ⟨?_, ?_, ?_, ?_, fun x y hx => Scalar.compare_number_of_isNaN hx y, by decide +kernel,
    fun s t => Scalar.compare_bound_eq_eq_iff⟩
  · rw [hk.compare_eq hm, hm.compare_eq hk]
    exact hk.valid.compare_swap hm.valid
  · rw [hk.compare_eq hm, hm.compare_eq hn, hk.compare_eq hn]
    exact hk.valid.isLE_trans hm.valid hn.valid
  · rw [hk.compare_eq hm, hm.compare_eq hn, hk.compare_eq hn]
    exact hk.valid.lt_trans hm.valid hn.valid
  · rw [hk.compare_eq hm, compare_eq_eq_iff, beq_iff_baseAt hk.valid hm.valid]
    exact forall_congr' fun p => by rw [hk.baseAt, hm.baseAt, Scalar.option_beq_iff]

/-- A live tree with a NaN at `2` and an observer on an empty shell at `1`. -/
def shelled : LiveTree :=
  ((LiveTree.empty.attach [.integer 1] ⟨0, true⟩).changeAt ⟨fun _ => none, none⟩ []
    (.patch (.setBaseAt [.integer 2] (.number (.nan false)) .noop))).1

/-- The shell and the sign of the NaN are not seen.  Where one tree is a front of another, the
one with more bases is greater. -/
theorem compare_total_order_of_shell :
    (∀ p, Option.Rel (fun v w => compare v w = .eq) (shelled.content.baseAt p)
      ((empty.setBaseAt [.integer 2] (.number (.nan true))).baseAt p)) ∧
    compare shelled.content ((empty.setBaseAt [.integer 2] (.number (.nan true))).setBaseAt
      [.integer 3] .alpha) = .lt := by
  have hshelled : shelled.content.Comparable :=
    @Comparable.node shelled shelled [] (.changeAt (.attach .empty _ _) _ _
      (.patch (.setBaseAt .noop _ _))) rfl
  have hplain : (empty.setBaseAt [.integer 2] (.number (.nan true))).Comparable :=
    .context (.setBaseAt .empty _ _)
  have hlonger : ((empty.setBaseAt [.integer 2] (.number (.nan true))).setBaseAt [.integer 3]
      .alpha).Comparable := .context (.setBaseAt (.setBaseAt .empty _ _) _ _)
  obtain ⟨_, _, _, hcontent, _⟩ := compare_total_order hshelled hplain hlonger
  obtain ⟨hswap, _⟩ := compare_total_order hshelled hlonger hplain
  refine ⟨hcontent.1 (by decide +kernel), hswap.trans ?_⟩
  decide +kernel

/-! ## refinement -/

/-- **Refinement is pointwise and a partial order**, and the short cut by equality does not
change the answer. -/
theorem refines_partial_order {a b c : Context} (ha : a.Reachable) (hb : b.Reachable)
    (hc : c.Reachable) :
    (a.refines b ↔ ∀ p v, a.baseAt p = some v → ∃ w, b.baseAt p = some w ∧ v.refines w) ∧
    a.refines a ∧
    (a.refines b → b.refines c → a.refines c) ∧
    (a.refines b ∧ b.refines a ↔ a == b) ∧
    a.refines b = refinesView a b :=
  ⟨refines_iff_baseAt ha.valid hb.valid, ha.valid.refines_refl,
    ha.valid.refines_trans hb.valid hc.valid,
    ⟨fun h => ha.valid.beq_of_refines hb.valid h.1 h.2,
      fun h => ⟨ha.valid.refines_of_beq hb.valid h,
        hb.valid.refines_of_beq ha.valid (ha.valid.beq_symm hb.valid h)⟩⟩,
    refines_eq_refinesView ha.valid hb.valid⟩

/-- `~` at `1` refines to a zero there, which refines to the other zero beside a `^` at `2`. -/
theorem refines_partial_order_through_zeros :
    (empty.setBaseAt [.integer 1] .alpha).refines
      ((empty.setBaseAt [.integer 1] (.number (.ofMagnitude true 0))).setBaseAt [.integer 2]
        .omega) := by
  have hfirst : (empty.setBaseAt [.integer 1] .alpha).Reachable := .setBaseAt .empty _ _
  have hsecond : (empty.setBaseAt [.integer 1] (.number (.ofMagnitude false 0))).Reachable :=
    .setBaseAt .empty _ _
  have hthird : ((empty.setBaseAt [.integer 1] (.number (.ofMagnitude true 0))).setBaseAt
      [.integer 2] .omega).Reachable := .setBaseAt (.setBaseAt .empty _ _) _ _
  obtain ⟨_, _, htrans, _⟩ := refines_partial_order hfirst hsecond hthird
  exact htrans (by decide +kernel) (by decide +kernel)

end Intension.Context

namespace Intension

/-! ## what changes keep -/

/-- A head keeps or replaces a base and its match alike. -/
theorem Patch.Head.act_matched (h : Head) {old old' : Option Scalar}
    (hold : ∀ v, old = some v → ∃ w, old' = some w ∧ v.refines w) :
    ∀ v, h.act old = some v → ∃ w, h.act old' = some w ∧ v.refines w := by
  intro v hv
  unfold Head.act at hv ⊢
  cases hbase : h.base with
  | some x =>
    rw [hbase] at hv
    obtain rfl : x = v := Option.some.inj hv
    exact ⟨x, rfl, Scalar.refines_refl x⟩
  | none =>
    rw [hbase] at hv
    cases hclears : h.clearsBase with
    | true =>
      rw [hclears] at hv
      cases hv
    | false =>
      rw [hclears] at hv
      exact hold v hv

namespace Context

/-- **A change keeps refinement**, at the end of any path. -/
theorem Valid.refines_changeAt {a b : Context} (ha : a.Valid) (hb : b.Valid) (h : a.refines b)
    {x : Change} (hx : x.Sound) (path : Path) :
    (a.changeAt path x).refines (b.changeAt path x) := by
  rw [refines_iff_baseAt ha hb] at h
  refine (refines_iff_baseAt (ha.changeAt hx path) (hb.changeAt hx path)).2 fun q => ?_
  rw [baseAt_changeAt ha hx, baseAt_changeAt hb hx]
  cases Path.after? path q with
  | none => exact h q
  | some r => exact (x.headAt r).act_matched (h q)

/-- **Patching keeps refinement**, at the top and at the end of any path.  The patch need not be in
normal form, only in order. -/
theorem refines_apply {a b : Context} (ha : a.Reachable) (hb : b.Reachable) (h : a.refines b)
    {p : Patch} (hp : p.Ordered) (path : Path) :
    (a.apply p).refines (b.apply p) ∧ (a.applyAt path p).refines (b.applyAt path p) :=
  ⟨ha.valid.refines_changeAt hb.valid h (x := .patch p) hp [],
    ha.valid.refines_changeAt hb.valid h (x := .patch p) hp path⟩

/-- The first context has no node at `2`, where the second one has two below.  The patch drops what
it does not list and creates `2:4`, which prunes `1` in both and `2:3` in the second. -/
theorem refines_apply_of_other_shape :
    let a := empty.setBaseAt [.integer 1] .alpha
    let b := ((empty.setBaseAt [.integer 1] .omega).setBaseAt [.integer 2] .omega).setBaseAt
      [.integer 2, .integer 3] .alpha
    let p := (Patch.noop.setBaseAt [.integer 2, .integer 4] .alpha).setClearDimsAt []
    (a.apply p).refines (b.apply p) ∧
      (a.applyAt [.integer 2] p).refines (b.applyAt [.integer 2] p) ∧
      (a.apply p).text = "<2:<4:<~>>>".toList ∧ (b.apply p).text = "<2:<^+4:<~>>>".toList := by
  intro a b p
  have ha : a.Reachable := .setBaseAt .empty _ _
  have hb : b.Reachable := .setBaseAt (.setBaseAt (.setBaseAt .empty _ _) _ _) _ _
  have hp : p.Ordered := (Patch.Reachable.setClearDimsAt (.setBaseAt .noop _ _) _).ordered
  obtain ⟨htop, hbelow⟩ := refines_apply ha hb (by decide +kernel) hp [.integer 2]
  exact ⟨htop, hbelow, by decide +kernel, by decide +kernel⟩

end Context

end Intension
