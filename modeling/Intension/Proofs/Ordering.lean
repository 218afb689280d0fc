import Intension.Dimension
import Intension.Scalar

/-!
# Intension.Proofs.Ordering

The orders on scalars and dimensions are total up to their equality: each is a
lexicographic order of keys that lie in total orders of their own.  Equality,
being that of the order, is an equivalence, and refinement of scalars is a
partial order up to it.
-/

namespace Intension

open Std

/-! ## dimensions -/

namespace Dimension

/-- Names lie above integers. -/
def isName : Dimension → Bool
  | integer _ => false
  | name _ _ => true

/-- The value of an integer; all names share one. -/
def intKey : Dimension → Int32
  | integer i => i
  | name _ _ => 0

/-- The characters of a name; an integer has none. -/
def textKey : Dimension → Text
  | integer _ => []
  | name t _ => t

/-- The order of dimensions as a lexicographic order of keys. -/
theorem cmp_eq_compareLex : cmp =
    compareLex (compareOn isName) (compareLex (compareOn intKey) (compareOn textKey)) := by
  funext d e
  cases d <;> cases e <;>
    simp [cmp, compareLex, compareOn, isName, intKey, textKey, Ordering.then_eq] <;> rfl

instance : TransOrd Dimension := by
  show TransCmp cmp
  rw [cmp_eq_compareLex]
  infer_instance

instance : LawfulBEqOrd Dimension where
  compare_eq_iff_beq := beq_iff_eq.symm

/-- Dimensions compare alike with equal ones. -/
theorem compare_congr_left {d e : Dimension} (h : d == e) (k : Dimension) :
    compare d k = compare e k :=
  TransCmp.congr_left (compare_eq_iff_beq.2 h)

theorem compare_congr_right {d e : Dimension} (h : d == e) (k : Dimension) :
    compare k d = compare k e :=
  TransCmp.congr_right (compare_eq_iff_beq.2 h)

end Dimension

/-! ## scalars -/

namespace Scalar

/-- The rank of a number; other scalars share one. -/
def numberKey : Scalar → Int
  | number x => x.rank
  | _ => 0

/-- The characters of a string; other scalars have none. -/
def textKey : Scalar → Text
  | string t => t
  | _ => []

/-- The bytes of a payload; other scalars have none. -/
def bytesKey : Scalar → List UInt8
  | binary bytes => bytes
  | bound b => b.packed
  | _ => []

/-- The order of scalars as a lexicographic order of keys. -/
theorem cmp_eq_compareLex : cmp =
    compareLex (compareOn fun a => a.kind.tag)
      (compareLex (compareOn numberKey)
        (compareLex (compareOn textKey) (compareOn bytesKey))) := by
  funext a b
  cases a <;> cases b <;>
    simp [cmp, compareLex, compareOn, numberKey, textKey, bytesKey, kind, Number.compare_eq,
      Ordering.then_eq] <;> rfl

instance : TransOrd Scalar := by
  show TransCmp cmp
  rw [cmp_eq_compareLex]
  infer_instance

instance : LawfulBEqOrd Scalar where
  compare_eq_iff_beq := beq_iff_eq.symm

/-- A NaN lies above every other number, and all NaNs are equal. -/
theorem compare_number_of_isNaN {x : Number} (hx : x.isNaN) (y : Number) :
    compare (number y) (number x) = if y.isNaN then .eq else .lt := by
  show compare y.rank x.rank = _
  split
  · next hy => exact Int.compare_eq_eq.2 (Number.rank_eq_of_isNaN hx hy)
  · next hy => exact Int.compare_eq_lt.2 (Number.rank_lt_of_isNaN hx hy)

/-- Bound values are equal if their bytes are, whatever their objects. -/
theorem compare_bound_eq_eq_iff {a b : Bound} :
    compare (bound a) (bound b) = .eq ↔ a.packed = b.packed :=
  compare_eq_iff_eq (α := List UInt8)

/-- Absent bases are equal to each other only, and others as their order says. -/
theorem option_beq_iff {v w : Option Scalar} :
    v == w ↔ Option.Rel (fun x y => compare x y = .eq) v w := by
  cases v with
  | none => cases w <;> simp
  | some x =>
    cases w with
    | none => simp
    | some y =>
      rw [Option.rel_some_some, compare_eq_iff_beq]
      exact Iff.rfl

/-! ### refinement -/

/-- A value refines another exactly if it is `alpha`, the other is `omega`, or they are equal. -/
theorem refines_iff {a b : Scalar} : a.refines b ↔ a = alpha ∨ b = omega ∨ a == b := by
  cases a <;> cases b <;> simp [refines]

/-- Only `alpha` equals `alpha`. -/
theorem eq_alpha_of_beq {a : Scalar} (h : a == alpha) : a = alpha := by
  cases a <;> first | rfl | cases h

/-- Only `omega` equals `omega`. -/
theorem eq_omega_of_beq {a : Scalar} (h : a == omega) : a = omega := by
  cases a <;> first | rfl | cases h

theorem refines_of_beq {a b : Scalar} (h : a == b) : a.refines b :=
  refines_iff.2 (.inr (.inr h))

@[simp] theorem refines_refl (a : Scalar) : a.refines a :=
  refines_of_beq BEq.rfl

theorem refines_trans {a b c : Scalar} (hab : a.refines b) (hbc : b.refines c) :
    a.refines c := by
  rw [refines_iff] at hab hbc ⊢
  obtain rfl | rfl | hab := hab
  · exact .inl rfl
  · obtain h | rfl | h := hbc
    · cases h
    · exact .inr (.inl rfl)
    · exact .inr (.inl (eq_omega_of_beq (BEq.symm h)))
  · obtain rfl | rfl | h := hbc
    · exact .inl (eq_alpha_of_beq hab)
    · exact .inr (.inl rfl)
    · exact .inr (.inr (BEq.trans hab h))

/-- Values that refine one another are equal. -/
theorem beq_of_refines {a b : Scalar} (hab : a.refines b) (hba : b.refines a) : a == b := by
  rw [refines_iff] at hab hba
  obtain rfl | rfl | h := hab
  · obtain rfl | h | h := hba
    · exact BEq.rfl
    · cases h
    · exact BEq.symm h
  · obtain h | rfl | h := hba
    · cases h
    · exact BEq.rfl
    · exact BEq.symm h
  · exact h

end Scalar

end Intension
