import Intension.Bytes

/-!
# Intension.Number.Basic

Numbers are IEEE 754 doubles, held as their 64 bits, so that every pattern
(both zeros, infinities, each NaN) is a value of its own.  Their order is the
order of one integer key, `Number.rank`: it does not tell the two zeros or
two NaNs apart, and puts NaN above everything.
-/

namespace Intension

/-- A double-precision number, as its bit pattern. -/
structure Number where
  /-- Sign, eleven exponent bits, fifty-two fraction bits. -/
  bits : UInt64
  deriving DecidableEq, Repr

namespace Number

/-- The pattern below the sign bit. -/
def magnitude (x : Number) : Nat := x.bits.toNat % 2 ^ (63 : Nat)

/-- Whether the sign bit is set. -/
def isNegative (x : Number) : Bool := decide (2 ^ (63 : Nat) ≤ x.bits.toNat)

/-- The magnitude of the infinities; smaller ones are finite, greater ones NaN. -/
def infiniteMagnitude : Nat := 2047 * 2 ^ (52 : Nat)

/-- Whether this is no number. -/
def isNaN (x : Number) : Bool := decide (infiniteMagnitude < x.magnitude)

/-- Whether this is neither infinite nor NaN. -/
def isFinite (x : Number) : Bool := decide (x.magnitude < infiniteMagnitude)

/-- The number of a sign and a magnitude. -/
def ofMagnitude (negative : Bool) (magnitude : Nat) : Number :=
  ⟨UInt64.ofNat (if negative then 2 ^ (63 : Nat) + magnitude else magnitude)⟩

/-- The infinity of a sign. -/
def infinity (negative : Bool) : Number := ofMagnitude negative infiniteMagnitude

/-- The quiet NaN without payload. -/
def nan (negative : Bool) : Number := ofMagnitude negative (infiniteMagnitude + 2 ^ (51 : Nat))

/-- The integer `m` of the value `m * 2 ^ e` of a finite number, with `e` the `exponent`. -/
def significand (x : Number) : Nat :=
  if x.magnitude < 2 ^ (52 : Nat) then x.magnitude
  else 2 ^ (52 : Nat) + x.magnitude % 2 ^ (52 : Nat)

/-- The power of two that the significand of a finite number counts. -/
def exponent (x : Number) : Int := (max 1 (x.magnitude / 2 ^ (52 : Nat)) : Nat) - 1075

/-! ## order -/

/-- The key numbers are ordered by: magnitudes grow with the values of one sign,
and NaN lies above all. -/
def rank (x : Number) : Int :=
  if x.isNaN then 2 ^ (63 : Nat) else if x.isNegative then -(x.magnitude : Int) else x.magnitude

instance : Ord Number := ⟨fun x y => compare x.rank y.rank⟩

theorem compare_eq (x y : Number) : compare x y = compare x.rank y.rank := rfl

theorem magnitude_lt (x : Number) : x.magnitude < 2 ^ (63 : Nat) := Nat.mod_lt _ (by decide)

/-- A NaN ranks above every other number. -/
theorem rank_lt_of_isNaN {x y : Number} (hx : x.isNaN) (hy : ¬ y.isNaN) : y.rank < x.rank := by
  have hlt := y.magnitude_lt
  rw [rank, rank, if_pos hx, if_neg hy]
  split <;> omega

/-- All NaNs rank alike. -/
theorem rank_eq_of_isNaN {x y : Number} (hx : x.isNaN) (hy : y.isNaN) : y.rank = x.rank := by
  rw [rank, rank, if_pos hx, if_pos hy]

end Number

end Intension
