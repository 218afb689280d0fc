import Intension.Number.Decimal

/-!
# Intension.Number.Shortest

Writing numbers.  A finite number is written with the fewest digits that read
back as it, and among those as near to it as can be; of two equally near the
greater is taken.  The digits are placed positionally, without an exponent
however long that is.
-/

namespace Intension.Number

/-! ## digits -/

/-- The value of a finite number, its sign aside, as a quotient. -/
def ratio (x : Number) : Nat × Nat :=
  (x.significand * 2 ^ x.exponent.toNat, 2 ^ (-x.exponent).toNat)

/-- The number of digits before the point of `n / d` for positive `n` and `d`, or
minus the number of zeros that follow the point. -/
def pointPosition (n d : Nat) : Int :=
  if d ≤ n then (Text.ofNat (n / d)).length
  else 1 - ((Text.ofNat ((d + n - 1) / n - 1)).length : Int)

/-- The multiple of `10 ^ scale` next to `x` that reads back as `x`, if one does: the
nearer of the two around it, the upper one on a tie. -/
def digitsAt? (x : Number) (scale : Int) : Option Nat :=
  let (n, d) := x.ratio
  let n := n * 10 ^ (-scale).toNat
  let d := d * 10 ^ scale.toNat
  let below := n / d
  let readsBack (digits : Nat) : Bool := decimalMagnitude digits scale == x.magnitude
  match readsBack below, readsBack (below + 1) with
  | true, true => if 2 * (n % d) < d then some below else some (below + 1)
  | true, false => some below
  | false, true => some (below + 1)
  | false, false => none

/-- The digits of the exact value and their scale. -/
def exactDigits (x : Number) : Nat × Int :=
  (x.significand * 2 ^ x.exponent.toNat * 5 ^ (-x.exponent).toNat, min 0 x.exponent)

/-- Digits and scale of a finite number other than zero: the coarsest grid of at most
seventeen digits with a point that reads back.  The exact value stands in for the
case, which does not arise, that there is none. -/
def shortestDigits (x : Number) : Nat × Int :=
  let (n, d) := x.ratio
  let position := pointPosition n d
  ((List.range 17).findSome? fun i =>
    let scale := position - (i + 1 : Nat)
    (x.digitsAt? scale).map (·, scale)).getD x.exactDigits

/-! ## placement -/

/-- A text without the zeros at its end. -/
def dropZeros (t : Text) : Text := (t.reverse.dropWhile (· == '0')).reverse

/-- The numeral of `digits * 10 ^ scale`. -/
def positional (digits : Nat) (scale : Int) : Text :=
  let ds := Text.ofNat digits
  if 0 ≤ scale then ds ++ List.replicate scale.toNat '0'
  else
    let places := (-scale).toNat
    let ds := List.replicate (places + 1 - ds.length) '0' ++ ds
    let whole := ds.take (ds.length - places)
    let fraction := dropZeros (ds.drop (ds.length - places))
    if fraction.isEmpty then whole else whole ++ '.' :: fraction

/-- The numeral of a magnitude, or the name of an infinity. -/
def unsignedText (x : Number) : Text :=
  if x.magnitude = 0 then ['0']
  else if x.isFinite then
    let (digits, scale) := x.shortestDigits
    positional digits scale
  else "inf".toList

/-- The text of a number.  Zero keeps its sign and NaN has none. -/
def text (x : Number) : Text :=
  if x.isNaN then "NaN".toList
  else if x.isNegative then '-' :: x.unsignedText
  else x.unsignedText

end Intension.Number
