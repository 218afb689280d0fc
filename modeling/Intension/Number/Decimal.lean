import Intension.Number.Basic
import Intension.Text.Basic

/-!
# Intension.Number.Decimal

Reading decimal numerals.  A numeral denotes a quotient of naturals, and the
number read is the double nearest to it, a tie going to the even significand
(`nearestMagnitude`).  All arithmetic is exact.
-/

namespace Intension.Number

/-! ## rounding -/

/-- The quotient rounded to the nearest integer, a tie to the even one. -/
def roundQuotient (n d : Nat) : Nat :=
  if 2 * (n % d) < d then n / d
  else if d < 2 * (n % d) then n / d + 1
  else n / d + n / d % 2

/-- The greatest `e` with `2 ^ e ≤ n / d`, for positive `n` and `d`. -/
def log2Quotient (n d : Nat) : Int :=
  let e : Int := (n.log2 : Int) - d.log2
  if d * 2 ^ e.toNat ≤ n * 2 ^ (-e).toNat then e else e - 1

/-- The magnitude of the double nearest to `n / d`.  Counting up from one exponent
to the next, magnitudes run through all doubles without a gap, so a significand
that rounds up to `2 ^ 53` needs no case of its own. -/
def nearestMagnitude (n d : Nat) : Nat :=
  if n = 0 then 0
  else
    let e := max (-1074) (log2Quotient n d - 52)
    let m := roundQuotient (n * 2 ^ (-e).toNat) (d * 2 ^ e.toNat)
    min infiniteMagnitude ((e + 1074).toNat * 2 ^ (52 : Nat) + m)

/-- The magnitude of the double nearest to `digits * 10 ^ scale`.  Beyond 310 places
before the point all values are infinite, and below 330 after it all are zero. -/
def decimalMagnitude (digits : Nat) (scale : Int) : Nat :=
  let places := (Text.ofNat digits).length + scale
  if digits = 0 ∨ places < -330 then 0
  else if 310 < places then infiniteMagnitude
  else nearestMagnitude (digits * 10 ^ scale.toNat) (10 ^ (-scale).toNat)

/-- The number nearest to `digits * 10 ^ scale`, with the given sign. -/
def ofDecimal (negative : Bool) (digits : Nat) (scale : Int) : Number :=
  ofMagnitude negative (decimalMagnitude digits scale)

/-! ## numerals -/

/-- The value of a text of digits. -/
def readDigits (t : Text) : Nat := Nat.ofDigitChars 10 t 0

/-- A sign and what follows it; no sign counts as plus. -/
def takeSign : Text → Bool × Text
  | '-' :: t => (true, t)
  | '+' :: t => (false, t)
  | t => (false, t)

/-- The parts of a numeral. -/
structure Numeral where
  /-- Whether it starts with a minus. -/
  isNegative : Bool
  /-- The digits before the point. -/
  whole : Text
  /-- The digits after the point. -/
  fraction : Text
  /-- The sign and digits of the exponent, after an `e`. -/
  exponent : Option (Bool × Text)
  /-- What follows the numeral. -/
  rest : Text

/-- Cuts a text into the parts of a numeral, each as long as it can be. -/
def Numeral.ofText (t : Text) : Numeral :=
  let (isNegative, t) := takeSign t
  let whole := t.takeWhile Char.isDigit
  let t := t.dropWhile Char.isDigit
  let (fraction, t) := match t with
    | '.' :: r => (r.takeWhile Char.isDigit, r.dropWhile Char.isDigit)
    | _ => ([], t)
  match t with
  | c :: r =>
    if c = 'e' ∨ c = 'E' then
      let (down, r) := takeSign r
      ⟨isNegative, whole, fraction, some (down, r.takeWhile Char.isDigit),
        r.dropWhile Char.isDigit⟩
    else ⟨isNegative, whole, fraction, none, t⟩
  | [] => ⟨isNegative, whole, fraction, none, []⟩

/-- The power of ten that the exponent of a numeral stands for. -/
def Numeral.power (l : Numeral) : Int :=
  match l.exponent with
  | none => 0
  | some (true, ds) => -(readDigits ds : Int)
  | some (false, ds) => readDigits ds

/-- The number a numeral denotes. -/
def Numeral.value (l : Numeral) : Number :=
  ofDecimal l.isNegative (readDigits (l.whole ++ l.fraction)) (l.power - l.fraction.length)

/-- Whether a numeral is complete: it has a digit, an exponent has one too, and
nothing follows. -/
def Numeral.isComplete (l : Numeral) : Bool :=
  !(l.whole ++ l.fraction).isEmpty
    && (match l.exponent with | some (_, ds) => !ds.isEmpty | none => true)
    && l.rest.isEmpty

/-- The number that a numeral of the text grammar denotes. -/
def ofNumeral (t : Text) : Number := (Numeral.ofText t).value

/-- The number a whole text denotes: a numeral, or a name of an infinity or NaN in
any case, each with an optional sign. -/
def ofText? (t : Text) : Option Number :=
  let (isNegative, name) := takeSign t
  let name := String.ofList (name.map Char.toLower)
  if name = "inf" ∨ name = "infinity" then some (infinity isNegative)
  else if name = "nan" then some (nan isNegative)
  else
    let l := Numeral.ofText t
    if l.isComplete then some l.value else none

/-! ## 32-bit integers -/

/-- The 32-bit integer that a text of digits after an optional minus spells. -/
def int32? (t : Text) : Option Int32 :=
  let (isNegative, ds) := match t with
    | '-' :: r => (true, r)
    | _ => (false, t)
  if ds.isEmpty || !ds.all Char.isDigit then none
  else
    let i : Int := if isNegative then -(readDigits ds : Int) else readDigits ds
    if -(2 ^ (31 : Nat)) ≤ i ∧ i < 2 ^ (31 : Nat) then some (Int32.ofInt i) else none

end Intension.Number
