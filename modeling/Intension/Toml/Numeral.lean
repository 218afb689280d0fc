import Intension.Number.Decimal
import Intension.Text.Basic
import Intension.Toml.Basic

/-!
# Intension.Toml.Numeral

Numbers, dates and times of day.  Single underscores may stand between digits.  An
integer has to fit 64 bits; hexadecimal, octal and binary ones have no sign.  A number
with a fraction or an exponent is read as the double nearest to it, which may be minus
infinity, while one too large for a double is refused.

A moment is a date, a time, or a date and a time with or without an offset from
universal time.  A day has to be one that its month has, and a minute may have a
sixty-first second.
-/

namespace Intension.Toml

/-- Digits with single underscores between some of them, and what follows. -/
def readDigitRun (isDigit : Char → Bool) : Text → Option (Text × Text)
  | [] => none
  | c :: '_' :: t =>
    if isDigit c then (readDigitRun isDigit t).map fun (ds, r) => (c :: ds, r) else none
  | c :: t =>
    if isDigit c then
      match readDigitRun isDigit t with
      | some (ds, r) => some (c :: ds, r)
      | none =>
        match t with
        | d :: _ => if isDigit d then none else some ([c], t)
        | [] => some ([c], t)
    else none

/-- The value of an integer, if it fits 64 bits. -/
def int64? (i : Int) : Option Toml :=
  if -(2 ^ (63 : Nat)) ≤ i ∧ i < 2 ^ (63 : Nat) then some (integer i) else none

/-- The integer that digits of a base spell after their mark, and what follows. -/
def readBased (base : Nat) (t : Text) : Option (Toml × Text) := do
  let (ds, r) ← readDigitRun (Hex.isDigit base) t
  return (← int64? (← Hex.number? base ds), r)

/-- The value of a numeral without underscores that has a fraction or an exponent. -/
def real? (isNegative : Bool) (t : Text) : Option Toml :=
  let x := { Number.Numeral.ofText t with isNegative }.value
  if x = Number.infinity false then none else some (real x)

/-- The digits of an exponent with its mark and sign, and what follows; both may be missing
together. -/
def readExponent : Text → Option (Text × Text)
  | c :: t =>
    if c = 'e' ∨ c = 'E' then
      let (down, unsigned) := Number.takeSign t
      (readDigitRun Char.isDigit unsigned).map fun (ds, r) =>
        ((if down then [c, '-'] else [c]) ++ ds, r)
    else some ([], c :: t)
  | [] => some ([], [])

/-- The decimal number at the front of a text without its sign, and what follows. -/
def readDecimal (isNegative : Bool) (t : Text) : Option (Toml × Text) := do
  let (ds, r) ← match t with
    | '0' :: r => some (['0'], r)
    | t => readDigitRun Char.isDigit t
  match r with
  | '.' :: r =>
    let (fraction, r) ← readDigitRun Char.isDigit r
    let (exponent, r) ← readExponent r
    return (← real? isNegative (ds ++ '.' :: fraction ++ exponent), r)
  | _ =>
    let (exponent, r) ← readExponent r
    if exponent.isEmpty then
      let n : Int := Number.readDigits ds
      return (← int64? (if isNegative then -n else n), r)
    else return (← real? isNegative (ds ++ exponent), r)

/-- The number at the front of a text, and what follows. -/
def readNumber (t : Text) : Option (Toml × Text) :=
  let (isNegative, unsigned) := Number.takeSign t
  match unsigned with
  | 'i' :: 'n' :: 'f' :: r => some (real (Number.infinity isNegative), r)
  | 'n' :: 'a' :: 'n' :: r => some (real (Number.nan isNegative), r)
  | _ =>
    match t with
    | '0' :: 'x' :: r => readBased 16 r
    | '0' :: 'o' :: r => readBased 8 r
    | '0' :: 'b' :: r => readBased 2 r
    | _ => readDecimal isNegative unsigned

/-! ## moments -/

/-- What follows a character, if the text starts with it. -/
def skipMark? (mark : Char) : Text → Option Text
  | c :: t => if c = mark then some t else none
  | [] => none

/-- The number of a fixed count of digits at the front of a text, and what follows. -/
def readCount (count : Nat) (t : Text) : Option (Nat × Text) :=
  let ds := (t.take count).takeWhile Char.isDigit
  if ds.length = count then some (Number.readDigits ds, t.drop count) else none

/-- The number of two digits at the front of a text, if it lies within bounds, and what
follows. -/
def readPair (low high : Nat) (t : Text) : Option (Nat × Text) :=
  (readCount 2 t).filter fun (n, _) => low ≤ n && n ≤ high

/-- Whether a year has a leap day. -/
def isLeapYear (year : Nat) : Bool := year % 4 == 0 && (year % 100 != 0 || year % 400 == 0)

/-- The number of days of a month. -/
def daysOfMonth (year month : Nat) : Nat :=
  if month = 2 then (if isLeapYear year then 29 else 28)
  else if month ∈ [4, 6, 9, 11] then 30
  else 31

/-- What follows a date, if the text starts with one. -/
def skipDate? (t : Text) : Option Text := do
  let (year, t) ← readCount 4 t
  let (month, t) ← readPair 1 12 (← skipMark? '-' t)
  let (_, t) ← readPair 1 (daysOfMonth year month) (← skipMark? '-' t)
  return t

/-- What follows the fraction of a second, if the text starts with one. -/
def skipFraction : Text → Text
  | '.' :: t => if (t.takeWhile Char.isDigit).isEmpty then '.' :: t else t.dropWhile Char.isDigit
  | t => t

/-- What follows hours and minutes, if the text starts with them. -/
def skipMinutes? (t : Text) : Option Text := do
  let (_, t) ← readPair 0 23 t
  let (_, t) ← readPair 0 59 (← skipMark? ':' t)
  return t

/-- What follows a time of day, if the text starts with one. -/
def skipTime? (t : Text) : Option Text := do
  let (_, t) ← readPair 0 60 (← skipMark? ':' (← skipMinutes? t))
  return skipFraction t

/-- What follows an offset from universal time, if the text starts with one. -/
def skipOffset : Text → Text
  | 'Z' :: t | 'z' :: t => t
  | '+' :: t => (skipMinutes? t).getD ('+' :: t)
  | '-' :: t => (skipMinutes? t).getD ('-' :: t)
  | t => t

/-- What follows a time of day and an offset after the date they belong to, if the text starts
with them. -/
def skipTimeOfDate (t : Text) : Text :=
  match t with
  | 'T' :: r | 't' :: r | ' ' :: r => ((skipTime? r).map skipOffset).getD t
  | _ => t

/-- What follows a date or a time, if the text starts with one. -/
def skipMoment? (t : Text) : Option Text :=
  match skipDate? t with
  | some r => some (skipTimeOfDate r)
  | none => skipTime? t

/-- The date or time at the front of a text, and what follows. -/
def readMoment (t : Text) : Option (Toml × Text) :=
  (skipMoment? t).map fun r => (moment (t.take (t.length - r.length)), r)

end Intension.Toml
