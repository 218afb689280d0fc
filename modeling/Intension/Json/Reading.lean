import Intension.Json.Printing
import Intension.Number.Decimal
import Intension.Text.Basic

/-!
# Intension.Json.Reading

Reading JSON.  The whole text must be one value; control characters in
strings, unpaired surrogates, leading zeros and trailing commas are refused.
-/

namespace Intension.Json

/-- A text without the white space at its front. -/
def skip (t : Text) : Text := t.dropWhile fun c => c == ' ' || c == '\t' || c == '\n' || c == '\r'

/-! ## strings -/

/-- The character that a letter stands for after a backslash. -/
def unescape? (c : Char) : Option Char :=
  match c with
  | '"' => some '"'
  | '\\' => some '\\'
  | '/' => some '/'
  | 'b' => some '\x08'
  | 'f' => some '\x0c'
  | 'n' => some '\n'
  | 'r' => some '\r'
  | 't' => some '\t'
  | _ => none

/-- The rest of a string whose opening quote was read, and what follows its closing one;
`done` holds the characters read, the newest first. -/
def readString (done : List Char) : Text → Option (Text × Text)
  | [] => none
  | '"' :: t => some (done.reverse, t)
  | '\\' :: 'u' :: a :: b :: c :: d :: t =>
    match Hex.number? 16 [a, b, c, d] with
    | none => none
    | some high =>
      if 0xD800 ≤ high ∧ high < 0xDC00 then
        match t with
        | '\\' :: 'u' :: a :: b :: c :: d :: t =>
          match Hex.number? 16 [a, b, c, d] with
          | none => none
          | some low =>
            if 0xDC00 ≤ low ∧ low < 0xE000 then
              readString (Char.ofNat (0x10000 + (high - 0xD800) * 0x400 + (low - 0xDC00)) :: done) t
            else none
        | _ => none
      else if 0xDC00 ≤ high ∧ high < 0xE000 then none
      else readString (Char.ofNat high :: done) t
  | '\\' :: c :: t =>
    match unescape? c with
    | some d => readString (d :: done) t
    | none => none
  | c :: t => if c.toNat < 0x20 then none else readString (c :: done) t

/-! ## numbers -/

/-- The number at the front of a text, and what follows. -/
def readNumber (t : Text) : Option (Json × Text) :=
  let (isNegative, unsigned) := match t with
    | '-' :: r => (true, r)
    | _ => (false, t)
  let whole := unsigned.takeWhile Char.isDigit
  if whole.isEmpty || (whole.length != 1 && whole.head? == some '0') then none
  else
    let l := Number.Numeral.ofText unsigned
    let spelling := t.take (t.length - l.rest.length)
    match unsigned.dropWhile Char.isDigit with
    | '.' :: _ =>
      if l.fraction.isEmpty || l.exponent.any (·.2.isEmpty) then none
      else some (real spelling, l.rest)
    | _ =>
      match l.exponent with
      | some (_, ds) => if ds.isEmpty then none else some (real spelling, l.rest)
      | none =>
        if isNegative && whole == ['0'] then some (real spelling, l.rest)
        else
          let n : Int := Number.readDigits whole
          some (integer (if isNegative then -n else n), l.rest)

/-! ## values -/

mutual

/-- The value at the front of a text, and what follows.  `fuel` bounds the number of calls. -/
def readValue : Nat → Text → Option (Json × Text)
  | 0, _ => none
  | fuel + 1, t =>
    match skip t with
    | [] => none
    | '"' :: r => (readString [] r).map fun (s, r) => (string s, r)
    | '[' :: r =>
      match skip r with
      | ']' :: r => some (array [], r)
      | r => readItems fuel [] r
    | '\x7b' :: r =>
      match skip r with
      | '\x7d' :: r => some (object [], r)
      | r => readMembers fuel [] r
    | 'n' :: 'u' :: 'l' :: 'l' :: r => some (null, r)
    | 't' :: 'r' :: 'u' :: 'e' :: r => some (bool true, r)
    | 'f' :: 'a' :: 'l' :: 's' :: 'e' :: r => some (bool false, r)
    | t => readNumber t

/-- The rest of an array; `done` holds the items read, the newest first. -/
def readItems : Nat → List Json → Text → Option (Json × Text)
  | 0, _, _ => none
  | fuel + 1, done, t =>
    match readValue fuel t with
    | none => none
    | some (v, r) =>
      match skip r with
      | ',' :: r => readItems fuel (v :: done) r
      | ']' :: r => some (array (v :: done).reverse, r)
      | _ => none

/-- The rest of an object; `done` holds the members read, the newest first. -/
def readMembers : Nat → List (String × Json) → Text → Option (Json × Text)
  | 0, _, _ => none
  | fuel + 1, done, t =>
    match skip t with
    | '"' :: r =>
      match readString [] r with
      | none => none
      | some (name, r) =>
        match skip r with
        | ':' :: r =>
          match readValue fuel r with
          | none => none
          | some (v, r) =>
            let done := (Text.str name, v) :: done
            match skip r with
            | ',' :: r => readMembers fuel done r
            | '\x7d' :: r => some (object done.reverse, r)
            | _ => none
        | _ => none
    | _ => none

end

/-- The value that a whole text spells. -/
def parse? (t : Text) : Option Json :=
  match readValue (2 * t.length + 2) t with
  | some (v, r) => if (skip r).isEmpty then some v else none
  | none => none

end Intension.Json
