import Intension.Bytes

/-!
# Intension.Text.Basic

Texts are lists of characters, so that readers and writers of text are plain
recursions over a list.  Offsets into a text and limits on its size are
counted in UTF-8 bytes: `Text.bytes` is that encoding and `Text.byteLength`
its length, with `length_bytes` tying the two.

Hexadecimal digits are written in lower case and read in either case, and bytes
as pairs of them.  Reading bytes works on the bytes of the text, so a position
in a fault counts bytes.
-/

namespace Intension

/-- A text, as the list of its characters. -/
abbrev Text := List Char

namespace Text

/-- The UTF-8 encoding of a text. -/
def bytes (t : Text) : List UInt8 := t.flatMap String.utf8EncodeChar

/-- The number of UTF-8 bytes of a text. -/
def byteLength (t : Text) : Nat := (t.map Char.utf8Size).sum

/-- The decimal digits of a natural number. -/
def ofNat (n : Nat) : Text := Nat.toDigits 10 n

/-- The decimal digits of an integer, after a `-` when it is negative. -/
def ofInt (i : Int) : Text := if i < 0 then '-' :: ofNat i.natAbs else ofNat i.natAbs

/-- A text as a string, for messages. -/
def str (t : Text) : String := String.ofList t

/-- The terms of a body, one after the other with `+` between them. -/
def joinTerms (terms : List Text) : Text := List.intercalate ['+'] terms

/-- Terms are joined by a plus sign after the first. -/
theorem joinTerms_cons {t : Text} {terms : List Text} (h : terms ≠ []) :
    joinTerms (t :: terms) = t ++ '+' :: joinTerms terms := by
  cases terms with
  | nil => exact absurd rfl h
  | cons u terms => simp [joinTerms, List.intercalate]

/-! ## sizes -/

@[simp] theorem byteLength_nil : byteLength [] = 0 := rfl

@[simp] theorem byteLength_cons (c : Char) (t : Text) :
    byteLength (c :: t) = c.utf8Size + byteLength t := by
  simp [byteLength]

/-- The length in bytes of two texts in a row. -/
@[simp] theorem byteLength_append (s t : Text) :
    byteLength (s ++ t) = byteLength s + byteLength t := by
  simp [byteLength]

/-- The bytes of two texts in a row. -/
@[simp] theorem bytes_append (s t : Text) : bytes (s ++ t) = bytes s ++ bytes t := by
  simp [bytes]

/-- A text has as many bytes as its byte length says. -/
theorem length_bytes (t : Text) : (bytes t).length = byteLength t := by
  induction t with
  | nil => rfl
  | cons c t ih => simp only [bytes, List.flatMap_cons, List.length_append] at ih ⊢; simp [ih]

/-! ## blanks -/

/-- The characters that Unicode counts as white space. -/
def isBlank (c : Char) : Bool :=
  let n := c.toNat
  (0x09 ≤ n && n ≤ 0x0D) || n == 0x20 || n == 0x85 || n == 0xA0 || n == 0x1680
    || (0x2000 ≤ n && n ≤ 0x200A) || n == 0x2028 || n == 0x2029 || n == 0x202F
    || n == 0x205F || n == 0x3000

/-- A text without the blanks at its two ends. -/
def trim (t : Text) : Text := ((t.dropWhile isBlank).reverse.dropWhile isBlank).reverse

end Text

/-! ## hexadecimal digits -/

namespace Hex

/-- The lower-case digit of a value below sixteen. -/
def digit (n : Nat) : Char := if n < 10 then Char.ofNat (48 + n) else Char.ofNat (87 + n)

/-- The two digits of each byte in turn. -/
def encode (bs : List UInt8) : Text :=
  bs.flatMap fun b => [digit (b.toNat / 16), digit (b.toNat % 16)]

/-- The value of a digit, in either case. -/
def value? (c : Char) : Option Nat :=
  if '0' ≤ c ∧ c ≤ '9' then some (c.toNat - 48)
  else if 'a' ≤ c ∧ c ≤ 'f' then some (c.toNat - 87)
  else if 'A' ≤ c ∧ c ≤ 'F' then some (c.toNat - 55)
  else none

/-- Whether a character is a digit of a base up to sixteen. -/
def isDigit (base : Nat) (c : Char) : Bool := (value? c).any (· < base)

/-- The number that digits of a base up to sixteen spell, if they are such digits. -/
def number? (base : Nat) (digits : Text) : Option Nat :=
  if digits.all (isDigit base) then
    some (digits.foldl (fun n c => n * base + (value? c).getD 0) 0)
  else none

/-- Why a text is no hexadecimal. -/
inductive Fault where
  /-- A last digit has no partner. -/
  | oddLength
  /-- The byte at `position` is no digit. -/
  | badDigit (byte : UInt8) (position : Nat)
  deriving DecidableEq, Repr

/-- Reads the digits from `position` on; `done` holds the bytes read, the newest first. -/
def decodeFrom (position : Nat) (done : List UInt8) : List UInt8 → Except Fault (List UInt8)
  | high :: low :: rest =>
    match value? (Char.ofNat high.toNat), value? (Char.ofNat low.toNat) with
    | none, _ => .error (.badDigit high position)
    | some _, none => .error (.badDigit low (position + 1))
    | some h, some l => decodeFrom (position + 2) (UInt8.ofNat (h * 16 + l) :: done) rest
  | _ => .ok done.reverse

/-- The bytes that a text of digits spells; an odd length is found before a bad digit. -/
def decode (t : Text) : Except Fault (List UInt8) :=
  let bs := t.bytes
  if bs.length % 2 = 1 then .error .oddLength else decodeFrom 0 [] bs

end Hex

end Intension
