import Intension.Dimension
import Intension.Number.Decimal
import Intension.Text.Basic

/-!
# Intension.Grammar.Token

The tokens of the text form, and how a text is cut into them.  A token is cut
from the front of a text by `Token.next`, as long as it can be: digits,
identifier characters and dashes are taken together, a point belongs to a
number only before a digit and an `e` only before an exponent, and a single
dash before a digit is the sign of a number.  White space separates tokens
and means nothing else.
-/

namespace Intension

/-- A token of the text form. -/
inductive Token where
  | openAngle | closeAngle | openSquare | closeSquare | colon | plus
  /-- A clear marker of one to three dashes. -/
  | dashes (count : Nat)
  | alpha | omega
  | identifier (t : Text)
  | literal (t : Text)
  /-- A numeral as it is spelled, so that integers can be told apart. -/
  | numeral (spelling : Text)
  | binary (bytes : List UInt8)
  | bound (bytes : List UInt8)
  deriving DecidableEq, Repr

/-- A token and the offset in bytes at which it starts. -/
structure Lexeme where
  token : Token
  offset : Nat
  deriving DecidableEq, Repr

namespace Token

/-- The wording by which messages refer to a token. -/
def describe : Token → String
  | openAngle => "'<'"
  | closeAngle => "'>'"
  | openSquare => "'['"
  | closeSquare => "']'"
  | colon => "':'"
  | plus => "'+'"
  | dashes count => "'" ++ Text.str (List.replicate count '-') ++ "'"
  | alpha => "'~'"
  | omega => "'^'"
  | identifier t => "identifier '" ++ Text.str t ++ "'"
  | literal _ => "string literal"
  | numeral spelling => "number " ++ Text.str spelling
  | binary _ => "binary literal"
  | bound _ => "bound literal"

/-! ## faults -/

/-- Why no token can be cut from the front of a text. -/
inductive Fault where
  /-- More than three dashes in a row. -/
  | tooManyDashes
  /-- A character that starts no token. -/
  | strayCharacter (c : Char)
  /-- A character after a backslash that stands for nothing. -/
  | unknownEscape (c : Char)
  /-- A literal without its closing quote. -/
  | unterminated
  /-- Hexadecimal digits that do not pair up. -/
  | oddHex
  deriving DecidableEq, Repr

/-- The wording of a fault. -/
def Fault.message : Fault → String
  | tooManyDashes => "too many '-' in clear marker"
  | strayCharacter c => "unexpected character '" ++ c.toString ++ "'"
  | unknownEscape c => "unknown escape '\\" ++ c.toString ++ "'"
  | unterminated => "unterminated string literal"
  | oddHex => "bad hex literal: Odd number of digits"

/-! ## numerals -/

/-- The fraction at the front of a text, a point and the digits after it, and the rest. -/
def cutFraction : Text → Text × Text
  | '.' :: c :: t =>
    if c.isDigit then ('.' :: (c :: t).takeWhile Char.isDigit, (c :: t).dropWhile Char.isDigit)
    else ([], '.' :: c :: t)
  | t => ([], t)

/-- The sign at the front of a text, if any, and the rest. -/
def cutSign : Text → Text × Text
  | '+' :: t => (['+'], t)
  | '-' :: t => (['-'], t)
  | t => ([], t)

/-- The exponent at the front of a text, an `e` and a signed integer, and the rest. -/
def cutExponent : Text → Text × Text
  | [] => ([], [])
  | c :: t =>
    let (sign, ds) := cutSign t
    let digits := ds.takeWhile Char.isDigit
    if (c == 'e' || c == 'E') && !digits.isEmpty then
      (c :: (sign ++ digits), ds.dropWhile Char.isDigit)
    else ([], c :: t)

/-- The unsigned numeral at the front of a text and the rest. -/
def cutNumeral (t : Text) : Text × Text :=
  let (fraction, r) := cutFraction (t.dropWhile Char.isDigit)
  let (exponent, r) := cutExponent r
  (t.takeWhile Char.isDigit ++ fraction ++ exponent, r)

/-! ## cutting -/

/-- A token with the number of bytes it is spelled with and the text that follows it. -/
structure Cut where
  token : Token
  width : Nat
  rest : Text

/-- Whether a character only separates tokens. -/
def isSpace (c : Char) : Bool := c == ' ' || c == '\t' || c == '\n' || c == '\r'

/-- The bytes of the literal whose digits are at the front of a text. -/
def cutHex (make : List UInt8 → Token) (t : Text) : Except (Nat × Fault) Cut :=
  let digits := t.takeWhile (Hex.isDigit 16)
  match Hex.decode digits with
  | .ok bytes => .ok ⟨make bytes, 1 + digits.length, t.dropWhile (Hex.isDigit 16)⟩
  | .error _ => .error (0, .oddHex)

/-- The token that starts with a dash, given what follows the dash. -/
def cutDash (t : Text) : Except (Nat × Fault) Cut :=
  let more := (t.takeWhile (· == '-')).length
  if more = 0 && (t.head?.map Char.isDigit).getD false then
    let (spelling, rest) := cutNumeral t
    .ok ⟨numeral ('-' :: spelling), 1 + spelling.length, rest⟩
  else if more ≤ 2 then .ok ⟨dashes (1 + more), 1 + more, t.dropWhile (· == '-')⟩
  else .error (0, .tooManyDashes)

/-- The token that a character is on its own. -/
def punctuation? (c : Char) : Option Token :=
  match c with
  | '<' => some openAngle
  | '>' => some closeAngle
  | '[' => some openSquare
  | ']' => some closeSquare
  | ':' => some colon
  | '+' => some plus
  | '~' => some alpha
  | '^' => some omega
  | _ => none

/-- The literal whose opening quote stands before a text. -/
def cutLiteral (t : Text) : Except (Nat × Fault) Cut :=
  match Quoted.unquote 1 [] t with
  | .ok (content, width, rest) => .ok ⟨literal content, width, rest⟩
  | .error .unterminated => .error (0, .unterminated)
  | .error (.unknownEscape c offset) => .error (offset, .unknownEscape c)

/-- The number that starts with a digit `c`. -/
def cutNumber (c : Char) (t : Text) : Cut :=
  let (spelling, rest) := cutNumeral (c :: t)
  ⟨numeral spelling, spelling.length, rest⟩

/-- The identifier that starts with `c`. -/
def cutIdentifier (c : Char) (t : Text) : Cut :=
  let spelling := c :: t.takeWhile Identifier.isPart
  ⟨identifier spelling, spelling.length, t.dropWhile Identifier.isPart⟩

/-- The token at the front of a text that starts with `c`.  A fault comes with the number of
bytes from there to its place. -/
def next (c : Char) (t : Text) : Except (Nat × Fault) Cut :=
  match punctuation? c with
  | some token => .ok ⟨token, 1, t⟩
  | none =>
    if c == '-' then cutDash t
    else if c.isDigit then .ok (cutNumber c t)
    else if c == '"' then cutLiteral t
    else if c == '#' then cutHex binary t
    else if c == '@' then cutHex bound t
    else if Identifier.isStart c then .ok (cutIdentifier c t)
    else .error (0, .strayCharacter c)

end Token

end Intension
