import Intension.Text.Basic

/-!
# Intension.Toml.Quoted

What stands between the statements of a TOML text, blanks, comments and the ends
of lines, and strings.  A basic string stands between double quotes and has escapes, a
literal string stands between single quotes and has none.  Either goes over several
lines between three quotes at each end: then a line end right after the opening quotes
is left out, every other one counts as `\n`, and up to two quotes may stand before the
closing ones.  In a basic string a backslash at the end of a line leaves out the line
end and all blanks and line ends after it.
-/

namespace Intension.Toml

/-- Whether a character is a blank. -/
def isBlank (c : Char) : Bool := c == ' ' || c == '\t'

/-- A text without the blanks at its front. -/
def skip (t : Text) : Text := t.dropWhile isBlank

/-- Whether a character may stand inside a line, in a comment or between quotes. -/
def isLineChar (c : Char) : Bool := c == '\t' || (0x20 ≤ c.toNat && c.toNat != 0x7F)

/-- What follows a comment, if the text starts with one. -/
def skipComment : Text → Text
  | '#' :: t => t.dropWhile isLineChar
  | t => t

/-- What follows the end of a line, if the text starts with one. -/
def lineEnd? : Text → Option Text
  | '\n' :: t => some t
  | '\r' :: '\n' :: t => some t
  | _ => none

/-- Whether nothing but blanks and a comment is left of a line; gives what follows it. -/
def restOfLine? (t : Text) : Option Text :=
  match skipComment (skip t) with
  | [] => some []
  | t => lineEnd? t

/-- A text without blanks, comments and line ends at its front; `fuel` bounds the number of
lines. -/
def skipLines : (fuel : Nat) → Text → Text
  | 0, t => t
  | fuel + 1, t =>
    match lineEnd? (skipComment (skip t)) with
    | some t => skipLines fuel t
    | none => skip t

/-! ## strings -/

/-- The character with a code point. -/
def char? (n : Nat) : Option Char := if n.isValidChar then some (Char.ofNat n) else none

/-- The character that a letter stands for after a backslash. -/
def unescape? (c : Char) : Option Char :=
  match c with
  | 'b' => some '\x08'
  | 't' => some '\t'
  | 'n' => some '\n'
  | 'f' => some '\x0c'
  | 'r' => some '\r'
  | '"' => some '"'
  | '\\' => some '\\'
  | _ => none

/-- The rest of a text after the quotes that close it, where up to two more of the kind `mark`
count as content; `done` holds the characters read, the newest first. -/
def close (mark : Char) (done : List Char) (t : Text) : Text × Text :=
  let more := (t.take 2).takeWhile (· == mark)
  (done.reverse ++ more, t.drop more.length)

/-- The rest of a basic string, and what follows its closing quotes; `done` holds the
characters read, the newest first.  `overLines` tells a string of several lines, and
`isTrimming` that blanks and line ends are left out, up to the next character. -/
def readBasic (overLines isTrimming : Bool) (done : List Char) : Text → Option (Text × Text)
  | [] => none
  | '\\' :: 'u' :: a :: b :: c :: d :: t =>
    match (Hex.number? 16 [a, b, c, d]).bind char? with
    | some c => readBasic overLines false (c :: done) t
    | none => none
  | '\\' :: 'U' :: a :: b :: c :: d :: e :: f :: g :: h :: t =>
    match (Hex.number? 16 [a, b, c, d, e, f, g, h]).bind char? with
    | some c => readBasic overLines false (c :: done) t
    | none => none
  | '\\' :: c :: t =>
    match unescape? c with
    | some d => readBasic overLines false (d :: done) t
    | none =>
      if overLines && (lineEnd? (skip (c :: t))).isSome then readBasic overLines true done (c :: t)
      else none
  | '"' :: t =>
    if !overLines then some (done.reverse, t)
    else
      match t with
      | '"' :: '"' :: r => some (close '"' done r)
      | _ => readBasic overLines false ('"' :: done) t
  | '\r' :: '\n' :: t =>
    if overLines then readBasic overLines isTrimming (if isTrimming then done else '\n' :: done) t
    else none
  | c :: t =>
    if isTrimming && (isBlank c || c == '\n') then readBasic overLines true done t
    else if isLineChar c || (overLines && c == '\n') then readBasic overLines false (c :: done) t
    else none

/-- The rest of a literal string, and what follows its closing quotes, as `readBasic` gives
it. -/
def readLiteral (overLines : Bool) (done : List Char) : Text → Option (Text × Text)
  | [] => none
  | '\'' :: t =>
    if !overLines then some (done.reverse, t)
    else
      match t with
      | '\'' :: '\'' :: r => some (close '\'' done r)
      | _ => readLiteral overLines ('\'' :: done) t
  | '\r' :: '\n' :: t => if overLines then readLiteral overLines ('\n' :: done) t else none
  | c :: t =>
    if isLineChar c || (overLines && c == '\n') then readLiteral overLines (c :: done) t else none

/-- The string of one line at the front of a text, and what follows. -/
def readShortString : Text → Option (Text × Text)
  | '"' :: t => readBasic false false [] t
  | '\'' :: t => readLiteral false [] t
  | _ => none

/-- The string at the front of a text, and what follows. -/
def readString : Text → Option (Text × Text)
  | '"' :: '"' :: '"' :: t => readBasic true false [] ((lineEnd? t).getD t)
  | '\'' :: '\'' :: '\'' :: t => readLiteral true [] ((lineEnd? t).getD t)
  | t => readShortString t

end Intension.Toml
