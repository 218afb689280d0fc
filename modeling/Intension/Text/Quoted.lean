import Intension.Text.Basic

/-!
# Intension.Text.Quoted

Names and string literals.  An identifier may stand bare; any other text is
written between double quotes, with five characters escaped.  `quote` writes
a literal and `unquote` reads one, up to the first quote that is not escaped.
-/

namespace Intension

namespace Identifier

/-- The characters an identifier may start with. -/
def isStart (c : Char) : Bool := c == '_' || c.isAlpha

/-- The characters an identifier may go on with. -/
def isPart (c : Char) : Bool := c == '_' || c.isAlphanum

/-- A text that may stand bare: a letter or `_`, then letters, digits and `_`. -/
def isBare : Text → Bool
  | [] => false
  | c :: rest => isStart c && rest.all isPart

end Identifier

namespace Quoted

/-- A character inside a literal. -/
def escape (c : Char) : Text :=
  match c with
  | '\\' => ['\\', '\\']
  | '"' => ['\\', '"']
  | '\n' => ['\\', 'n']
  | '\t' => ['\\', 't']
  | '\r' => ['\\', 'r']
  | _ => [c]

/-- A text as a string literal. -/
def quote (t : Text) : Text := '"' :: (t.flatMap escape ++ ['"'])

/-- The character that a letter stands for after a backslash. -/
def unescape? (c : Char) : Option Char :=
  match c with
  | '\\' => some '\\'
  | '"' => some '"'
  | 'n' => some '\n'
  | 't' => some '\t'
  | 'r' => some '\r'
  | _ => none

/-- Why a literal cannot be read. -/
inductive Fault where
  /-- The input ends inside the literal. -/
  | unterminated
  /-- The character after the backslash, `offset` bytes on, stands for nothing. -/
  | unknownEscape (c : Char) (offset : Nat)
  deriving DecidableEq, Repr

/-- Reads a literal on from `offset` bytes after its opening quote starts; `done` holds the
characters read, the newest first.  Gives the text, the number of bytes from quote to
quote, and what follows. -/
def unquote (offset : Nat) (done : List Char) : Text → Except Fault (Text × Nat × Text)
  | [] => .error .unterminated
  | '"' :: rest => .ok (done.reverse, offset + 1, rest)
  | '\\' :: [] => .error .unterminated
  | '\\' :: c :: rest =>
    match unescape? c with
    | some d => unquote (offset + 1 + c.utf8Size) (d :: done) rest
    | none => .error (.unknownEscape c (offset + 1))
  | c :: rest => unquote (offset + c.utf8Size) (c :: done) rest

end Quoted

end Intension
