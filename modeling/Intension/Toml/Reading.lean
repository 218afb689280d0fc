import Intension.Toml.Numeral
import Intension.Toml.Quoted

/-!
# Intension.Toml.Reading

Reading TOML: a statement a line, with comments and blank lines between.  Arrays and
inline tables nest, and keys have parts, up to `maxNesting`.
-/

namespace Intension.Toml

/-- How deep arrays and inline tables may nest, and how many parts a key may have. -/
def maxNesting : Nat := 79

/-! ## keys -/

/-- The characters of a bare key. -/
def isKeyChar (c : Char) : Bool := c.isAlphanum || c == '_' || c == '-'

/-- The key at the front of a text without its dots, and what follows. -/
def readSimpleKey (t : Text) : Option (Text × Text) :=
  match t with
  | '"' :: _ | '\'' :: _ => readShortString t
  | _ =>
    if (t.takeWhile isKeyChar).isEmpty then none
    else some (t.takeWhile isKeyChar, t.dropWhile isKeyChar)

/-- The keys at the front of a text with dots between them, and what follows; the last key
comes apart from those before it.  `room` bounds their number. -/
def readKey : (room : Nat) → Text → Option ((List Text × Text) × Text)
  | 0, _ => none
  | room + 1, t =>
    match readSimpleKey (skip t) with
    | none => none
    | some (key, r) =>
      match skip r with
      | '.' :: r => (readKey room r).map fun ((path, last), r) => ((key :: path, last), r)
      | r => some (([], key), r)

/-! ## values -/

mutual

/-- The value at the front of a text, and what follows.  `fuel` bounds the number of calls, and
`room` how deep arrays and inline tables may still nest. -/
def readValue : (fuel room : Nat) → Text → Option (Toml × Text)
  | 0, _, _ => none
  | fuel + 1, room, t =>
    match t with
    | '"' :: _ | '\'' :: _ => (readString t).map fun (s, r) => (string s, r)
    | 't' :: 'r' :: 'u' :: 'e' :: r => some (bool true, r)
    | 'f' :: 'a' :: 'l' :: 's' :: 'e' :: r => some (bool false, r)
    | '[' :: r =>
      match room with
      | 0 => none
      | room + 1 => readItems fuel room [] r
    | '\x7b' :: r =>
      match room, skip r with
      | 0, _ => none
      | _ + 1, '\x7d' :: r => some (table .inlined [], r)
      | room + 1, r => readPairs fuel room [] r
    | t => (readMoment t).orElse fun _ => readNumber t

/-- The rest of an array, which may go over several lines and end in a comma; `done` holds
the items read, the newest first. -/
def readItems : (fuel room : Nat) → (done : List Toml) → Text → Option (Toml × Text)
  | 0, _, _, _ => none
  | fuel + 1, room, done, t =>
    match skipLines fuel t with
    | ']' :: r => some (array done.reverse, r)
    | t =>
      match readValue fuel room t with
      | none => none
      | some (v, r) =>
        match skipLines fuel r with
        | ',' :: r => readItems fuel room (v :: done) r
        | ']' :: r => some (array (v :: done).reverse, r)
        | _ => none

/-- The rest of an inline table; `entries` holds what was read. -/
def readPairs : (fuel room : Nat) → (entries : Entries) → Text → Option (Toml × Text)
  | 0, _, _, _ => none
  | fuel + 1, room, entries, t =>
    match readKey maxNesting t with
    | some ((path, key), '=' :: r) =>
      match readValue fuel room (skip r) with
      | none => none
      | some (v, r) =>
        match set? path key v .inlined entries with
        | none => none
        | some entries =>
          match skip r with
          | ',' :: r => readPairs fuel room entries r
          | '\x7d' :: r => some (table .inlined entries, r)
          | _ => none
    | _ => none

end

/-! ## documents -/

/-- The statement at the front of a text, up to the rest of its line. -/
def readStatement (fuel : Nat) (t : Text) : Option (Statement × Text) :=
  match t with
  | '[' :: '[' :: r =>
    match readKey maxNesting r with
    | some ((path, key), ']' :: ']' :: r) => some (.appends path key, r)
    | _ => none
  | '[' :: r =>
    match readKey maxNesting r with
    | some ((path, key), ']' :: r) => some (.opens path key, r)
    | _ => none
  | t =>
    match readKey maxNesting t with
    | some ((path, key), '=' :: r) =>
      (readValue fuel maxNesting (skip r)).map fun (v, r) => (.sets path key v, r)
    | _ => none

/-- The statements that a text spells. -/
def readStatements : (fuel : Nat) → Text → Option (List Statement)
  | 0, _ => none
  | fuel + 1, t =>
    match skipLines fuel t with
    | [] => some []
    | '#' :: t => if (skipComment ('#' :: t)).isEmpty then some [] else none
    | t =>
      match readStatement fuel t with
      | none => none
      | some (s, r) =>
        match restOfLine? r with
        | none => none
        | some r => (readStatements fuel r).map (s :: ·)

/-- The entries of the table that a whole text spells. -/
def parse? (t : Text) : Option Entries :=
  let t := match t with
    | '\uFEFF' :: r => r
    | _ => t
  (readStatements (2 * t.length + 2) t).bind ofStatements?

end Intension.Toml
