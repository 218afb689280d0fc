import Intension.Text.Basic

/-!
# Intension.Json.Printing

JSON values and their texts.  Integers are kept apart from other numbers, which
are held as they are spelled.  A value is written on one line without blanks
(`compact`), or over several lines with two blanks of indentation a level
(`pretty`).
-/

namespace Intension

/-- A JSON value. -/
inductive Json where
  | null
  | bool (b : Bool)
  /-- A number without fraction or exponent. -/
  | integer (i : Int)
  /-- Any other number. -/
  | real (spelling : Text)
  | string (t : Text)
  | array (items : List Json)
  | object (members : List (String × Json))

namespace Json

instance : Inhabited Json := ⟨null⟩

/-- The value of the last member with a name, if this is an object that has it. -/
def get? (name : String) : Json → Option Json
  | object members => ((members.filter (·.1 == name)).getLast?).map (·.2)
  | _ => none

/-- A string value. -/
def ofString (s : String) : Json := string s.toList

/-- A natural number. -/
def ofNat (n : Nat) : Json := integer n

/-! ## texts -/

/-- A character inside a string. -/
def escape (c : Char) : Text :=
  match c with
  | '"' => ['\\', '"']
  | '\\' => ['\\', '\\']
  | '\n' => ['\\', 'n']
  | '\r' => ['\\', 'r']
  | '\t' => ['\\', 't']
  | '\x08' => ['\\', 'b']
  | '\x0c' => ['\\', 'f']
  | _ =>
    if c.toNat < 0x20 then
      ['\\', 'u', '0', '0', Hex.digit (c.toNat / 16), Hex.digit (c.toNat % 16)]
    else [c]

/-- A text as a JSON string. -/
def quote (t : Text) : Text := '"' :: (t.flatMap escape ++ ['"'])

/-- The text of a value that has no parts. -/
def leafText : Json → Text
  | null => "null".toList
  | bool b => (if b then "true" else "false").toList
  | integer i => Text.ofInt i
  | real spelling => spelling
  | string t => quote t
  | array _ => "[]".toList
  | object _ => ['\x7b', '\x7d']

mutual

/-- A value on one line. -/
def compact : Json → Text
  | array items => '[' :: (List.intercalate [','] (compactItems items) ++ [']'])
  | object members =>
    '\x7b' :: (List.intercalate [','] (compactMembers members) ++ ['\x7d'])
  | v => leafText v

/-- The texts of the items of an array. -/
def compactItems : List Json → List Text
  | [] => []
  | v :: rest => compact v :: compactItems rest

/-- The texts of the members of an object. -/
def compactMembers : List (String × Json) → List Text
  | [] => []
  | (name, v) :: rest => (quote name.toList ++ ':' :: compact v) :: compactMembers rest

end

/-- A line end and the indentation of a level. -/
def newline (level : Nat) : Text := '\n' :: List.replicate (2 * level) ' '

/-- Parts between brackets, one a line. -/
def block (left right : Char) (level : Nat) (parts : List Text) : Text :=
  if parts.isEmpty then [left, right]
  else
    left :: (newline (level + 1) ++ List.intercalate (',' :: newline (level + 1)) parts
      ++ newline level ++ [right])

mutual

/-- A value over several lines, from a level of indentation on. -/
def prettyAt (level : Nat) : Json → Text
  | array items => block '[' ']' level (prettyItems (level + 1) items)
  | object members => block '\x7b' '\x7d' level (prettyMembers (level + 1) members)
  | v => leafText v

/-- The texts of the items of an array. -/
def prettyItems (level : Nat) : List Json → List Text
  | [] => []
  | v :: rest => prettyAt level v :: prettyItems level rest

/-- The texts of the members of an object. -/
def prettyMembers (level : Nat) : List (String × Json) → List Text
  | [] => []
  | (name, v) :: rest =>
    (quote name.toList ++ ':' :: ' ' :: prettyAt level v) :: prettyMembers level rest

end

/-- A value over several lines. -/
def pretty (v : Json) : Text := prettyAt 0 v

end Json

end Intension
