import Intension.Number.Basic
import Intension.Text.Basic

/-!
# Intension.Toml.Basic

Settings in TOML: values in tables of tables.  A table remembers how it came
about, since that decides who may still add to it:

* a `[header]` opens a table once, but one that a longer header only passed
  through may still be opened;
* dotted keys add to tables that dotted keys made, and to no others;
* an inline table is closed from the start.
-/

namespace Intension

/-- How a table came about. -/
inductive Toml.Origin where
  /-- By a header of its own, or as the table of the whole document. -/
  | header
  /-- As a value between braces. -/
  | inlined
  /-- On the way to the table of a header. -/
  | passed
  /-- On the way to the value of a dotted key. -/
  | dotted
  deriving DecidableEq, Repr

/-- A value. -/
inductive Toml where
  | integer (i : Int)
  /-- A number with a fraction or an exponent, or a name of one. -/
  | real (x : Number)
  | bool (b : Bool)
  | string (t : Text)
  /-- A date, a time of day or both, as it is spelled. -/
  | moment (spelling : Text)
  | array (items : List Toml)
  | table (origin : Toml.Origin) (entries : List (Text × Toml))
  /-- Tables under one header in double brackets; the last of them is open. -/
  | tables (closed : List (List (Text × Toml))) (last : List (Text × Toml))

namespace Toml

/-- The entries of a table. -/
abbrev Entries := List (Text × Toml)

/-- The entries with another value under a key that is there. -/
def replace (key : Text) (v : Toml) (entries : Entries) : Entries :=
  entries.map fun e => if e.1 = key then (key, v) else e

/-! ## going down -/

/-- Whether dotted keys may go through a table. -/
def Origin.isOpenToDots : Origin → Bool
  | passed | dotted => true
  | header | inlined => false

/-- The entries with the table at the end of a path edited; `f` is told how that table came
about.  Tables on the way that are not there are made, of the origin `made`, and none may be
closed. -/
def editAt (made : Origin) (f : Origin → Entries → Option Entries) :
    List Text → Origin → Entries → Option Entries
  | [], origin, entries => f origin entries
  | key :: path, _, entries =>
    match entries.lookup key with
    | none => (editAt made f path made []).map fun es => entries ++ [(key, table made es)]
    | some (table origin es) =>
      if origin = .inlined ∨ (made = .dotted ∧ !origin.isOpenToDots) then none
      else (editAt made f path origin es).map fun es => replace key (table origin es) entries
    | some (tables closed last) =>
      (editAt made f path .header last).map fun es => replace key (tables closed es) entries
    | some _ => none

/-! ## statements -/

/-- What a line says. -/
inductive Statement where
  /-- The header of a table. -/
  | opens (path : List Text) (key : Text)
  /-- The header of one more table among several. -/
  | appends (path : List Text) (key : Text)
  /-- A value under a key, in a table below the open one. -/
  | sets (path : List Text) (key : Text) (value : Toml)

/-- The entries with a value under a key that is new, at the end of a path of dotted keys. -/
def set? (path : List Text) (key : Text) (v : Toml) (origin : Origin) (entries : Entries) :
    Option Entries :=
  editAt .dotted (fun origin es =>
    if decide (origin = .dotted) == path.isEmpty || (es.lookup key).isSome then none
    else some (es ++ [(key, v)])) path origin entries

/-- The entries with a table opened under a key. -/
def open? (key : Text) (entries : Entries) : Option Entries :=
  match entries.lookup key with
  | none => some (entries ++ [(key, table .header [])])
  | some (table .passed es) => some (replace key (table .header es) entries)
  | some _ => none

/-- The entries with one more table under a key. -/
def append? (key : Text) (entries : Entries) : Option Entries :=
  match entries.lookup key with
  | none => some (entries ++ [(key, tables [] [])])
  | some (tables closed last) => some (replace key (tables (closed ++ [last]) []) entries)
  | some _ => none

/-- A document on the way: the path of the open table, and the entries of the whole. -/
structure Document where
  current : List Text
  entries : Entries

/-- The document after one more statement. -/
def Document.add (doc : Document) : Statement → Option Document
  | .opens path key =>
    (editAt .passed (fun _ => open? key) path .header doc.entries).map
      (⟨path ++ [key], ·⟩)
  | .appends path key =>
    (editAt .passed (fun _ => append? key) path .header doc.entries).map
      (⟨path ++ [key], ·⟩)
  | .sets path key v =>
    (editAt .passed (fun _ => set? path key v .header) doc.current .header doc.entries).map
      (⟨doc.current, ·⟩)

/-- The entries that statements give in turn. -/
def ofStatements? (statements : List Statement) : Option Entries :=
  (statements.foldlM Document.add ⟨[], []⟩).map (·.entries)

end Toml

end Intension
