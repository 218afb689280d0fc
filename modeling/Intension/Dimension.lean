import Intension.Text.Quoted

/-!
# Intension.Dimension

Dimensions are the keys that label the edges of a tree: 32-bit integers and
names, integers first.  A name may ask to be written quoted; that concerns
only its text and takes no part in equality or order.

Paths lead from a node of a tree down to one of its descendants, a dimension
for each edge.  They are ordered lexicographically; equality, prefixes and
common fronts go by equality of dimensions, so they look past quoting.

The children of a node are a list of entries in ascending order of their
dimensions (`Keyed.Sorted`).  An entry is found by a dimension equal to its
own, and an insertion writes the entry under the dimension it is given, so
how a key is quoted is decided by the last insertion.
-/

namespace Intension

/-- A key of a tree edge. -/
inductive Dimension where
  | integer (value : Int32)
  /-- A name; `quoted` makes it be written as a literal even where it could stand bare. -/
  | name (value : Text) (quoted : Bool)
  deriving Repr

namespace Dimension

/-- The order of dimensions: integers by value, then names by their characters. -/
def cmp : Dimension → Dimension → Ordering
  | integer i, integer j => compare i j
  | integer _, name _ _ => .lt
  | name _ _, integer _ => .gt
  | name s _, name t _ => compare s t

instance : Ord Dimension := ⟨cmp⟩

/-- Equality of dimensions is that of their order. -/
instance : BEq Dimension := ⟨fun d e => compare d e == .eq⟩

/-- Whether the text of a dimension is a literal. -/
def needsQuotes : Dimension → Bool
  | integer _ => false
  | name value quoted => quoted || !Identifier.isBare value

/-- The text of a dimension. -/
def text : Dimension → Text
  | integer i => Text.ofInt i.toInt
  | name value quoted =>
    if quoted || !Identifier.isBare value then Quoted.quote value else value

end Dimension

/-! ## paths -/

/-- A way down a tree, from the top. -/
abbrev Path := List Dimension

namespace Path

/-- The text of a path: its dimensions with colons between them. -/
def text (p : Path) : Text := List.intercalate [':'] (p.map Dimension.text)

/-- The path without its last dimension; the empty path has no parent. -/
def parent? (p : Path) : Option Path := if p.isEmpty then none else some p.dropLast

/-- Whether `p` leads to an ancestor of the end of `q`, or to that end itself. -/
def leads (p q : Path) : Bool := p.isPrefixOf q

/-- What is left of `p` after `front`, if `front` leads it. -/
def after? : (front p : Path) → Option Path
  | [], p => some p
  | _ :: _, [] => none
  | d :: front, e :: p => if d == e then after? front p else none

/-- The longest front of `p` that leads `q` too. -/
def common : (p q : Path) → Path
  | d :: p, e :: q => if d == e then d :: common p q else []
  | _, _ => []

end Path

/-! ## entries -/

namespace Keyed

variable {α : Type}

/-- The entries are in strictly ascending order. -/
def Sorted (entries : List (Dimension × α)) : Prop :=
  entries.Pairwise fun a b => compare a.1 b.1 = .lt

/-- What is stored under a dimension. -/
def get? (d : Dimension) : List (Dimension × α) → Option α
  | [] => none
  | (k, v) :: rest => if d == k then some v else get? d rest

/-- Whether something is stored under a dimension. -/
def contains (d : Dimension) (entries : List (Dimension × α)) : Bool := (get? d entries).isSome

/-- The entries without the one under `d`. -/
def erase (d : Dimension) (entries : List (Dimension × α)) : List (Dimension × α) :=
  entries.filter fun e => !(d == e.1)

/-- The entries with `v` under `d`, in the place of what was there. -/
def insert (d : Dimension) (v : α) : List (Dimension × α) → List (Dimension × α)
  | [] => [(d, v)]
  | (k, w) :: rest =>
    match compare d k with
    | .lt => (d, v) :: (k, w) :: rest
    | .eq => (d, v) :: rest
    | .gt => (k, w) :: insert d v rest

end Keyed

end Intension
