import Intension.Number.Shortest
import Intension.Text.Basic
import Intension.Text.Quoted

/-!
# Intension.Scalar

Scalars: the values that the nodes of a tree carry.  They are totally ordered,
first by kind and then within the kind, and partially ordered by refinement:
`alpha` refines to everything, everything refines to `omega`, and every other
scalar refines only to those equal to it.  Equality is that of the total
order, so the two zeros are equal and so are all NaNs.

One kind are the bound values: bytes that a host packed from an object of its
own.  What a bound value is, is its bytes; the object is only a view of them,
there when a `Binder` could unpack the bytes or the value was packed from it.
-/

namespace Intension

/-! ## bound values -/

/-- An object of the host program. -/
inductive HostObject where
  | text (t : Text)
  | integer (i : Int)
  deriving DecidableEq, Repr

/-- A host's way to turn objects into bytes and back; either may fail. -/
structure Binder where
  pack : HostObject → Option (List UInt8)
  unpack : List UInt8 → Option HostObject

/-- Packed bytes, with the object they stand for if it is known. -/
structure Bound where
  packed : List UInt8
  object : Option HostObject
  deriving DecidableEq, Repr

namespace Bound

/-- Packs an object, which is kept beside its bytes; `none` if the binder cannot. -/
def pack (binder : Binder) (object : HostObject) : Option Bound :=
  (binder.pack object).map (⟨·, some object⟩)

/-- The wording of the error that packing ends in. -/
def packError : String := "structural error: binder could not pack bound object"

/-- Wraps packed bytes, with their object if a binder is given and knows it. -/
def ofPacked (binder : Option Binder) (packed : List UInt8) : Bound :=
  ⟨packed, binder.bind (·.unpack packed)⟩

/-- Whether the object is known. -/
def isResolved (b : Bound) : Bool := b.object.isSome

/-- Looks the object up unless it is known already. -/
def resolve (binder : Binder) (b : Bound) : Bound :=
  match b.object with
  | some _ => b
  | none => { b with object := binder.unpack b.packed }

/-- The text of a bound value for diagnostics. -/
def debugText (b : Bound) : Text :=
  "BoundValue \x7b packed: \"".toList ++ Hex.encode b.packed ++ "\", resolved: ".toList
    ++ (if b.isResolved then "true" else "false").toList ++ " \x7d".toList

end Bound

/-! ## kinds -/

/-- The kinds of scalar. -/
inductive Kind where
  | alpha | omega | number | string | binary | bound
  deriving DecidableEq, Repr

namespace Kind

/-- The number of a kind in binary form; zero stands for the absence of a scalar. -/
def tag : Kind → Nat
  | alpha => 1
  | omega => 2
  | number => 3
  | string => 4
  | binary => 5
  | bound => 6

/-- The kind with a number. -/
def ofTag? (i : Int) : Option Kind :=
  if i = 1 then some alpha
  else if i = 2 then some omega
  else if i = 3 then some number
  else if i = 4 then some string
  else if i = 5 then some binary
  else if i = 6 then some bound
  else none

/-- The name of a kind. -/
def name : Kind → String
  | alpha => "alpha"
  | omega => "omega"
  | number => "number"
  | string => "string"
  | binary => "binary"
  | bound => "bound"

instance : Ord Kind := ⟨fun k l => compare k.tag l.tag⟩

end Kind

/-! ## scalars -/

/-- A value that a node may carry. -/
inductive Scalar where
  /-- The least defined value. -/
  | alpha
  /-- The most defined value. -/
  | omega
  | number (x : Number)
  | string (t : Text)
  | binary (bytes : List UInt8)
  | bound (b : Bound)
  deriving Repr

namespace Scalar

/-- The kind of a scalar. -/
def kind : Scalar → Kind
  | alpha => .alpha
  | omega => .omega
  | number _ => .number
  | string _ => .string
  | binary _ => .binary
  | bound _ => .bound

/-- The total order: by kind, then numbers by value, texts by code points, and bytes
lexicographically. -/
def cmp : Scalar → Scalar → Ordering
  | number x, number y => compare x y
  | string s, string t => compare s t
  | binary a, binary b => compare a b
  | bound a, bound b => compare a.packed b.packed
  | a, b => compare a.kind b.kind

instance : Ord Scalar := ⟨cmp⟩

/-- Equality of scalars is that of their order. -/
instance : BEq Scalar := ⟨fun a b => compare a b == .eq⟩

/-- Whether `a` is at least as defined as `b` asks. -/
def refines (a b : Scalar) : Bool := a matches alpha || b matches omega || a == b

/-- A scalar was to be replaced by one of another kind. -/
structure KindMismatch where
  held : Kind
  given : Kind
  deriving DecidableEq, Repr

/-- The wording of a kind mismatch. -/
def KindMismatch.message (m : KindMismatch) : String :=
  s!"structural error: cannot assign {m.given.name} value to {m.held.name} value"

/-- The scalar that replaces `a` when `b` is assigned to it: `b`, if of the same kind. -/
def assign (a b : Scalar) : Except KindMismatch Scalar :=
  if a.kind = b.kind then .ok b else .error ⟨a.kind, b.kind⟩

/-- The text of a scalar. -/
def text : Scalar → Text
  | alpha => ['~']
  | omega => ['^']
  | number x => x.text
  | string t => Quoted.quote t
  | binary bytes => '#' :: Hex.encode bytes
  | bound b => '@' :: Hex.encode b.packed

end Scalar

end Intension
