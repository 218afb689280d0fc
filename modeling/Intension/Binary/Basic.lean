import Intension.Limits
import Intension.Dimension
import Intension.Text.Utf8

/-!
# Intension.Binary.Basic

What the two directions of the binary form share: the fields that hold a
number, and the faults of writing and of reading with their wording.

All numbers are big-endian.

```
dimension   tag:4  (0 absent, 1 name, 2 integer)
            name: quoted:1 length:4 utf8   integer: value:4
path        length:4 dimension*
base        tag:4  (0 absent, else the kind)
            number: 8 bytes   string, binary, bound: length:4 bytes
context     basecount:4 base children:4 (dimension context)*
patch       flags:4 (1 clears dimensions, 2 clears base) blankcount:4
            basecount:4 base children:4 (dimension patch)*
```
-/

namespace Intension.Binary

/-- The fields that hold a length or a count. -/
inductive Field where
  | payloadLength | dimensionLength | pathLength | baseCount | blankCount | childCount
  deriving DecidableEq, Repr

/-- The wording for a field. -/
def Field.name : Field → String
  | payloadLength => "payload length"
  | dimensionLength => "dimension length"
  | pathLength => "compound length"
  | baseCount => "basecount"
  | blankCount => "blankcount"
  | childCount => "child count"

/-! ## writing -/

/-- Why a value cannot be written. -/
inductive WriteFault where
  /-- A length above its limit. -/
  | exceeds (field : Field) (length limit : Nat)
  /-- A number too large for its field. -/
  | overflows (field : Field) (n : Nat)
  /-- A node below as many as are allowed. -/
  | tooDeep (limit : Nat)
  deriving DecidableEq, Repr

/-- The wording of a fault. -/
def WriteFault.message : WriteFault → String
  | exceeds field length limit =>
    s!"structural error: {field.name} of {length} exceeds limit {limit}"
  | overflows field n => s!"structural error: {field.name} of {n} does not fit in int32"
  | tooDeep limit => s!"structural error: nesting deeper than {limit}"

/-! ## reading -/

/-- Why bytes cannot be read. -/
inductive ReadFault where
  /-- Fewer bytes left than needed. -/
  | truncated (needed : Nat)
  /-- Bytes left at the end. -/
  | trailing (count : Nat)
  | negative (field : Field) (value : Int)
  /-- A length above its limit. -/
  | exceeds (field : Field) (length limit : Nat)
  /-- A node below as many as are allowed. -/
  | tooDeep (limit : Nat)
  | badQuoteFlag (flag : UInt8)
  | unknownDimensionTag (tag : Int)
  | unknownValueTag (tag : Int)
  /-- Flags with other bits than the two marks, as an unsigned number. -/
  | unknownFlags (flags : Nat)
  /-- No dimension where there must be one. -/
  | absentDimension
  | dimensionNotText (fault : Utf8.Fault)
  | stringNotText (fault : Utf8.Fault)
  /-- A dimension that does not come after the one before it. -/
  | outOfOrder (d : Dimension)
  /-- A dimension that was read before. -/
  | duplicate (d : Dimension)
  /-- A stored child without a base. -/
  | emptyChild (d : Dimension)
  /-- A count that is not that of what was read. -/
  | miscounted (field : Field) (declared decoded : Nat)
  deriving Repr

/-- The wording of a fault. -/
def ReadFault.message : ReadFault → String
  | truncated needed => s!"truncated: need {needed} bytes"
  | trailing count => s!"{count} trailing bytes"
  | negative field value => s!"negative {field.name} {value}"
  | exceeds field length limit => s!"{field.name} {length} exceeds limit {limit}"
  | tooDeep limit => s!"nesting deeper than {limit}"
  | badQuoteFlag flag => s!"bad quote flag {flag}"
  | unknownDimensionTag tag => s!"unknown dimension tag {tag}"
  | unknownValueTag tag => s!"unknown value tag {tag}"
  | unknownFlags flags => "unknown flag bits 0x" ++ Text.str (Nat.toDigits 16 flags)
  | absentDimension => "absent dimension where one is required"
  | dimensionNotText fault => "dimension is not UTF-8: " ++ fault.message
  | stringNotText fault => "string is not UTF-8: " ++ fault.message
  | outOfOrder d => "dimension '" ++ d.text.str ++ "' out of order"
  | duplicate d => "duplicate dimension '" ++ d.text.str ++ "'"
  | emptyChild d => "empty context under '" ++ d.text.str ++ "'"
  | miscounted field declared decoded =>
    s!"declared {field.name} {declared} but decoded {decoded}"

/-- A fault and the offset of its place. -/
structure ReadError where
  offset : Nat
  fault : ReadFault
  deriving Repr

/-- The wording of an error. -/
def ReadError.message (e : ReadError) : String :=
  s!"deserialize error at offset {e.offset}: " ++ e.fault.message

/-! ## tags -/

/-- The tag of an absent dimension or base. -/
def absentTag : Nat := 0

/-- The tag of a name. -/
def nameTag : Nat := 1

/-- The tag of an integer dimension. -/
def integerTag : Nat := 2

/-- The flags of a patch: its mark to clear dimensions, then that to clear the base. -/
def flags (clearsDims clearsBase : Bool) : Nat := clearsDims.toNat + 2 * clearsBase.toNat

end Intension.Binary
