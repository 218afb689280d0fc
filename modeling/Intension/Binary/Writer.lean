import Intension.Binary.Basic
import Intension.Bytes
import Intension.Context.Basic
import Intension.Patch.Basic

/-!
# Intension.Binary.Writer

Writing the binary form.  A writer appends to what was written before it; one
that fails leaves what it wrote up to the fault, and the levels it had entered
stay entered.
-/

namespace Intension.Binary

/-- What has been written, and how many levels of nodes may still be entered. -/
structure Output where
  bytes : Array UInt8
  room : Nat

/-- Nothing written yet. -/
def Output.start (limits : Limits) : Output := ⟨#[], limits.maxDepth⟩

/-- An action that writes. -/
abbrev Writer := EStateM WriteFault Output Unit

namespace Write

/-! ## numbers -/

/-- Appends bytes. -/
def raw (bs : List UInt8) : Writer := modify fun s => { s with bytes := s.bytes ++ bs }

/-- One byte. -/
def byte (b : UInt8) : Writer := raw [b]

/-- A 32-bit integer in two's complement. -/
def int32 (i : Int32) : Writer := raw (Bytes.bigEndian 4 i.toUInt32.toNat)

/-- A number below `2 ^ 31`. -/
def word (n : Nat) : Writer := raw (Bytes.bigEndian 4 n)

/-- The bit pattern of a number. -/
def number (x : Number) : Writer := raw (Bytes.bigEndian 8 x.bits.toNat)

/-- A count, which must fit its field. -/
def count (field : Field) (n : Nat) : Writer :=
  if n < 2 ^ (31 : Nat) then word n else throw (.overflows field n)

/-- A length, which must not be above its limit either. -/
def length (field : Field) (limit n : Nat) : Writer :=
  if limit < n then throw (.exceeds field n limit) else count field n

/-! ## parts -/

/-- Bytes after their length. -/
def payload (limits : Limits) (bs : List UInt8) : Writer := do
  length .payloadLength limits.maxPayloadBytes bs.length
  raw bs

/-- A dimension, or the absence of one. -/
def dimension? (limits : Limits) : Option Dimension → Writer
  | none => word absentTag
  | some (.integer i) => do
    word integerTag
    int32 i
  | some (.name value quoted) => do
    word nameTag
    byte (if quoted then 1 else 0)
    length .dimensionLength limits.maxDimensionBytes value.byteLength
    raw value.bytes

/-- A dimension. -/
def dimension (limits : Limits) (d : Dimension) : Writer := dimension? limits (some d)

/-- Dimensions in turn. -/
def dimensions (limits : Limits) : List Dimension → Writer
  | [] => pure ()
  | d :: rest => do
    dimension limits d
    dimensions limits rest

/-- A path. -/
def path (limits : Limits) (p : Path) : Writer := do
  length .pathLength limits.maxPathLength p.length
  dimensions limits p

/-- What follows the tag of a scalar. -/
def scalarBody (limits : Limits) : Scalar → Writer
  | .alpha => pure ()
  | .omega => pure ()
  | .number x => number x
  | .string t => payload limits (Text.bytes t)
  | .binary bs => payload limits bs
  | .bound b => payload limits b.packed

/-- A base, or the absence of one. -/
def base (limits : Limits) : Option Scalar → Writer
  | none => word absentTag
  | some v => do
    word v.kind.tag
    scalarBody limits v

/-! ## nodes -/

/-- Goes down a level. -/
def enter (limits : Limits) : Writer := do
  let s ← get
  if s.room = 0 then throw (.tooDeep limits.maxDepth)
  set { s with room := s.room - 1 }

/-- Comes back up a level. -/
def leave : Writer := modify fun s => { s with room := s.room + 1 }

mutual

/-- A context. -/
def context (limits : Limits) (c : Context) : Writer :=
  match c with
  | ⟨value, children, bases⟩ => do
    enter limits
    count .baseCount bases
    base limits value
    count .childCount children.length
    contexts limits children
    leave

/-- The children of a context in turn. -/
def contexts (limits : Limits) (children : List (Dimension × Context)) : Writer :=
  match children with
  | [] => pure ()
  | (d, c) :: rest => do
    dimension limits d
    context limits c
    contexts limits rest

end

mutual

/-- A patch. -/
def patch (limits : Limits) (p : Patch) : Writer :=
  match p with
  | ⟨value, children, clearsBase, clearsDims, bases, blanks⟩ => do
    enter limits
    word (flags clearsDims clearsBase)
    count .blankCount blanks
    count .baseCount bases
    base limits value
    count .childCount children.length
    patches limits children
    leave

/-- The children of a patch in turn. -/
def patches (limits : Limits) (children : List (Dimension × Patch)) : Writer :=
  match children with
  | [] => pure ()
  | (d, p) :: rest => do
    dimension limits d
    patch limits p
    patches limits rest

end

end Write

/-- The bytes that a writer writes on its own. -/
def encode (limits : Limits) (w : Writer) : Except WriteFault (List UInt8) :=
  match w.run (.start limits) with
  | .ok _ s => .ok s.bytes.toList
  | .error fault _ => .error fault

end Intension.Binary

namespace Intension

/-- The binary form of a context. -/
def Context.encode (limits : Limits) (c : Context) : Except Binary.WriteFault (List UInt8) :=
  Binary.encode limits (Binary.Write.context limits c)

/-- The binary form of a patch. -/
def Patch.encode (limits : Limits) (p : Patch) : Except Binary.WriteFault (List UInt8) :=
  Binary.encode limits (Binary.Write.patch limits p)

end Intension
