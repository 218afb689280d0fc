import Intension.Binary.Basic
import Intension.Bytes
import Intension.Context.Basic
import Intension.Patch.Basic

/-!
# Intension.Binary.Reader

Reading the binary form.  A reader takes bytes from the front of the input.
One that fails leaves the input where the fault was found, and the levels it
had entered stay entered.

Lengths are checked against the limits before the bytes they announce are
taken, and counts must be those of what was read.  A context must have its
children in ascending order and none of them empty; a patch may list its
children in any order, and is brought to normal form when all is read.
-/

namespace Intension.Binary

/-- What is given to every reader: the limits, and a binder for packed values. -/
structure Setting where
  limits : Limits
  binder : Option Binder

/-- The input that is left, where it starts, and how many levels of nodes may still be
entered. -/
structure Input where
  offset : Nat
  rest : List UInt8
  room : Nat

/-- All of some bytes. -/
def Input.start (limits : Limits) (bs : List UInt8) : Input := ⟨0, bs, limits.maxDepth⟩

/-- An action that reads. -/
abbrev Reader := EStateM ReadError Input

namespace Read

/-! ## numbers -/

/-- The offset of what is read next. -/
def position : Reader Nat := return (← get).offset

/-- Fails with a fault at a place. -/
def fail (offset : Nat) (fault : ReadFault) : Reader α := throw ⟨offset, fault⟩

/-- The next `count` bytes. -/
def raw (count : Nat) : Reader (List UInt8) := do
  let s ← get
  let front := s.rest.take count
  if front.length < count then fail s.offset (.truncated count)
  set { s with offset := s.offset + count, rest := s.rest.drop count }
  return front

/-- One byte. -/
def byte : Reader UInt8 := return (← raw 1).headD 0

/-- A 32-bit integer in two's complement. -/
def int32 : Reader Int32 := return (UInt32.ofNat (Bytes.toNat (← raw 4))).toInt32

/-- A number by its bit pattern. -/
def number : Reader Number := return ⟨UInt64.ofNat (Bytes.toNat (← raw 8))⟩

/-- A count, which must not be negative. -/
def count (field : Field) : Reader Nat := do
  let start ← position
  let i := (← int32).toInt
  if i < 0 then fail start (.negative field i)
  return i.toNat

/-- A length, which must not be above its limit either. -/
def length (field : Field) (limit : Nat) : Reader Nat := do
  let start ← position
  let n ← count field
  if limit < n then fail start (.exceeds field n limit)
  return n

/-! ## parts -/

/-- Bytes after their length. -/
def payload (σ : Setting) : Reader (List UInt8) := do
  raw (← length .payloadLength σ.limits.maxPayloadBytes)

/-- A dimension, or the absence of one. -/
def dimension? (σ : Setting) : Reader (Option Dimension) := do
  let start ← position
  let tag := (← int32).toInt
  if tag = absentTag then return none
  else if tag = integerTag then return some (.integer (← int32))
  else if tag = nameTag then
    let flagStart ← position
    let flag ← byte
    if 1 < flag.toNat then fail flagStart (.badQuoteFlag flag)
    let n ← length .dimensionLength σ.limits.maxDimensionBytes
    let textStart ← position
    let bs ← raw n
    match Utf8.decode bs with
    | .ok t => return some (.name t (flag == 1))
    | .error fault => fail textStart (.dimensionNotText fault)
  else fail start (.unknownDimensionTag tag)

/-- A dimension. -/
def dimension (σ : Setting) : Reader Dimension := do
  let start ← position
  match ← dimension? σ with
  | some d => return d
  | none => fail start .absentDimension

/-- As many dimensions as given. -/
def dimensions (σ : Setting) : Nat → Reader (List Dimension)
  | 0 => return []
  | n + 1 => do
    let d ← dimension σ
    return d :: (← dimensions σ n)

/-- A path. -/
def path (σ : Setting) : Reader Path := do
  dimensions σ (← length .pathLength σ.limits.maxPathLength)

/-- The scalar of a kind. -/
def scalarBody (σ : Setting) : Kind → Reader Scalar
  | .alpha => return .alpha
  | .omega => return .omega
  | .number => return .number (← number)
  | .string => do
    let start ← position
    let bs ← payload σ
    match Utf8.decode bs with
    | .ok t => return .string t
    | .error fault => fail (start + 4) (.stringNotText fault)
  | .binary => return .binary (← payload σ)
  | .bound => return .bound (.ofPacked σ.binder (← payload σ))

/-- A base, or the absence of one. -/
def base (σ : Setting) : Reader (Option Scalar) := do
  let start ← position
  let tag := (← int32).toInt
  if tag = absentTag then return none
  else match Kind.ofTag? tag with
    | some kind => return some (← scalarBody σ kind)
    | none => fail start (.unknownValueTag tag)

/-! ## nodes -/

/-- Sets how many levels may still be entered. -/
def setRoom (room : Nat) : Reader Unit := modify fun s => { s with room := room }

/-- As many children of a context as given, each after the dimension `last`. -/
def contexts (σ : Setting) (readChild : Reader Context) :
    Nat → (last : Option Dimension) → Reader (List (Dimension × Context))
  | 0, _ => return []
  | n + 1, last => do
    let start ← position
    let d ← dimension σ
    if last.any (compare · d != .lt) then fail start (.outOfOrder d)
    let childStart ← position
    let c ← readChild
    if c.isEmpty then fail childStart (.emptyChild d)
    return (d, c) :: (← contexts σ readChild n (some d))

/-- A context of at most as many levels as given. -/
def contextWithin (σ : Setting) : Nat → Reader Context
  | 0 => do
    setRoom 0
    fail (← position) (.tooDeep σ.limits.maxDepth)
  | room + 1 => do
    setRoom room
    let countStart ← position
    let bases ← count .baseCount
    let value ← base σ
    let n ← count .childCount
    let children ← contexts σ (contextWithin σ room) n none
    let c := Context.node value children
    if c.baseCount ≠ bases then
      fail countStart (.miscounted .baseCount bases c.baseCount)
    setRoom (room + 1)
    return c

/-- A context. -/
def context (σ : Setting) : Reader Context := do contextWithin σ (← get).room

/-- As many children of a patch as given, put among those of `done`. -/
def patches (σ : Setting) (readChild : Reader Patch) :
    Nat → (done : List (Dimension × Patch)) → Reader (List (Dimension × Patch))
  | 0, done => return done
  | n + 1, done => do
    let start ← position
    let d ← dimension σ
    let p ← readChild
    if Keyed.contains d done then fail start (.duplicate d)
    patches σ readChild n (Keyed.insert d p done)

/-- A patch of at most as many levels as given, as it was written. -/
def patchWithin (σ : Setting) : Nat → Reader Patch
  | 0 => do
    setRoom 0
    fail (← position) (.tooDeep σ.limits.maxDepth)
  | room + 1 => do
    setRoom room
    let flagStart ← position
    let bits := (← int32).toUInt32.toNat
    if 3 < bits then fail flagStart (.unknownFlags bits)
    let blankStart ← position
    let blanks ← count .blankCount
    let baseStart ← position
    let bases ← count .baseCount
    let value ← base σ
    let n ← count .childCount
    let children ← patches σ (patchWithin σ room) n []
    let p := Patch.node value (2 ≤ bits) (bits % 2 == 1) children
    if p.baseCount ≠ bases then
      fail baseStart (.miscounted .baseCount bases p.baseCount)
    if p.blankCount ≠ blanks then
      fail blankStart (.miscounted .blankCount blanks p.blankCount)
    setRoom (room + 1)
    return p

/-- A patch, in normal form. -/
def patch (σ : Setting) : Reader Patch := do
  let p ← patchWithin σ (← get).room
  return p.normalize false

/-! ## the end -/

/-- The end of the input. -/
def finish : Reader Unit := do
  let s ← get
  if !s.rest.isEmpty then fail s.offset (.trailing s.rest.length)

end Read

/-- The value that a reader takes from the bytes, which must be all of them. -/
def decode (σ : Setting) (r : Reader α) (bs : List UInt8) : Except ReadError α :=
  match (do let v ← r; Read.finish; return v : Reader α).run (.start σ.limits bs) with
  | .ok v _ => .ok v
  | .error e _ => .error e

end Intension.Binary

namespace Intension

/-- The context whose binary form the bytes are. -/
def Context.decode (σ : Binary.Setting) (bs : List UInt8) : Except Binary.ReadError Context :=
  Binary.decode σ (Binary.Read.context σ) bs

/-- The patch whose binary form the bytes are. -/
def Patch.decode (σ : Binary.Setting) (bs : List UInt8) : Except Binary.ReadError Patch :=
  Binary.decode σ (Binary.Read.patch σ) bs

end Intension
