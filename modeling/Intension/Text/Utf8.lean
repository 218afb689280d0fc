import Intension.Text.Basic

/-!
# Intension.Text.Utf8

Reading UTF-8.  `decode` walks the bytes once; between two bytes of a
character it remembers what is owed (`Pending`).  When the bytes are no text,
the fault says where the longest valid front ends, and whether a character
was cut short by the end of input or broken by a byte that cannot follow.
-/

namespace Intension.Utf8

/-- Why bytes are no UTF-8 text. -/
inductive Fault where
  /-- The `length` bytes after the valid front can start no character. -/
  | invalid (start length : Nat)
  /-- The input ends inside a character that was valid so far. -/
  | incomplete (start : Nat)
  deriving DecidableEq, Repr

/-- The wording of a fault. -/
def Fault.message : Fault → String
  | .invalid start length =>
    s!"invalid utf-8 sequence of {length} bytes from index {start}"
  | .incomplete start => s!"incomplete utf-8 byte sequence from index {start}"

/-- A character of which only the first bytes are read. -/
structure Pending where
  /-- Bytes still to come, at least one. -/
  owed : Nat
  /-- The least value of the next byte. -/
  low : Nat
  /-- The greatest value of the next byte. -/
  high : Nat
  /-- The bits read so far. -/
  value : Nat
  /-- The number of bytes read so far. -/
  seen : Nat

/-- What a first byte above `0x7F` promises, or `none` if none may start with it. -/
def lead (b : Nat) : Option Pending :=
  if 0xC2 ≤ b ∧ b ≤ 0xDF then some ⟨1, 0x80, 0xBF, b % 32, 1⟩
  else if b = 0xE0 then some ⟨2, 0xA0, 0xBF, b % 16, 1⟩
  else if b = 0xED then some ⟨2, 0x80, 0x9F, b % 16, 1⟩
  else if 0xE1 ≤ b ∧ b ≤ 0xEF then some ⟨2, 0x80, 0xBF, b % 16, 1⟩
  else if b = 0xF0 then some ⟨3, 0x90, 0xBF, b % 8, 1⟩
  else if b = 0xF4 then some ⟨3, 0x80, 0x8F, b % 8, 1⟩
  else if 0xF1 ≤ b ∧ b ≤ 0xF3 then some ⟨3, 0x80, 0xBF, b % 8, 1⟩
  else none

/-- Reads on from a pending character (or from between two) that starts at `start`;
`done` holds the characters read before it, the newest first. -/
def decodeFrom : Option Pending → Nat → List Char → List UInt8 → Except Fault Text
  | none, _, done, [] => .ok done.reverse
  | some _, start, _, [] => .error (.incomplete start)
  | none, start, done, b :: bs =>
    if b.toNat < 0x80 then decodeFrom none (start + 1) (Char.ofNat b.toNat :: done) bs
    else match lead b.toNat with
      | some p => decodeFrom (some p) start done bs
      | none => .error (.invalid start 1)
  | some p, start, done, b :: bs =>
    if p.low ≤ b.toNat ∧ b.toNat ≤ p.high then
      let value := p.value * 64 + b.toNat % 64
      if p.owed = 1 then
        decodeFrom none (start + p.seen + 1) (Char.ofNat value :: done) bs
      else
        decodeFrom (some ⟨p.owed - 1, 0x80, 0xBF, value, p.seen + 1⟩) start done bs
    else .error (.invalid start p.seen)

/-- The text that the bytes encode. -/
def decode (bs : List UInt8) : Except Fault Text := decodeFrom none 0 [] bs

end Intension.Utf8
