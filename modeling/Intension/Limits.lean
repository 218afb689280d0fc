/-!
# Intension.Limits

Bounds on what is read from outside: on the sizes of payloads, names and paths
in binary form, and on the nesting of nodes in text and in binary form.
-/

namespace Intension

/-- Bounds on what is read or written. -/
structure Limits where
  /-- The most bytes of a string, binary or bound payload. -/
  maxPayloadBytes : Nat
  /-- The most bytes of a name used as a dimension. -/
  maxDimensionBytes : Nat
  /-- The most dimensions of a path. -/
  maxPathLength : Nat
  /-- The most levels of nodes. -/
  maxDepth : Nat
  deriving DecidableEq, Repr

namespace Limits

/-- The bounds where none are given. -/
def standard : Limits := ⟨1048576, 1024, 1024, 1024⟩

/-- The keys that bounds are given under, with the bounds. -/
def fields (l : Limits) : List (String × Nat) :=
  [("max_payload_bytes", l.maxPayloadBytes), ("max_dimension_bytes", l.maxDimensionBytes),
    ("max_compound_len", l.maxPathLength), ("max_depth", l.maxDepth)]

/-- The bounds that some settings give.  `look` finds the setting under a key, the standard
bound stands where there is none, and `read` tells what a setting means. -/
def ofSettings? (look : String → Option α) (read : α → Option Nat) : Option Limits :=
  let bound (key : String) (standard : Nat) : Option Nat := (look key).elim (some standard) read
  do return {
    maxPayloadBytes := ← bound "max_payload_bytes" standard.maxPayloadBytes
    maxDimensionBytes := ← bound "max_dimension_bytes" standard.maxDimensionBytes
    maxPathLength := ← bound "max_compound_len" standard.maxPathLength
    maxDepth := ← bound "max_depth" standard.maxDepth }

/-- The bounds that settings give which stand in the order of the keys. -/
def ofSequence? (settings : List α) (read : α → Option Nat) : Option Limits :=
  ofSettings? ((standard.fields.map (·.1)).zip settings |>.lookup ·) read

end Limits

end Intension
