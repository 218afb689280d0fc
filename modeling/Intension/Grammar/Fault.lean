import Intension.Grammar.Token

/-!
# Intension.Grammar.Fault

What can be wrong with a text, apart from its tokens, and the wording of it.
Every error carries the offset in bytes of its place in the text.
-/

namespace Intension

/-- Why a text cannot be read. -/
inductive ParseFault where
  /-- The text cannot be cut into tokens. -/
  | token (fault : Token.Fault)
  /-- No token where a dimension is asked for. -/
  | emptyDimension
  /-- A token that cannot be a dimension where one is asked for. -/
  | notADimension (found : Token)
  /-- A numeral as dimension that is no 32-bit integer. -/
  | notInt32 (spelling : Text)
  /-- A path that goes on without a colon. -/
  | expectedColon (found : Token)
  /-- A path that stops after a colon. -/
  | pathEndsInColon
  /-- A token that cannot stand where it does. -/
  | unexpected (found : Token)
  /-- A token after the last one. -/
  | afterEnd (found : Token)
  /-- Something else where a node must open; `angledOnly` if only `<` would do. -/
  | expectedNode (angledOnly : Bool) (found : Token)
  /-- A node below as many as are allowed. -/
  | tooDeep (limit : Nat)
  /-- A closing bracket of the wrong shape. -/
  | mismatched (found expected : Token)
  /-- Two terms without `+` between them. -/
  | expectedPlus (found : Token)
  /-- A body that ends after `+`. -/
  | missingTerm
  /-- A clear marker in angle brackets. -/
  | markerInAngles
  /-- A second clear marker in one body. -/
  | duplicateMarker
  /-- A second base in one body. -/
  | duplicateBase
  /-- A dimension that is listed already. -/
  | duplicateDimension (d : Dimension)
  /-- The text ends before the node is closed. -/
  | unexpectedEnd
  deriving Repr

/-- The wording of a fault. -/
def ParseFault.message : ParseFault → String
  | token fault => fault.message
  | emptyDimension => "empty dimension"
  | notADimension found => found.describe ++ " cannot be a dimension"
  | notInt32 spelling => "dimension '" ++ Text.str spelling ++ "' is not a 32-bit integer"
  | expectedColon found => "expected ':', found " ++ found.describe
  | pathEndsInColon => "path ends with ':'"
  | unexpected found => "unexpected " ++ found.describe
  | afterEnd found => "unexpected " ++ found.describe ++ " after end of input"
  | expectedNode true found => "expected '<', found " ++ found.describe
  | expectedNode false found => "expected '[' or '<', found " ++ found.describe
  | tooDeep limit => s!"nesting deeper than {limit}"
  | mismatched found expected =>
    "mismatched " ++ found.describe ++ ", expected " ++ expected.describe
  | expectedPlus found => "expected '+' before " ++ found.describe
  | missingTerm => "expected a term after '+'"
  | markerInAngles => "clear markers are not allowed inside '<...>'"
  | duplicateMarker => "duplicate clear marker"
  | duplicateBase => "duplicate base value"
  | duplicateDimension d => "duplicate dimension '" ++ Text.str d.text ++ "'"
  | unexpectedEnd => "unexpected end of input"

/-- A fault and its place. -/
structure ParseError where
  offset : Nat
  fault : ParseFault
  deriving Repr

/-- The wording of an error. -/
def ParseError.message (e : ParseError) : String :=
  s!"parse error at offset {e.offset}: " ++ e.fault.message

end Intension
