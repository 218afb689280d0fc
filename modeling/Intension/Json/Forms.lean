import Intension.Config
import Intension.Domain
import Intension.Grammar.Reading
import Intension.Json.Printing
import Intension.Patch.Text

/-!
# Intension.Json.Forms

What is kept in JSON, and how.  Contexts, patches, dimensions and paths are
strings that hold their text, and a domain is an array of contexts.  Bounds and
configurations are objects; missing members take their standard values and
unknown ones are passed over.  A resolution is an object whose member `kind`
tells which it is.  Where an object is asked for, an array of the members'
values in their order will do.
-/

namespace Intension

/-! ## texts -/

/-- The text that a string holds. -/
def Json.text? : Json → Option Text
  | .string t => some t
  | _ => none

/-- The context that a string spells. -/
def Context.ofJson? (j : Json) : Option Context := do
  (Context.parse .standard (← j.text?)).toOption

/-- The patch that a string spells. -/
def Patch.ofJson? (j : Json) : Option Patch := do
  (Patch.parse .standard (← j.text?)).toOption

/-- The dimension that a string spells. -/
def Dimension.ofJson? (j : Json) : Option Dimension := do
  (Dimension.parse (← j.text?)).toOption

/-- The path that a string spells. -/
def Path.ofJson? (j : Json) : Option Path := do
  (Path.parse (← j.text?)).toOption

/-- A context as a string. -/
def Context.toJson (c : Context) : Json := .string c.text

/-- A patch as a string. -/
def Patch.toJson (p : Patch) : Json := .string p.text

/-- A dimension as a string. -/
def Dimension.toJson (d : Dimension) : Json := .string d.text

/-- A path as a string. -/
def Path.toJson (p : Path) : Json := .string p.text

/-! ## domains and resolutions -/

/-- The contexts that an array holds. -/
def Json.contexts? : Json → Option (List Context)
  | .array items => items.mapM Context.ofJson?
  | _ => none

/-- The domain that an array holds; of equal versions it takes the first. -/
def Domain.ofJson? (j : Json) : Option Domain := do
  return Domain.empty.extend (← j.contexts?)

/-- A domain as an array. -/
def Domain.toJson (d : Domain) : Json := .array (d.versions.map Context.toJson)

/-- The resolution of a kind, whose member is found by `look`. -/
def Resolution.ofKind? (kind : Json) (look : String → Option Json) : Option Resolution := do
  match (← kind.text?).str with
  | "best" => return .best (← Context.ofJson? (← look "context"))
  | "near" => return .near (← (← look "contexts").contexts?)
  | "none" => return .nothing
  | _ => none

/-- The resolution that an object holds. -/
def Resolution.ofJson? (j : Json) : Option Resolution :=
  match j with
  | .object _ => do ofKind? (← j.get? "kind") j.get?
  | .array (kind :: values) =>
    match ofKind? kind fun _ => values.head? with
    | some .nothing => if values.isEmpty then some .nothing else none
    | some r => if values.length = 1 then some r else none
    | none => none
  | _ => none

/-- A resolution as an object. -/
def Resolution.toJson : Resolution → Json
  | .best v => .object [("kind", .ofString "best"), ("context", v.toJson)]
  | .near vs => .object [("kind", .ofString "near"), ("contexts", .array (vs.map Context.toJson))]
  | .nothing => .object [("kind", .ofString "none")]

/-! ## bounds -/

/-- The bound that an integer gives, if it fits 64 bits. -/
def Json.bound? : Json → Option Nat
  | .integer i => if 0 ≤ i ∧ i < 2 ^ (64 : Nat) then some i.toNat else none
  | _ => none

/-- The bounds that an object holds. -/
def Limits.ofJson? (j : Json) : Option Limits :=
  match j with
  | .object _ => ofSettings? j.get? Json.bound?
  | .array items => if items.length ≤ 4 then ofSequence? items Json.bound? else none
  | _ => none

/-- Bounds as an object. -/
def Limits.toJson (l : Limits) : Json := .object (l.fields.map fun (key, n) => (key, .ofNat n))

/-- The configuration that an object holds. -/
def Config.ofJson? (j : Json) : Option Config :=
  match j with
  | .object _ =>
    match j.get? "limits" with
    | some v => (Limits.ofJson? v).map (⟨·⟩)
    | none => some standard
  | .array [] => some standard
  | .array [v] => (Limits.ofJson? v).map (⟨·⟩)
  | _ => none

/-- A configuration as an object. -/
def Config.toJson (c : Config) : Json := .object [("limits", c.limits.toJson)]

end Intension
