import Intension.Limits
import Intension.Toml.Reading

/-!
# Intension.Config

The configuration file: a TOML text whose table `limits` gives the bounds.
What is missing takes its standard value, and other keys are passed over.
-/

namespace Intension

/-- What a configuration file settles. -/
structure Config where
  limits : Limits
  deriving DecidableEq, Repr

namespace Config

/-- The configuration where there is no file. -/
def standard : Config := ⟨.standard⟩

/-- The bound that a setting gives. -/
def bound? : Toml → Option Nat
  | .integer i => if 0 ≤ i then some i.toNat else none
  | _ => none

/-- The bounds that a setting gives: a table of them, an array in the order of the keys, or a
date or time, which counts as a table without bounds. -/
def limits? : Toml → Option Limits
  | .table _ entries => Limits.ofSettings? (fun key => entries.lookup key.toList) bound?
  | .array items => Limits.ofSequence? items bound?
  | .moment _ => some .standard
  | _ => none

/-- The configuration that a file spells. -/
def parse? (t : Text) : Option Config := do
  match (← Toml.parse? t).lookup "limits".toList with
  | some setting => return ⟨← limits? setting⟩
  | none => return standard

/-- The text of a configuration, unless a bound is too large for an integer of a file. -/
def text? (c : Config) : Option Text :=
  if c.limits.fields.all (·.2 < 2 ^ (63 : Nat)) then
    some ("[limits]\n".toList ++ c.limits.fields.flatMap fun (key, n) =>
      key.toList ++ " = ".toList ++ Text.ofNat n ++ ['\n'])
  else none

end Config

end Intension
