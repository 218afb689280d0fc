import Intension.Binary.Reader
import Intension.Binary.Writer
import Intension.Command.Arguments
import Intension.Command.Basic
import Intension.Config
import Intension.Context.Digest
import Intension.Json.Forms
import Intension.Json.Printing
import Intension.Json.Reading
import Intension.Patch.Compose

/-!
# Intension.Command.Running

Running commands.  The configuration is looked at first, and then the arguments
in their order; the first fault ends the run.  Exit code 2 stands for a fault,
1 for a negative answer and 0 for any other.
-/

namespace Intension.Command

/-! ## arguments -/

/-- The context of an argument. -/
def context (limits : Limits) (t : Text) : Except Fault Context :=
  (Context.parse limits t).mapError (.badContext t)

/-- The patch of an argument. -/
def patch (limits : Limits) (t : Text) : Except Fault Patch :=
  (Patch.parse limits t).mapError (.badPatch t)

/-- The path of an argument. -/
def path (t : Text) : Except Fault Path := (Path.parse t).mapError (.badPath t)

/-- The bytes of an argument in hexadecimal, blanks around it aside. -/
def bytes (t : Text) : Except Fault (List UInt8) := (Hex.decode t.trim).mapError .badHex

/-- The domain in a file. -/
def domain (files : Text → FileContent) (name : Text) : Except Fault Domain :=
  match files name with
  | .bytes bs =>
    match ((Utf8.decode bs).toOption.bind Json.parse?).bind Domain.ofJson? with
    | some d => .ok d
    | none => .error (.badDomain name)
  | _ => .error (.noDomain name)

/-- The configuration in a file; no file is the standard one. -/
def config (files : Text → FileContent) (name : Text) : Except Fault Config :=
  match files name with
  | .absent => .ok .standard
  | .unreadable => .error (.badConfig name)
  | .bytes bs =>
    match (Utf8.decode bs).toOption.bind Config.parse? with
    | some c => .ok c
    | none => .error (.badConfig name)

/-! ## reports -/

/-- A report of one line. -/
def Report.line (t : Text) (json : List (String × Json)) : Report := ⟨[t], .object json, true⟩

/-- The name of an order. -/
def orderName : Ordering → String
  | .lt => "less"
  | .eq => "equal"
  | .gt => "greater"

/-- The name of what is read or written. -/
def kindName (asPatch : Bool) : String := if asPatch then "op" else "context"

/-- The lines of a resolution. -/
def resolutionLines : Resolution → List Text
  | .best v => ["best ".toList ++ v.text]
  | .near vs => vs.map fun v => "near ".toList ++ v.text
  | .nothing => ["none".toList]

/-- The report of a command. -/
def report (limits : Limits) (files : Text → FileContent) :
    Command → Except Fault Report
  | .canonical text true => do
    let p ← patch limits text
    return .line p.text [("basecount", .ofNat p.baseCount), ("blankcount", .ofNat p.blankCount),
      ("canonical", .string p.text), ("kind", .ofString (kindName true)),
      ("short", .string p.shortText)]
  | .canonical text false => do
    let c ← context limits text
    return .line c.text [("basecount", .ofNat c.baseCount), ("canonical", .string c.text),
      ("digest", .string c.digest), ("kind", .ofString (kindName false))]
  | .apply input change at? => do
    let c ← context limits input
    let p ← patch limits change
    let place ← match at? with
      | some t => path t
      | none => .ok []
    let result := c.applyAt place p
    return .line result.text [("at", (at?.map Json.string).getD .null),
      ("basecount", .ofNat result.baseCount), ("input", .string input), ("op", .string p.text),
      ("result", .string result.text)]
  | .compose first second => do
    let p ← patch limits first
    let q ← patch limits second
    let pq := p.compose q
    return .line pq.text [("composed", .string pq.text), ("first", .string p.text),
      ("second", .string q.text), ("short", .string pq.shortText)]
  | .compare left right => do
    let a ← context limits left
    let b ← context limits right
    let order := orderName (Ord.compare a b)
    return .line order.toList [("left", .string a.text),
      ("left_refines_right", .bool (a.refines b)), ("ordering", .ofString order),
      ("right", .string b.text), ("right_refines_left", .bool (b.refines a))]
  | .refines left right => do
    let a ← context limits left
    let b ← context limits right
    let answer := a.refines b
    return ⟨[(if answer then "yes" else "no").toList],
      .object [("context", .string a.text), ("refines", .bool answer), ("target", .string b.text)],
      answer⟩
  | .best request candidates file => do
    let c ← context limits request
    let d ← match file with
      | some name => domain files name
      | none => .ok .empty
    let versions ← candidates.mapM (context limits)
    let resolution := (d.extend versions).resolve c
    return ⟨resolutionLines resolution, resolution.toJson, !resolution matches .nothing⟩
  | .encode text asPatch => do
    let (shown, encoded) ←
      if asPatch then do
        let p ← patch limits text
        pure (p.text, p.encode limits)
      else do
        let c ← context limits text
        pure (c.text, c.encode limits)
    let bs ← encoded.mapError (.notEncodable shown)
    return .line (Hex.encode bs) [("canonical", .string shown),
      ("hex", .string (Hex.encode bs)), ("length", .ofNat bs.length)]
  | .decode hex asPatch => do
    let bs ← bytes hex
    let decoded :=
      if asPatch then (Patch.decode ⟨limits, none⟩ bs).map Patch.text
      else (Context.decode ⟨limits, none⟩ bs).map Context.text
    let shown ← decoded.mapError .badBytes
    return .line shown [("canonical", .string shown),
      ("kind", .ofString (kindName asPatch)), ("length", .ofNat bs.length)]

/-! ## runs -/

/-- The outcome of a report. -/
def Report.outcome (r : Report) (json : Bool) : Outcome :=
  ⟨if r.isPositive then 0 else 1,
    if json then r.json.pretty ++ ['\n'] else r.lines.flatMap (· ++ ['\n']), []⟩

/-- The outcome of a fault. -/
def Fault.outcome (e : Fault) : Outcome := ⟨2, [], ("error: " ++ e.message ++ "\n").toList⟩

end Intension.Command

namespace Intension

/-- The outcome of an invocation. -/
def Invocation.outcome (files : Text → FileContent) (i : Invocation) : Outcome :=
  let found := do Command.report (← Command.config files i.config).limits files i.command
  match found with
  | .ok r => r.outcome i.json
  | .error e => e.outcome

/-- The outcome of an intent. -/
def Command.Intent.outcome (files : Text → FileContent) : Command.Intent → Outcome
  | .run i => i.outcome files
  | .overview true => ⟨0, overviewText, []⟩
  | .overview false => ⟨2, [], overviewText⟩
  | .version => ⟨0, "intense 0.1.0\n".toList, []⟩
  | .misuse => ⟨2, [], misuseText⟩

end Intension
