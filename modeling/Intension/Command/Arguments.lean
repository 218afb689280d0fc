import Intension.Command.Basic

/-!
# Intension.Command.Arguments

Reading the command line, from left to right: what comes first decides, be it a fault or
a request for help.  Options may stand before, between and after the operands, until `--`
makes operands of all that follows.  The value of an option is given after `=` or as the
next argument, which must then not look like an option.  Only `--candidate` may be given
more than once; `--config` may be given once before the command and once after it, and
the later one counts.
-/

namespace Intension.Command

/-- What a command line asks for. -/
inductive Intent where
  | run (i : Invocation)
  /-- The overview, which is shown as well where nothing is asked for. -/
  | overview (asked : Bool)
  | version
  /-- Something that is not understood. -/
  | misuse
  deriving DecidableEq, Repr

/-! ## single arguments -/

/-- What an argument looks like. -/
inductive Argument where
  /-- `--` -/
  | separator
  /-- `--name` or `--name=value` -/
  | long (name : String) (value : Option Text)
  /-- Other arguments that start with a dash, but for `-h` and `-V` with whatever follows them. -/
  | short
  | operand

/-- The looks of an argument. -/
def Argument.ofText : Text → Argument
  | ['-', '-'] => separator
  | '-' :: '-' :: t =>
    match t.dropWhile (· != '=') with
    | _ :: value => long (Text.str (t.takeWhile (· != '='))) (some value)
    | [] => long (Text.str t) none
  | '-' :: 'h' :: _ => long "help" none
  | '-' :: 'V' :: _ => long "version" none
  | '-' :: _ :: _ => short
  | _ => operand

/-! ## scanning -/

/-- The arguments that a command admits. -/
structure Form where
  /-- The flags that settle the whole line, and what they ask for. -/
  settling : List (String × Intent)
  flags : List String
  /-- The options with a value that may be given once. -/
  options : List String
  /-- The options with a value that may be given again. -/
  repeated : List String
  /-- How many operands there may be; if it is left open, the first one ends the scan. -/
  operands : Option Nat

/-- The arguments that were given. -/
structure Given where
  operands : List Text
  flags : List String
  options : List (String × Text)

namespace Given

/-- Nothing given yet. -/
def none : Given := ⟨[], [], []⟩

/-- Whether nothing was given. -/
def isNone (g : Given) : Bool := g.operands.isEmpty && g.flags.isEmpty && g.options.isEmpty

/-- Whether a flag was given. -/
def has (g : Given) (flag : String) : Bool := g.flags.contains flag

/-- The values that were given for an option. -/
def values (g : Given) (option : String) : List Text :=
  (g.options.filter (·.1 == option)).map (·.2)

/-- The value that was given for an option. -/
def value? (g : Given) (option : String) : Option Text := (g.values option).head?

/-- More operands, unless there are too many then. -/
def addOperands (form : Form) (ts : List Text) (g : Given) : Option Given :=
  if g.operands.length + ts.length ≤ form.operands.getD 0 then
    some { g with operands := g.operands ++ ts }
  else Option.none

/-- One more flag, unless it is unknown or was given. -/
def addFlag (form : Form) (name : String) (g : Given) : Option Given :=
  if form.flags.contains name && !g.has name then
    some { g with flags := g.flags ++ [name] }
  else Option.none

/-- One more option with its value, unless it is unknown or may not be given again. -/
def addOption (form : Form) (name : String) (v : Text) (g : Given) : Option Given :=
  if form.repeated.contains name
      || (form.options.contains name && (g.value? name).isNone) then
    some { g with options := g.options ++ [(name, v)] }
  else Option.none

end Given

/-- Scans arguments; gives what was given and what was not scanned, or else what the whole
line comes to. -/
def scan (form : Form) (g : Given) : List Text → Except Intent (Given × List Text)
  | [] => .ok (g, [])
  | arg :: rest =>
    match Argument.ofText arg with
    | .separator =>
      match g.addOperands form rest with
      | some g => .ok (g, [])
      | none => .error .misuse
    | .short => .error .misuse
    | .operand =>
      if form.operands.isNone then .ok (g, arg :: rest)
      else
        match g.addOperands form [arg] with
        | some g => scan form g rest
        | none => .error .misuse
    | .long name (some v) =>
      match g.addOption form name v with
      | some g => scan form g rest
      | none => .error .misuse
    | .long name none =>
      match form.settling.lookup name, g.addFlag form name with
      | some intent, _ => .error intent
      | none, some g => scan form g rest
      | none, none =>
        match rest with
        | [] => .error .misuse
        | v :: rest =>
          match Argument.ofText v, g.addOption form name v with
          | .operand, some g => scan form g rest
          | _, _ => .error .misuse

/-! ## the whole line -/

/-- The arguments before the command. -/
def leadingForm : Form :=
  ⟨[("help", .overview true), ("version", .version)], [], ["config"], [], none⟩

/-- The arguments of each command after its name. -/
def form? (name : String) : Option Form :=
  let form (flags options repeated : List String) (operands : Nat) : Form :=
    ⟨[("help", .overview true)], "json" :: flags, "config" :: options, repeated, some operands⟩
  match name with
  | "canonical" | "encode" | "decode" => some (form ["op"] [] [] 1)
  | "apply" => some (form [] ["at"] [] 2)
  | "compose" | "compare" | "refines" => some (form [] [] [] 2)
  | "best" => some (form [] ["domain"] ["candidate"] 1)
  | _ => none

/-- The command of a name and what was given for it. -/
def ofGiven? (name : String) (g : Given) : Option Command :=
  match name, g.operands with
  | "canonical", [text] => some (.canonical text (g.has "op"))
  | "apply", [context, patch] => some (.apply context patch (g.value? "at"))
  | "compose", [first, second] => some (.compose first second)
  | "compare", [left, right] => some (.compare left right)
  | "refines", [context, target] => some (.refines context target)
  | "best", [request] => some (.best request (g.values "candidate") (g.value? "domain"))
  | "encode", [text] => some (.encode text (g.has "op"))
  | "decode", [hex] => some (.decode hex (g.has "op"))
  | _, _ => none

/-- The intent of a request for help on topics, of which there may be one: a command. -/
def helpOn : List Text → Intent
  | [] => .overview true
  | [topic] =>
    if topic.str = "help" ∨ (form? topic.str).isSome then .overview true else .misuse
  | _ => .misuse

/-- The intent of a command and the arguments after its name; `config` is the configuration
file named before it. -/
def intentOf (config : Option Text) (name : Text) (args : List Text) : Intent :=
  if name.str = "help" then helpOn args
  else
    match form? name.str with
    | none => .misuse
    | some form =>
      match scan form .none args with
      | .error intent => intent
      | .ok (g, _) =>
        match ofGiven? name.str g with
        | none => .misuse
        | some command =>
          .run ⟨command, g.has "json",
            ((g.value? "config").orElse fun _ => config).getD "intense.toml".toList⟩

/-- The names of the files that an intent needs. -/
def fileNames : Intent → List Text
  | .run ⟨.best _ _ (some domain), _, config⟩ => [config, domain]
  | .run i => [i.config]
  | _ => []

/-- The intent of a command line. -/
def Intent.ofArguments (args : List Text) : Intent :=
  match scan leadingForm .none args with
  | .error intent => intent
  | .ok (g, name :: args) => intentOf (g.value? "config") name args
  | .ok (g, []) => if g.isNone then .overview false else .misuse

end Intension.Command
