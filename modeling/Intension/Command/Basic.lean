import Intension.Binary.Basic
import Intension.Grammar.Fault
import Intension.Json.Printing
import Intension.Text.Basic
import Intension.Text.Printable

/-!
# Intension.Command.Basic

The commands of the command line, what can go wrong with them, what they
report, and what the program says about its own use.  All of it is pure: files
are given by their content.
-/

namespace Intension

namespace Command

/-- The lines that show how the program is called and which commands there are. -/
def overviewLines : List String :=
  ["Intense: canonicalize, patch, order, and resolve intensional contexts",
    "",
    "Usage: intense [OPTIONS] <COMMAND>",
    "",
    "Commands:",
    "  canonical  Parse a context (or op) and print its canonical text",
    "  apply      Apply an op to a context",
    "  compose    Compose two ops; applying the result equals applying both in order",
    "  compare    Compare two contexts in the total order",
    "  refines    Check whether a context refines to another: everything it defines is "
      ++ "matched by the target (exits 1 when it does not)",
    "  best       Resolve a request against a set of versions (exits 1 when nothing fits)",
    "  encode     Encode a context (or op) in the binary wire form, printed as hex",
    "  decode     Decode hex wire bytes into a context (or op)",
    "  help       Print this message or the help of the given subcommand(s)",
    "",
    "Options:",
    "      --config <CONFIG>  Limits configuration file (TOML); missing file means defaults "
      ++ "[default: intense.toml]",
    "  -h, --help             Print help",
    "  -V, --version          Print version"]

/-- The overview of the program. -/
def overviewText : Text := overviewLines.flatMap fun l => l.toList ++ ['\n']

/-- What is said when a command line is not understood. -/
def misuseText : Text :=
  ("error: the arguments are not understood\n\nUsage: intense [OPTIONS] <COMMAND>\n\n"
    ++ "For more information, try '--help'.\n").toList

end Command

/-! ## commands -/

/-- A command with its arguments. -/
inductive Command where
  /-- The canonical text of a context, or of a patch. -/
  | canonical (text : Text) (asPatch : Bool)
  /-- A context after a patch, at its root or at the end of a path. -/
  | apply (context patch : Text) (path : Option Text)
  /-- One patch for two. -/
  | compose (first second : Text)
  /-- The order of two contexts. -/
  | compare (left right : Text)
  /-- Whether a context refines to another. -/
  | refines (context target : Text)
  /-- What a request comes to among candidates and the versions of a domain in a file. -/
  | best (request : Text) (candidates : List Text) (domain : Option Text)
  /-- The binary form of a context, or of a patch. -/
  | encode (text : Text) (asPatch : Bool)
  /-- The context, or the patch, of a binary form. -/
  | decode (hex : Text) (asPatch : Bool)
  deriving DecidableEq, Repr

/-- A command and how to run it. -/
structure Invocation where
  command : Command
  /-- Whether to report in JSON. -/
  json : Bool
  /-- The name of the configuration file. -/
  config : Text
  deriving DecidableEq, Repr

/-- What is under the name of a file. -/
inductive FileContent where
  | absent
  /-- Something that cannot be read as a file. -/
  | unreadable
  | bytes (bs : List UInt8)

namespace Command

/-! ## errors -/

/-- Why a command fails. -/
inductive Fault where
  | badConfig (name : Text)
  | badContext (text : Text) (e : ParseError)
  | badPatch (text : Text) (e : ParseError)
  | badPath (text : Text) (e : ParseError)
  | notEncodable (text : Text) (e : Binary.WriteFault)
  | badHex (e : Hex.Fault)
  | badBytes (e : Binary.ReadError)
  | noDomain (name : Text)
  | badDomain (name : Text)

/-- The wording for hexadecimal input. -/
def hexMessage : Hex.Fault → String
  | .oddLength => "Odd number of digits"
  | .badDigit byte position =>
    "Invalid character " ++ (Debug.quoteChar (Char.ofNat byte.toNat)).str
      ++ s!" at position {position}"

/-- A text between backquotes. -/
def backquoted (t : Text) : String := "\x60" ++ t.str ++ "\x60"

/-- The wording of a fault. -/
def Fault.message : Fault → String
  | badConfig name => "config error: failed to parse " ++ name.str
  | badContext text e => "invalid context " ++ backquoted text ++ ": " ++ e.message
  | badPatch text e => "invalid op " ++ backquoted text ++ ": " ++ e.message
  | badPath text e => "invalid path " ++ backquoted text ++ ": " ++ e.message
  | notEncodable text e => "cannot encode " ++ backquoted text ++ ": " ++ e.message
  | badHex e => "input is not hex: " ++ hexMessage e
  | badBytes e => e.message
  | noDomain name => "failed to read domain at " ++ name.str
  | badDomain name => "failed to parse domain JSON at " ++ name.str

/-! ## results -/

/-- What a command finds. -/
structure Report where
  lines : List Text
  json : Json
  /-- Whether the answer is the one asked for. -/
  isPositive : Bool

end Command

/-- What a run of the program ends in. -/
structure Outcome where
  code : Nat
  out : Text
  err : Text
  deriving DecidableEq, Repr

end Intension
