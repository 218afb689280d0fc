import Intension.Grammar.Lexing
import Intension.Limits
import Intension.Patch.Compose

/-!
# Intension.Grammar.Reading

Reading the text form.

```
node   '<' body '>'   or   '[' body ']'
body   terms with '+' between them, or nothing
term   '-' | '--' | '---' | base | dimension ':' node
base   '~' | '^' | number | identifier | literal | '#' hex | '@' hex
```

A machine takes one lexeme after the other.  It keeps a stack of the nodes
that are open, the innermost first; an opening bracket pushes a frame and a
closing one pops it into its parent.  A node in angle brackets carries both
marks and holds only such nodes; a context is read as a patch of that kind.
-/

namespace Intension

/-! ## single tokens -/

/-- The base that a token denotes, if it denotes one. -/
def Scalar.ofToken? : Token → Option Scalar
  | .alpha => some .alpha
  | .omega => some .omega
  | .identifier t => some (.string t)
  | .literal t => some (.string t)
  | .numeral spelling => some (.number (Number.ofNumeral spelling))
  | .binary bytes => some (.binary bytes)
  | .bound bytes => some (.bound (.ofPacked none bytes))
  | _ => none

/-- The dimension that a token denotes.  A literal stays quoted. -/
def Dimension.ofToken : Token → Except ParseFault Dimension
  | .identifier t => .ok (.name t false)
  | .literal t => .ok (.name t true)
  | .numeral spelling => match Number.int32? spelling with
    | some i => .ok (.integer i)
    | none => .error (.notInt32 spelling)
  | token => .error (.notADimension token)

/-- The dimension that a lexeme denotes. -/
def Dimension.ofLexeme (l : Lexeme) : Except ParseError Dimension :=
  match Dimension.ofToken l.token with
  | .ok d => .ok d
  | .error fault => .error ⟨l.offset, fault⟩

namespace Grammar

/-! ## frames -/

/-- What may come next in an open node. -/
inductive Stage where
  /-- The node has just been opened: a term, or its end. -/
  | opened
  /-- A `+` was read: a term. -/
  | afterPlus
  /-- A term was read: `+`, or the end. -/
  | afterTerm
  /-- A dimension was read: its colon. -/
  | beforeColon (d : Dimension)
  /-- A dimension and its colon were read: a node. -/
  | beforeNode (d : Dimension)

/-- An open node. -/
structure Frame where
  /-- Whether the node is in angle brackets. -/
  angled : Bool
  stage : Stage
  base : Option Scalar
  clearsBase : Bool
  clearsDims : Bool
  /-- Whether a clear marker was read. -/
  marked : Bool
  children : List (Dimension × Patch)

namespace Frame

/-- A node just opened. -/
def start (angled : Bool) : Frame := ⟨angled, .opened, none, angled, angled, false, []⟩

/-- The token that closes the node. -/
def closer (f : Frame) : Token := if f.angled then .closeAngle else .closeSquare

/-- The patch of a node at its end; redundant children are still there. -/
def patch (f : Frame) : Patch := .node f.base f.clearsBase f.clearsDims f.children

/-- The node with a child that was read to its end. -/
def addChild (child : Patch) (f : Frame) : Frame :=
  match f.stage with
  | .beforeNode d =>
    { f with children := Keyed.insert d child f.children, stage := .afterTerm }
  | _ => { f with stage := .afterTerm }

/-- The node with a term of one token, or with the dimension of a term if a colon follows. -/
def addTerm (token : Token) (beforeColon : Bool) (f : Frame) : Except ParseFault Frame :=
  match token with
  | .dashes count =>
    if f.angled then .error .markerInAngles
    else if f.marked then .error .duplicateMarker
    else .ok { f with
      marked := true, clearsBase := count != 2, clearsDims := 2 ≤ count, stage := .afterTerm }
  | _ =>
    if beforeColon then
      match Dimension.ofToken token with
      | .error fault => .error fault
      | .ok d =>
        if Keyed.contains d f.children then .error (.duplicateDimension d)
        else .ok { f with stage := .beforeColon d }
    else match Scalar.ofToken? token with
      | none => .error (.unexpected token)
      | some v =>
        if f.base.isSome then .error .duplicateBase
        else .ok { f with base := some v, stage := .afterTerm }

end Frame

/-! ## the machine -/

/-- What has been read: the open nodes, the innermost first, or the whole tree. -/
inductive Progress where
  | within (stack : List Frame)
  | finished (p : Patch)

/-- The kind of node that a token opens, where one must open. -/
def opens (angledOnly : Bool) (token : Token) : Except ParseFault Frame :=
  match token with
  | .openAngle => .ok (.start true)
  | .openSquare =>
    if angledOnly then .error (.expectedNode true token) else .ok (.start false)
  | _ => .error (.expectedNode angledOnly token)

/-- The end of the innermost node; the outermost one is brought to normal form. -/
def close (f : Frame) : List Frame → Progress
  | [] => .finished (f.patch.normalize false)
  | parent :: stack => .within (parent.addChild f.patch :: stack)

/-- The next token inside a node. -/
def stepWithin (limits : Limits) (token : Token) (beforeColon : Bool) (f : Frame)
    (stack : List Frame) : Except ParseFault Progress :=
  match f.stage with
  | .beforeColon d => .ok (.within ({ f with stage := .beforeNode d } :: stack))
  | .beforeNode _ => do
    let child ← opens f.angled token
    if limits.maxDepth ≤ stack.length + 1 then throw (.tooDeep limits.maxDepth)
    return .within (child :: f :: stack)
  | .afterTerm =>
    if token = .plus then .ok (.within ({ f with stage := .afterPlus } :: stack))
    else if token = f.closer then .ok (close f stack)
    else if token = .closeAngle ∨ token = .closeSquare then
      .error (.mismatched token f.closer)
    else .error (.expectedPlus token)
  | .opened =>
    if token = f.closer then .ok (close f stack)
    else (f.addTerm token beforeColon).map fun f => .within (f :: stack)
  | .afterPlus =>
    if token = f.closer then .error .missingTerm
    else (f.addTerm token beforeColon).map fun f => .within (f :: stack)

/-- The next token; `beforeColon` tells whether a colon follows it. -/
def step (angledOnly : Bool) (limits : Limits) (token : Token) (beforeColon : Bool) :
    Progress → Except ParseFault Progress
  | .finished _ => .error (.afterEnd token)
  | .within [] => (opens angledOnly token).map fun f => .within [f]
  | .within (f :: stack) => stepWithin limits token beforeColon f stack

/-- Whether a colon is the first of some lexemes. -/
def startsWithColon : List Lexeme → Bool
  | ⟨.colon, _⟩ :: _ => true
  | _ => false

/-- The patch that lexemes spell, `length` being that of the whole text in bytes. -/
def run (angledOnly : Bool) (limits : Limits) (length : Nat) :
    Progress → List Lexeme → Except ParseError Patch
  | .finished p, [] => .ok p
  | .within _, [] => .error ⟨length, .unexpectedEnd⟩
  | progress, l :: rest =>
    match step angledOnly limits l.token (startsWithColon rest) progress with
    | .ok progress => run angledOnly limits length progress rest
    | .error fault => .error ⟨l.offset, fault⟩

/-- The patch that a text spells; only nodes in angle brackets if `angledOnly`. -/
def readPatch (angledOnly : Bool) (limits : Limits) (t : Text) : Except ParseError Patch := do
  run angledOnly limits t.byteLength (.within []) (← Lexeme.ofText t)

/-- The dimensions that lexemes spell, with a colon between each two. -/
def readPath (length : Nat) : List Lexeme → Except ParseError Path
  | [] => .ok []
  | [l] => do return [← Dimension.ofLexeme l]
  | l :: colon :: rest => do
    let d ← Dimension.ofLexeme l
    if colon.token ≠ .colon then throw ⟨colon.offset, .expectedColon colon.token⟩
    if rest.isEmpty then throw ⟨length, .pathEndsInColon⟩
    return d :: (← readPath length rest)

end Grammar

/-! ## whole texts -/

/-- The patch that a text spells. -/
def Patch.parse (limits : Limits) (t : Text) : Except ParseError Patch :=
  Grammar.readPatch false limits t

/-- The context that a text spells. -/
def Context.parse (limits : Limits) (t : Text) : Except ParseError Context :=
  (Grammar.readPatch true limits t).map Context.ofPatch

/-- The dimension that a text spells. -/
def Dimension.parse (t : Text) : Except ParseError Dimension := do
  match ← Lexeme.ofText t with
  | [] => throw ⟨0, .emptyDimension⟩
  | [l] => Dimension.ofLexeme l
  | _ :: extra :: _ => throw ⟨extra.offset, .unexpected extra.token⟩

/-- The path that a text spells; the empty text is the empty path. -/
def Path.parse (t : Text) : Except ParseError Path := do
  Grammar.readPath t.byteLength (← Lexeme.ofText t)

end Intension
