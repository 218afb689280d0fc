import Intension.Proofs.Grammar.Shape
import Mathlib.Tactic.MkIffOfInductiveProp
import Mathlib.Tactic.SplitIfs
import Mathlib.Tactic.Tauto

/-!
# Intension.Proofs.Grammar.Derivation

The grammar of the text form as such, without a machine.  A derivation is a tree
(`Node`): a node is angled or not and has terms, and a term keeps the token it is
spelled with beside what that token denotes.  Of a derivation it is told by
recursion which tokens it is spelled with (`Node.tokens`), how deep it is
(`Node.depth`) and which patch it spells (`Node.patch`); `Node.WellFormed` says
what terms may stand in one body.
-/

namespace Intension.Grammar

/-! ## derivations -/

mutual

/-- A node as it is spelled. -/
inductive Node where
  | node (angled : Bool) (terms : List Term)

/-- A term of a body. -/
inductive Term where
  /-- A clear marker. -/
  | marker (count : Nat)
  /-- A base: its token, and the scalar that the token denotes. -/
  | base (spelled : Token) (v : Scalar)
  /-- A child: the token of its dimension, that dimension, and the node after the colon. -/
  | child (spelled : Token) (d : Dimension) (node : Node)

end

/-- Whether a node is in angle brackets. -/
def Node.angled : Node → Bool
  | .node angled _ => angled

/-- The token that opens a node. -/
def opening (angled : Bool) : Token := if angled then .openAngle else .openSquare

/-- The token that closes a node. -/
def closing (angled : Bool) : Token := if angled then .closeAngle else .closeSquare

mutual

/-- The tokens that a node is spelled with. -/
def Node.tokens : Node → List Token
  | .node angled terms => opening angled :: (joined terms ++ [closing angled])

/-- The tokens that a term is spelled with. -/
def Term.tokens : Term → List Token
  | .marker count => [.dashes count]
  | .base spelled _ => [spelled]
  | .child spelled _ node => spelled :: .colon :: node.tokens

/-- The tokens that a body is spelled with: its terms with `+` between them. -/
def joined : List Term → List Token
  | [] => []
  | [t] => t.tokens
  | t :: rest => t.tokens ++ .plus :: joined rest

end

mutual

/-- The levels of nodes. -/
def Node.depth : Node → Nat
  | .node _ terms => deepest terms + 1

/-- The levels of nodes in a body. -/
def deepest : List Term → Nat
  | [] => 0
  | .marker _ :: rest => deepest rest
  | .base _ _ :: rest => deepest rest
  | .child _ _ n :: rest => max n.depth (deepest rest)

end

/-! ## the parts of a body -/

namespace Term

/-- The dashes of a clear marker. -/
def marker? : Term → Option Nat
  | .marker count => some count
  | _ => none

/-- The scalar of a base. -/
def base? : Term → Option Scalar
  | .base _ v => some v
  | _ => none

/-- The dimension of a child. -/
def dim? : Term → Option Dimension
  | .child _ d _ => some d
  | _ => none

/-- The node of a child. -/
def node? : Term → Option Node
  | .child _ _ n => some n
  | _ => none

end Term

/-- The clear markers among terms. -/
def markers (terms : List Term) : List Nat := terms.filterMap Term.marker?

/-- The bases among terms. -/
def bases (terms : List Term) : List Scalar := terms.filterMap Term.base?

/-- The dimensions of the children among terms. -/
def dims (terms : List Term) : List Dimension := terms.filterMap Term.dim?

/-- The nodes of the children among terms. -/
def nodes (terms : List Term) : List Node := terms.filterMap Term.node?

/-- Whether a term is what its token denotes. -/
def Term.Denotes : Term → Prop
  | .marker _ => True
  | .base spelled v => Scalar.ofToken? spelled = some v
  | .child spelled d _ => Dimension.ofToken spelled = .ok d

/-- What terms may stand in a body: one clear marker, but none in angle brackets; one base;
children of different dimensions, in angle brackets where the body is. -/
@[mk_iff]
structure Fits (angled : Bool) (terms : List Term) : Prop where
  markers : (markers terms).length ≤ if angled then 0 else 1
  bases : (bases terms).length ≤ 1
  dims : (dims terms).Pairwise fun d e => (d == e) = false
  nodes : angled → ∀ n ∈ nodes terms, n.angled
  denotes : ∀ t ∈ terms, t.Denotes

/-- The body of each node is one that may stand there. -/
inductive Node.WellFormed : Node → Prop
  | node {angled : Bool} {terms : List Term} (fits : Fits angled terms)
      (inner : ∀ n ∈ nodes terms, n.WellFormed) : WellFormed (.node angled terms)

/-- Tokens are those of a derivation that a text may spell. -/
structure Derives (angledOnly : Bool) (limits : Limits) (n : Node) (tokens : List Token) :
    Prop where
  tokens : n.tokens = tokens
  wellFormed : n.WellFormed
  angled : angledOnly → n.angled
  depth : n.depth ≤ max 1 limits.maxDepth

/-! ## what a derivation spells -/

/-- Whether a body clears the base: in angle brackets, or by a marker `-` or `---`. -/
def baseMark (angled : Bool) (terms : List Term) : Bool :=
  (markers terms).head?.elim angled (· != 2)

/-- Whether a body clears dimensions: in angle brackets, or by a marker `--` or `---`. -/
def dimsMark (angled : Bool) (terms : List Term) : Bool :=
  (markers terms).head?.elim angled (2 ≤ ·)

/-- Entries put in their places, in turn. -/
def placed (entries : List (Dimension × Patch)) : List (Dimension × Patch) :=
  entries.foldl (fun done e => Keyed.insert e.1 e.2 done) []

mutual

/-- The patch that a node spells. -/
def Node.patch : Node → Patch
  | .node angled terms =>
    .node (bases terms).head? (baseMark angled terms) (dimsMark angled terms)
      (placed (entries terms))

/-- The patches that the children among terms spell. -/
def entries : List Term → List (Dimension × Patch)
  | [] => []
  | .marker _ :: rest => entries rest
  | .base _ _ :: rest => entries rest
  | .child _ d n :: rest => (d, n.patch) :: entries rest

end

/-! ## one more term -/

/-- What stands in a body before its next term. -/
def lead (terms : List Term) : List Token :=
  if terms.isEmpty then [] else joined terms ++ [.plus]

/-- A `+` follows a term that is not the last one. -/
theorem joined_cons (t : Term) {rest : List Term} (h : rest ≠ []) :
    joined (t :: rest) = t.tokens ++ .plus :: joined rest := by
  cases rest with
  | nil => exact absurd rfl h
  | cons u rest =>
    rw [joined]
    simp

/-- The last term follows the others and, if there are any, a `+`. -/
theorem joined_append_singleton (terms : List Term) (t : Term) :
    joined (terms ++ [t]) = lead terms ++ t.tokens := by
  induction terms with
  | nil => simp [joined, lead]
  | cons u rest ih =>
    rw [List.cons_append, joined_cons u (by simp), ih]
    cases rest with
    | nil => simp [lead, joined]
    | cons w rest => simp [lead, joined_cons u (List.cons_ne_nil w rest)]

/-- The children of a body are those of its parts in turn. -/
theorem entries_append (l m : List Term) : entries (l ++ m) = entries l ++ entries m := by
  induction l with
  | nil => simp [entries]
  | cons t l ih => cases t <;> simp [entries, ih]

theorem markers_append (l m : List Term) : markers (l ++ m) = markers l ++ markers m :=
  List.filterMap_append

theorem bases_append (l m : List Term) : bases (l ++ m) = bases l ++ bases m :=
  List.filterMap_append

theorem dims_append (l m : List Term) : dims (l ++ m) = dims l ++ dims m := List.filterMap_append

theorem nodes_append (l m : List Term) : nodes (l ++ m) = nodes l ++ nodes m :=
  List.filterMap_append

/-- The dimensions of children are the keys of their entries. -/
theorem dims_eq_map_entries (terms : List Term) : dims terms = (entries terms).map (·.1) := by
  induction terms with
  | nil => simp [dims, entries]
  | cons t terms ih => cases t <;> simp [dims, entries, Term.dim?, List.filterMap_cons] <;> exact ih

/-- A body is as shallow as every node among its terms. -/
theorem deepest_le_iff {terms : List Term} {k : Nat} :
    deepest terms ≤ k ↔ ∀ n ∈ nodes terms, n.depth ≤ k := by
  induction terms with
  | nil => simp [deepest, nodes]
  | cons t terms ih =>
    cases t with
    | marker => simpa [deepest, nodes, Term.node?] using ih
    | base => simpa [deepest, nodes, Term.node?] using ih
    | child k d n =>
      rw [deepest, Nat.max_le, ih]
      simp [nodes, Term.node?]

/-- What is placed under a dimension is found just if some term spells an equal one. -/
theorem contains_placed {d : Dimension} {terms : List Term} :
    Keyed.contains d (placed (entries terms)) ↔ ∃ e ∈ dims terms, e == d := by
  rw [placed, Keyed.contains_foldl_insert, dims_eq_map_entries]
  simp [Keyed.contains, BEq.comm]

section

variable (terms : List Term) (t : Term)

/-- One more element adds at most one result at the end. -/
theorem filterMap_append_singleton {α β : Type} (f : α → Option β) (l : List α) (a : α) :
    (l ++ [a]).filterMap f = l.filterMap f ++ (f a).toList := by
  rw [List.filterMap_append]
  cases h : f a <;> simp [h]

/-- One more term adds its clear marker, if it is one. -/
theorem markers_append_singleton : markers (terms ++ [t]) = markers terms ++ t.marker?.toList :=
  filterMap_append_singleton ..

/-- One more term adds its base, if it is one. -/
theorem bases_append_singleton : bases (terms ++ [t]) = bases terms ++ t.base?.toList :=
  filterMap_append_singleton ..

/-- One more term adds its dimension, if it is a child. -/
theorem dims_append_singleton : dims (terms ++ [t]) = dims terms ++ t.dim?.toList :=
  filterMap_append_singleton ..

/-- One more term adds its node, if it is a child. -/
theorem nodes_append_singleton : nodes (terms ++ [t]) = nodes terms ++ t.node?.toList :=
  filterMap_append_singleton ..

end

/-- A term may follow others. -/
def Admits (angled : Bool) (terms : List Term) : Term → Prop
  | .marker _ => angled = false ∧ markers terms = []
  | .base spelled v => bases terms = [] ∧ Scalar.ofToken? spelled = some v
  | .child spelled d n => (∀ e ∈ dims terms, (e == d) = false) ∧ (angled → n.angled) ∧
      Dimension.ofToken spelled = .ok d

/-- Nothing is wrong with an empty body. -/
theorem fits_nil (angled : Bool) : Fits angled [] := by
  constructor <;> simp [markers, bases, dims, nodes]

/-- A body fits together just if each term is admitted after those before it; so a reader that
checks terms as they come has checked the body. -/
theorem fits_append_singleton {angled : Bool} {terms : List Term} {t : Term} :
    Fits angled (terms ++ [t]) ↔ Fits angled terms ∧ Admits angled terms t := by
  have hdenotes : (∀ u ∈ terms ++ [t], u.Denotes) ↔ (∀ u ∈ terms, u.Denotes) ∧ t.Denotes := by
    simp only [List.forall_mem_append, List.forall_mem_singleton]
  rw [fits_iff, fits_iff, markers_append_singleton, bases_append_singleton, dims_append_singleton,
    nodes_append_singleton, hdenotes]
  cases t with
  | marker count =>
    have hlength : (markers terms ++ [count]).length ≤ (if angled then 0 else 1) ↔
        (markers terms).length ≤ (if angled then 0 else 1) ∧ angled = false ∧
          markers terms = [] := by
      cases angled <;> simp +contextual
    simp only [Term.marker?, Term.base?, Term.dim?, Term.node?, Option.toList_some,
      Option.toList_none, List.append_nil, Admits, Term.Denotes, hlength]
    tauto
  | base k v =>
    have hlength : (bases terms ++ [v]).length ≤ 1 ↔
        (bases terms).length ≤ 1 ∧ bases terms = [] := by
      simp +contextual
    simp only [Term.marker?, Term.base?, Term.dim?, Term.node?, Option.toList_some,
      Option.toList_none, List.append_nil, Admits, Term.Denotes, hlength]
    tauto
  | child k d n =>
    simp only [Term.marker?, Term.base?, Term.dim?, Term.node?, Option.toList_some,
      Option.toList_none, List.append_nil, Admits, Term.Denotes, List.forall_mem_append,
      List.forall_mem_singleton, List.pairwise_append, List.pairwise_singleton]
    tauto

end Intension.Grammar
