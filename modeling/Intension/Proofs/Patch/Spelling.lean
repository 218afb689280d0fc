import Intension.Patch.Text
import Intension.Proofs.Grammar.Cutting
import Intension.Proofs.Patch.Pruned

/-!
# Intension.Proofs.Patch.Spelling

Patches as their texts spell them.  A text does not tell the objects of bound
values, and a name that cannot stand bare looks like a quoted one; what a text
tells of a patch is the patch `respelled`.  This is one of the ways to change the
scalars and dimensions of a patch (`Relabelling`) of which neither equality nor
either text shows anything: what is redundant stays so, hence a patch without
redundant children is in normal form as it is relabelled
(`Pruned.normalize_relabelled`).
-/

namespace Intension

open Std

/-! ## scalars and dimensions -/

/-- Repacking a value leaves its text as it is. -/
@[simp] theorem Scalar.text_repacked (binder : Option Binder) (v : Scalar) :
    (v.repacked binder).text = v.text := by cases v <;> rfl

/-- Repacking a value gives an equal one. -/
theorem Scalar.repacked_beq (binder : Option Binder) (v : Scalar) : v.repacked binder == v := by
  have hself : compare (v.repacked binder) v = compare v v := by cases v <;> rfl
  exact compare_eq_iff_beq.1 (hself.trans ReflCmp.compare_self)

namespace Dimension

/-- Respelled keys compare like the keys. -/
@[simp] theorem compare_respelled (d e : Dimension) :
    compare d.respelled e.respelled = compare d e := by
  cases d <;> cases e <;> rfl

theorem respelled_beq (d : Dimension) : d.respelled == d := by
  have hself : compare d.respelled d = compare d d := by cases d <;> rfl
  exact compare_eq_iff_beq.1 (hself.trans ReflCmp.compare_self)

theorem respelled_ne_of_lt {d e : Dimension} (h : compare d e = .lt) :
    (d.respelled == e.respelled) = false := by
  change (compare d.respelled e.respelled == .eq) = false
  rw [compare_respelled, h]
  rfl

/-- A respelled key has the same text. -/
@[simp] theorem text_respelled (d : Dimension) : d.respelled.text = d.text := by
  cases d with
  | integer i => rfl
  | name t quoted => simp [respelled, text]

end Dimension

/-- Other scalars and dimensions, equal to the old ones and of the same texts. -/
structure Relabelling where
  scalar : Scalar → Scalar
  dimension : Dimension → Dimension
  scalar_beq : ∀ v, scalar v == v
  text_scalar : ∀ v, (scalar v).text = v.text
  dimension_beq : ∀ d, dimension d == d
  text_dimension : ∀ d, (dimension d).text = d.text

namespace Relabelling

/-- Scalars and dimensions as texts spell them. -/
def spelled : Relabelling where
  scalar := Scalar.repacked none
  dimension := Dimension.respelled
  scalar_beq := Scalar.repacked_beq none
  text_scalar := Scalar.text_repacked none
  dimension_beq := Dimension.respelled_beq
  text_dimension := Dimension.text_respelled

/-- The objects of bound values looked up anew. -/
def repacked (binder : Option Binder) : Relabelling where
  scalar := Scalar.repacked binder
  dimension := id
  scalar_beq := Scalar.repacked_beq binder
  text_scalar := Scalar.text_repacked binder
  dimension_beq _ := BEq.rfl
  text_dimension _ := rfl

theorem map_scalar_beq (ρ : Relabelling) (base : Option Scalar) : base.map ρ.scalar == base := by
  cases base with
  | none => rfl
  | some v => exact ρ.scalar_beq v

/-- Relabelled keys compare like the keys. -/
theorem compare_dimension (ρ : Relabelling) (d e : Dimension) :
    compare (ρ.dimension d) (ρ.dimension e) = compare d e :=
  (TransCmp.congr_left (compare_eq_iff_beq.2 (ρ.dimension_beq d))).trans
    (TransCmp.congr_right (compare_eq_iff_beq.2 (ρ.dimension_beq e)))

end Relabelling

namespace Patch

/-! ## what texts spell -/

/-- The text of a patch, the full one or the short one. -/
def spelling (short : Bool) (p : Patch) : Text := if short then p.shortText else p.text

/-- Every number in a patch is finite. -/
inductive HasLiterals : Patch → Prop
  | intro {p : Patch} (base : ∀ v ∈ p.base, v.HasLiteral)
      (inner : ∀ e ∈ p.children, HasLiterals e.2) : HasLiterals p

mutual

/-- The levels of nodes of a patch. -/
def levels : Patch → Nat
  | ⟨_, children, _, _, _, _⟩ => levelsBelow children + 1

/-- The levels of nodes among children. -/
def levelsBelow : List (Dimension × Patch) → Nat
  | [] => 0
  | (_, p) :: rest => max (levels p) (levelsBelow rest)

end

mutual

/-- The patch with other scalars and dimensions, and exact counts. -/
def relabelled (ρ : Relabelling) : Patch → Patch
  | ⟨base, children, clearsBase, clearsDims, _, _⟩ =>
    node (base.map ρ.scalar) clearsBase clearsDims (relabelledChildren ρ children)

/-- Children with other scalars and dimensions. -/
def relabelledChildren (ρ : Relabelling) : List (Dimension × Patch) → List (Dimension × Patch)
  | [] => []
  | (d, p) :: rest => (ρ.dimension d, relabelled ρ p) :: relabelledChildren ρ rest

end

mutual

/-- The patch as it is read back: its bound values without their objects, and its names quoted
that must be. -/
def respelled : Patch → Patch
  | ⟨base, children, clearsBase, clearsDims, _, _⟩ =>
    node (base.map (Scalar.repacked none)) clearsBase clearsDims (respelledChildren children)

/-- Children as they are read back. -/
def respelledChildren : List (Dimension × Patch) → List (Dimension × Patch)
  | [] => []
  | (d, p) :: rest => (d.respelled, respelled p) :: respelledChildren rest

end

/-- A patch has one level more than the deepest of its children. -/
theorem levels_eq (p : Patch) : p.levels = levelsBelow p.children + 1 := by
  cases p
  rw [levels]

/-- The levels below a node are bounded exactly if those of each child are. -/
theorem levelsBelow_le_iff {children : List (Dimension × Patch)} {k : Nat} :
    levelsBelow children ≤ k ↔ ∀ e ∈ children, e.2.levels ≤ k := by
  induction children with
  | nil => simp [levelsBelow]
  | cons e children ih => rw [levelsBelow, Nat.max_le, ih, List.forall_mem_cons]

theorem levels_le_levelsBelow {e : Dimension × Patch} {children : List (Dimension × Patch)}
    (he : e ∈ children) : e.2.levels ≤ levelsBelow children :=
  levelsBelow_le_iff.1 (Nat.le_refl _) e he

theorem respelledChildren_eq (children : List (Dimension × Patch)) :
    respelledChildren children = children.map fun e => (e.1.respelled, e.2.respelled) := by
  induction children with
  | nil => rw [respelledChildren, List.map_nil]
  | cons e children ih => rw [respelledChildren, ih, List.map_cons]

theorem respelled_eq (p : Patch) : p.respelled = node (p.base.map (Scalar.repacked none))
    p.clearsBase p.clearsDims (p.children.map fun e => (e.1.respelled, e.2.respelled)) := by
  cases p
  rw [respelled, respelledChildren_eq]

theorem shortTexts_eq (children : List (Dimension × Patch)) :
    shortTexts children = children.map fun e => (e.1, e.2.shortText) := by
  induction children with
  | nil => rw [shortTexts, List.map_nil]
  | cons e children ih => rw [shortTexts, ih, List.map_cons]

theorem childTerms_eq (children : List (Dimension × Patch)) :
    childTerms children = children.map fun e => e.1.text ++ ':' :: e.2.text := by
  induction children with
  | nil => rw [childTerms, List.map_nil]
  | cons e children ih => rw [childTerms, ih, List.map_cons]

/-- Both texts at once. -/
theorem spelling_eq (short : Bool) (p : Patch) :
    p.spelling short =
      let texts := p.children.map fun e => e.1.text ++ ':' :: e.2.spelling short
      if short && p.clearsBase && p.clearsDims &&
          p.children.all fun e => isAngled (e.2.spelling short) then
        Context.angled ((p.base.map Scalar.text).toList ++ texts)
      else squared (p.headTerms ++ texts) := by
  obtain ⟨base, children, clearsBase, clearsDims, bases, blanks⟩ := p
  cases short with
  | true =>
    simp only [spelling, if_true]
    rw [shortText, shortTexts_eq]
    simp only [List.map_map, List.all_map, Function.comp_def, Bool.true_and]
  | false =>
    simp only [spelling, Bool.false_eq_true, if_false, Bool.false_and]
    rw [text, childTerms_eq]

/-! ## what equality and texts do not show -/

section

variable (ρ : Relabelling)

theorem relabelledChildren_eq (children : List (Dimension × Patch)) :
    relabelledChildren ρ children = children.map fun e => (ρ.dimension e.1, e.2.relabelled ρ) := by
  induction children with
  | nil => rw [relabelledChildren, List.map_nil]
  | cons e children ih => rw [relabelledChildren, ih, List.map_cons]

/-- Relabelling relabels the base, the keys and the children, and leaves the marks. -/
theorem relabelled_eq (p : Patch) : p.relabelled ρ = node (p.base.map ρ.scalar) p.clearsBase
    p.clearsDims (p.children.map fun e => (ρ.dimension e.1, e.2.relabelled ρ)) := by
  cases p
  rw [relabelled, relabelledChildren_eq]

/-- Relabelling makes no patch redundant and keeps none from being so. -/
@[simp] theorem isRedundant_relabelled (clearing : Bool) (p : Patch) :
    (p.relabelled ρ).isRedundant clearing = p.isRedundant clearing := by
  rw [relabelled_eq]
  cases clearing <;> cases hbase : p.base <;> cases hchildren : p.children <;>
    simp [isRedundant, isClearAll, isNoop, node, hbase, hchildren]

/-- Both texts stay as they are. -/
theorem spelling_relabelled (short : Bool) (p : Patch) :
    (p.relabelled ρ).spelling short = p.spelling short := by
  induction p using children_induction with
  | step p ih =>
    have htexts :
        (p.relabelled ρ).children.map (fun e => e.1.text ++ ':' :: e.2.spelling short) =
          p.children.map fun e => e.1.text ++ ':' :: e.2.spelling short := by
      rw [relabelled_eq, node, List.map_map]
      exact List.map_congr_left fun e he => by
        rw [Function.comp_apply, ρ.text_dimension, ih e he]
    have hangled : ((p.relabelled ρ).children.all fun e => isAngled (e.2.spelling short)) =
        p.children.all fun e => isAngled (e.2.spelling short) := by
      rw [relabelled_eq, node, List.all_map, Bool.eq_iff_iff, List.all_eq_true, List.all_eq_true]
      exact forall₂_congr fun e he => by rw [Function.comp_apply, ih e he]
    have hbase : (p.relabelled ρ).base.map Scalar.text = p.base.map Scalar.text := by
      rw [relabelled_eq, node, Option.map_map]
      exact congrFun (congrArg Option.map (funext ρ.text_scalar)) p.base
    have hmarks : (p.relabelled ρ).clearsBase = p.clearsBase ∧
        (p.relabelled ρ).clearsDims = p.clearsDims := by
      rw [relabelled_eq]
      exact ⟨rfl, rfl⟩
    have hmarker : (p.relabelled ρ).marker = p.marker := by
      rw [marker, marker, hmarks.1, hmarks.2]
    rw [spelling_eq, spelling_eq, htexts, hangled, headTerms, headTerms, hbase, hmarker, hmarks.1,
      hmarks.2]

/-- Relabelled children agree with the children, if each does. -/
theorem agreesChildren_relabelled {clearing : Bool} {l : List (Dimension × Patch)}
    (hl : ∀ e ∈ l, agrees clearing (e.2.relabelled ρ) e.2) :
    agreesChildren clearing (l.map fun e => (ρ.dimension e.1, e.2.relabelled ρ))
      (essential clearing l) := by
  induction l with
  | nil => rfl
  | cons e l ih =>
    obtain ⟨he, hl⟩ := List.forall_mem_cons.1 hl
    rw [List.map_cons, essential, List.filter_cons]
    cases hkept : e.2.isRedundant clearing with
    | true =>
      rw [agreesChildren_cons_of_redundant (by simpa using hkept)]
      exact ih hl
    | false =>
      rw [Bool.not_false, if_pos rfl,
        agreesChildren_cons_of_kept (by simpa using hkept)]
      simp only [Bool.and_eq_true]
      exact ⟨⟨ρ.dimension_beq e.1, he⟩, ih hl⟩

/-- A relabelled patch agrees with the patch, in any region. -/
theorem agrees_relabelled (forced : Bool) (p : Patch) : agrees forced (p.relabelled ρ) p := by
  induction p using children_induction generalizing forced with
  | step p ih =>
    rw [agrees_eq, relabelled_eq, node]
    simp only [Bool.and_eq_true, beq_self_eq_true, true_and]
    exact ⟨ρ.map_scalar_beq p.base, agreesChildren_relabelled ρ fun e he => ih e he _⟩

/-- Nothing is redundant that was not so before. -/
theorem Pruned.normalize_relabelled {forced : Bool} {p : Patch} (h : p.Pruned forced) :
    (p.relabelled ρ).normalize forced = p.relabelled ρ := by
  induction h with
  | @intro forced p kept inner ih =>
    have hchildren : ∀ e ∈ p.children.map fun e => (ρ.dimension e.1, e.2.relabelled ρ),
        e.2.isRedundant (p.clearsDims || forced) = false ∧
          e.2.normalize (p.clearsDims || forced) = e.2 := by
      refine List.forall_mem_map.2 fun e he => ⟨?_, ih e he⟩
      rw [isRedundant_relabelled]
      exact kept e he
    rw [relabelled_eq, normalize_eq]
    exact congrArg (node _ _ _) <|
      normalizeChildren_eq_self (fun e he => (hchildren e he).1) fun e he => (hchildren e he).2

end

/-! ## what texts leave out -/

/-- Texts relabel. -/
theorem relabelled_spelled (p : Patch) : p.relabelled .spelled = p.respelled := by
  induction p using children_induction with
  | step p ih =>
    rw [relabelled_eq, respelled_eq]
    exact congrArg (node _ _ _) (List.map_congr_left fun e he => by rw [ih e he]; rfl)

/-- Both texts stay as they are. -/
theorem spelling_respelled (short : Bool) (p : Patch) :
    p.respelled.spelling short = p.spelling short := by
  rw [← relabelled_spelled, spelling_relabelled]

/-- A respelled patch has the same text. -/
@[simp] theorem text_respelled (p : Patch) : p.respelled.text = p.text := spelling_respelled false p

/-- A patch is equal to what is read back. -/
theorem respelled_beq (p : Patch) : p.respelled == p := by
  rw [← relabelled_spelled]
  exact agrees_relabelled .spelled false p

/-- Nothing is redundant that was not so before. -/
theorem Pruned.normalize_respelled {forced : Bool} {p : Patch} (h : p.Pruned forced) :
    p.respelled.normalize forced = p.respelled := by
  rw [← relabelled_spelled, h.normalize_relabelled]

end Patch

end Intension
