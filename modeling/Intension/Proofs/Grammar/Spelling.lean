import Intension.Proofs.Grammar.Agreement
import Intension.Proofs.Patch.Spelling

/-!
# Intension.Proofs.Grammar.Spelling

The texts of patches as texts of the grammar.  To each text of a patch, the full
one and the short one, belongs a derivation (`Node.ofPatch`): the text is cut
into its tokens, the derivation is well-formed, no deeper than the patch has
levels, and it spells the patch.  So either text is read back, as the normal form
of the patch that it spells (`readPatch_spelling`).
-/

namespace Intension.Grammar

/-! ## bodies -/

/-- The text of a term where a delimiter follows it. -/
def Spells (t : Text) (u : Term) : Prop := ∀ rest, Delimited rest → Lexes t u.tokens rest

/-- Terms with `+` between them are a body. -/
theorem lexes_joinTerms {texts : List Text} {terms : List Term}
    (h : List.Forall₂ Spells texts terms) {rest : Text} (hrest : Delimited rest) :
    Lexes (Text.joinTerms texts) (joined terms) rest := by
  induction h with
  | nil =>
    rw [joined]
    exact lexes_nil rest
  | @cons t u texts terms ht hterms ih =>
    by_cases hmore : terms = []
    · subst hmore
      cases hterms
      rw [joined]
      have hone : Text.joinTerms [t] = t := by simp [Text.joinTerms, List.intercalate]
      rw [hone]
      exact ht rest hrest
    · have htexts : texts ≠ [] := by
        rintro rfl
        cases hterms
        exact hmore rfl
      rw [Text.joinTerms_cons htexts, joined_cons u hmore]
      exact (ht _ (Token.delimited_cons (by simp) _)).append
        ((lexes_punctuation rfl _).append ih)

/-- Texts of terms between angle brackets lex to the tokens of the node. -/
theorem lexes_angled {texts : List Text} {terms : List Term}
    (h : List.Forall₂ Spells texts terms) (rest : Text) :
    Lexes (Context.angled texts) (Node.node true terms).tokens rest := by
  rw [Node.tokens]
  exact (lexes_punctuation rfl _).append <|
    (lexes_joinTerms h (Token.delimited_cons (by simp) _)).append (lexes_punctuation rfl rest)

/-- Texts of terms between square brackets lex to the tokens of the node. -/
theorem lexes_squared {texts : List Text} {terms : List Term}
    (h : List.Forall₂ Spells texts terms) (rest : Text) :
    Lexes (Patch.squared texts) (Node.node false terms).tokens rest := by
  rw [Node.tokens]
  exact (lexes_punctuation rfl _).append <|
    (lexes_joinTerms h (Token.delimited_cons (by simp) _)).append (lexes_punctuation rfl rest)

/-! ## the derivation of a patch -/

/-- The marker that clears as it should. -/
def markTerms (clearsBase clearsDims : Bool) : List Term :=
  match clearsBase, clearsDims with
  | true, true => [.marker 3]
  | false, true => [.marker 2]
  | true, false => [.marker 1]
  | false, false => []

/-- The term of a base. -/
def baseTerms (base : Option Scalar) : List Term :=
  (base.map fun v => .base v.token (v.repacked none)).toList

mutual

/-- The derivation of a patch in its full text, or in its short text. -/
def Node.ofPatch (short : Bool) : Patch → Node
  | ⟨base, children, clearsBase, clearsDims, _, _⟩ =>
    if short && clearsBase && clearsDims && (nodes (childTerms short children)).all Node.angled then
      .node true (baseTerms base ++ childTerms short children)
    else
      .node false (markTerms clearsBase clearsDims ++ (baseTerms base ++ childTerms short children))

/-- The terms of children. -/
def childTerms (short : Bool) : List (Dimension × Patch) → List Term
  | [] => []
  | (d, p) :: rest => .child d.token d.respelled (Node.ofPatch short p) :: childTerms short rest

end

/-! ## the text of a patch -/

open Patch (spelling)

variable {short : Bool}

/-- The nodes among the terms of children are their derivations. -/
theorem nodes_childTerms (children : List (Dimension × Patch)) :
    nodes (childTerms short children) = children.map fun e => Node.ofPatch short e.2 := by
  induction children with
  | nil => rw [childTerms]; rfl
  | cons e children ih =>
    rw [childTerms, List.map_cons, ← ih]
    rfl

/-- The derivation of a patch, put like its text. -/
theorem Node.ofPatch_eq (short : Bool) (p : Patch) :
    Node.ofPatch short p =
      if short && p.clearsBase && p.clearsDims &&
          p.children.all fun e => (Node.ofPatch short e.2).angled then
        .node true (baseTerms p.base ++ childTerms short p.children)
      else .node false (markTerms p.clearsBase p.clearsDims ++
        (baseTerms p.base ++ childTerms short p.children)) := by
  obtain ⟨base, children, clearsBase, clearsDims, bases, blanks⟩ := p
  rw [Node.ofPatch, nodes_childTerms, List.all_map]
  rfl

/-- The first character of the text tells how the node is bracketed. -/
theorem isAngled_spelling (short : Bool) (p : Patch) :
    Patch.isAngled (p.spelling short) = (Node.ofPatch short p).angled := by
  induction p using Patch.children_induction with
  | step p ih =>
    have hall : (p.children.all fun e => Patch.isAngled (e.2.spelling short)) =
        p.children.all fun e => (Node.ofPatch short e.2).angled := by
      rw [Bool.eq_iff_iff, List.all_eq_true, List.all_eq_true]
      exact forall₂_congr fun e he => by rw [ih e he]
    rw [Patch.spelling_eq, Node.ofPatch_eq]
    dsimp only
    rw [hall]
    split <;> rfl

/-- The text of a base value spells its term, if it has a literal. -/
theorem spells_base {base : Option Scalar} (h : ∀ v ∈ base, v.HasLiteral) :
    List.Forall₂ Spells (base.map Scalar.text).toList (baseTerms base) := by
  cases base with
  | none => exact .nil
  | some v =>
    refine .cons (fun rest hrest => ?_) .nil
    rw [Term.tokens]
    exact (Scalar.cutFrom_text (h v rfl) hrest).lexes

/-- The marker of a patch spells its term. -/
theorem spells_mark (p : Patch) :
    List.Forall₂ Spells p.marker.toList (markTerms p.clearsBase p.clearsDims) := by
  have hmark (more : Nat) (hmore : more < 3) :
      Spells ('-' :: List.replicate more '-') (.marker (1 + more)) := fun rest hrest => by
    rw [Term.tokens]
    exact (Token.cutFrom_dashes hmore hrest).lexes
  unfold Patch.marker markTerms
  cases p.clearsBase <;> cases p.clearsDims
  · exact .nil
  · exact .cons (hmark 1 (by decide)) .nil
  · exact .cons (hmark 0 (by decide)) .nil
  · exact .cons (hmark 2 (by decide)) .nil

/-- **The text of a patch is cut into the tokens of its derivation**, whatever follows it. -/
theorem lexes_spelling {p : Patch} (hp : p.HasLiterals) (rest : Text) :
    Lexes (p.spelling short) (Node.ofPatch short p).tokens rest := by
  induction hp generalizing rest with
  | @intro p base inner ih =>
    have hchildren : ∀ children : List (Dimension × Patch), (∀ e ∈ children, ∀ rest,
        Lexes (e.2.spelling short) (Node.ofPatch short e.2).tokens rest) →
        List.Forall₂ Spells (children.map fun e => e.1.text ++ ':' :: e.2.spelling short)
          (childTerms short children) := by
      intro children hchildren
      induction children with
      | nil =>
        rw [childTerms]
        exact .nil
      | cons e children ihc =>
        obtain ⟨he, hchildren⟩ := List.forall_mem_cons.1 hchildren
        rw [childTerms, List.map_cons]
        refine .cons (fun rest hrest => ?_) (ihc hchildren)
        rw [Term.tokens]
        have hdim : Lexes e.1.text [e.1.token] (':' :: e.2.spelling short ++ rest) :=
          (e.1.cutFrom_text (Token.delimited_cons (by simp) _)).lexes
        exact hdim.append ((lexes_punctuation rfl _).append (he rest))
    have hall : (p.children.all fun e => Patch.isAngled (e.2.spelling short)) =
        p.children.all fun e => (Node.ofPatch short e.2).angled :=
      List.all_congr rfl fun e => isAngled_spelling short e.2
    rw [Patch.spelling_eq, Node.ofPatch_eq]
    dsimp only
    rw [hall]
    split
    · exact lexes_angled (List.rel_append (spells_base base) (hchildren _ ih)) rest
    · rw [Patch.headTerms, List.append_assoc]
      exact lexes_squared (List.rel_append (spells_mark p)
        (List.rel_append (spells_base base) (hchildren _ ih))) rest

/-! ## what the derivation spells -/

section

variable {children : List (Dimension × Patch)}

theorem markers_childTerms : markers (childTerms short children) = [] := by
  induction children with
  | nil => rw [childTerms]; rfl
  | cons e children ih => rw [childTerms]; exact ih

theorem bases_childTerms : bases (childTerms short children) = [] := by
  induction children with
  | nil => rw [childTerms]; rfl
  | cons e children ih => rw [childTerms]; exact ih

/-- The keys among the terms of children are their respelled keys. -/
theorem dims_childTerms :
    dims (childTerms short children) = children.map fun e => e.1.respelled := by
  induction children with
  | nil => rw [childTerms]; rfl
  | cons e children ih => rw [childTerms, List.map_cons, ← ih]; rfl

/-- The children that the terms denote have the respelled keys. -/
theorem entries_childTerms : entries (childTerms short children) =
    children.map fun e => (e.1.respelled, (Node.ofPatch short e.2).patch) := by
  induction children with
  | nil => rw [childTerms]; rfl
  | cons e children ih => rw [childTerms, List.map_cons, ← ih]; rw [entries]

/-- Each term of a child denotes its key. -/
theorem denotes_childTerms : ∀ t ∈ childTerms short children, t.Denotes := by
  induction children with
  | nil => rw [childTerms]; exact nofun
  | cons e children ih =>
    rw [childTerms]
    exact List.forall_mem_cons.2 ⟨e.1.ofToken_token, ih⟩

end

/-- The terms of a node before its children, in a body of either kind. -/
def headTerms (angled : Bool) (p : Patch) : List Term :=
  (if angled then [] else markTerms p.clearsBase p.clearsDims) ++ baseTerms p.base

/-- The derivation of a patch: its head and its children, between angle brackets only if all of it
may be short. -/
theorem Node.ofPatch_eq_node (short : Bool) (p : Patch) : ∃ angled,
    Node.ofPatch short p = .node angled (headTerms angled p ++ childTerms short p.children) ∧
      (angled → p.clearsBase ∧ p.clearsDims ∧
        ∀ e ∈ p.children, (Node.ofPatch short e.2).angled) := by
  rw [Node.ofPatch_eq]
  split
  · next h =>
    refine ⟨true, rfl, fun _ => ?_⟩
    simp only [Bool.and_eq_true, List.all_eq_true] at h
    obtain ⟨⟨⟨-, hbase⟩, hdims⟩, hinner⟩ := h
    exact ⟨hbase, hdims, hinner⟩
  · exact ⟨false, by rw [headTerms, if_neg Bool.false_ne_true, List.append_assoc], nofun⟩

section

variable (angled : Bool) (p : Patch)

theorem markers_headTerms : markers (headTerms angled p) =
    if angled then [] else markers (markTerms p.clearsBase p.clearsDims) := by
  rw [headTerms, markers_append]
  cases angled <;> cases p.base <;> simp [markers, baseTerms, Term.marker?]

/-- The base value that the head of a node denotes is the respelled one. -/
theorem bases_headTerms :
    bases (headTerms angled p) = (p.base.map (Scalar.repacked none)).toList := by
  rw [headTerms, bases_append]
  cases angled <;> cases p.base <;> cases p.clearsBase <;> cases p.clearsDims <;> rfl

theorem dims_headTerms : dims (headTerms angled p) = [] := by
  rw [headTerms, dims_append]
  cases angled <;> cases p.base <;> cases p.clearsBase <;> cases p.clearsDims <;> rfl

theorem nodes_headTerms : nodes (headTerms angled p) = [] := by
  rw [headTerms, nodes_append]
  cases angled <;> cases p.base <;> cases p.clearsBase <;> cases p.clearsDims <;> rfl

theorem entries_headTerms : entries (headTerms angled p) = [] := by
  rw [headTerms, entries_append]
  cases angled <;> cases p.base <;> cases p.clearsBase <;> cases p.clearsDims <;>
    simp [markTerms, baseTerms, entries]

/-- The terms of the head denote what they spell, if the base value has a literal. -/
theorem denotes_headTerms {p : Patch} (h : ∀ v ∈ p.base, v.HasLiteral) :
    ∀ t ∈ headTerms angled p, t.Denotes := by
  rw [headTerms, List.forall_mem_append]
  constructor
  · cases angled <;> cases p.clearsBase <;> cases p.clearsDims <;>
      simp [markTerms, Term.Denotes]
  · cases hbase : p.base with
    | none => exact List.forall_mem_nil _
    | some v => exact List.forall_mem_singleton.2 (Scalar.ofToken?_token (h v hbase))

end

/-- The terms of a node keep the rules for the order, the number and the brackets of its terms. -/
theorem fits_ofPatch {angled : Bool} {p : Patch} (hsorted : Keyed.Sorted p.children)
    (hbase : ∀ v ∈ p.base, v.HasLiteral)
    (hangled : angled → ∀ e ∈ p.children, (Node.ofPatch short e.2).angled) :
    Fits angled (headTerms angled p ++ childTerms short p.children) where
  markers := by
    rw [markers_append, markers_headTerms, markers_childTerms]
    cases angled <;> cases p.clearsBase <;> cases p.clearsDims <;> decide
  bases := by
    rw [bases_append, bases_headTerms, bases_childTerms]
    cases p.base <;> simp
  dims := by
    rw [dims_append, dims_headTerms, dims_childTerms, List.nil_append, List.pairwise_map]
    exact hsorted.imp fun hlt => Dimension.respelled_ne_of_lt hlt
  nodes := by
    intro h
    rw [nodes_append, nodes_headTerms, nodes_childTerms, List.nil_append]
    simpa only [List.forall_mem_map] using hangled h
  denotes := List.forall_mem_append.2 ⟨denotes_headTerms angled hbase, denotes_childTerms⟩

/-- The derivation of an ordered patch with literals is well formed. -/
theorem wellFormed_ofPatch {p : Patch} (hp : p.HasLiterals) (hordered : p.Ordered) :
    (Node.ofPatch short p).WellFormed := by
  induction hp with
  | @intro p base inner ih =>
    obtain ⟨angled, heq, hangled⟩ := Node.ofPatch_eq_node short p
    rw [heq]
    refine .node (fits_ofPatch hordered.sorted base fun h => (hangled h).2.2) ?_
    rw [nodes_append, nodes_headTerms, nodes_childTerms, List.nil_append]
    simp only [List.forall_mem_map]
    exact fun e he => ih e he (hordered.inner e he)

/-- The derivation is no deeper than the patch. -/
theorem depth_ofPatch (p : Patch) : (Node.ofPatch short p).depth ≤ p.levels := by
  induction p using Patch.children_induction with
  | step p ih =>
    obtain ⟨angled, heq, -⟩ := Node.ofPatch_eq_node short p
    rw [heq, Node.depth, Patch.levels_eq]
    refine Nat.succ_le_succ (deepest_le_iff.2 ?_)
    rw [nodes_append, nodes_headTerms, nodes_childTerms, List.nil_append]
    simp only [List.forall_mem_map]
    exact fun e he => (ih e he).trans (Patch.levels_le_levelsBelow he)

/-- The marks that the terms of a node stand for are those of the patch. -/
theorem marks_ofPatch {angled : Bool} {p : Patch}
    (hangled : angled → p.clearsBase ∧ p.clearsDims) :
    baseMark angled (headTerms angled p ++ childTerms short p.children) = p.clearsBase ∧
      dimsMark angled (headTerms angled p ++ childTerms short p.children) = p.clearsDims := by
  rw [baseMark, dimsMark, markers_append, markers_headTerms, markers_childTerms, List.append_nil]
  cases angled with
  | true => simp [hangled rfl]
  | false => cases p.clearsBase <;> cases p.clearsDims <;> decide

/-- **The derivation spells the patch**, as it is read back. -/
theorem patch_ofPatch {p : Patch} : p.Ordered → (Node.ofPatch short p).patch = p.respelled := by
  induction p using Patch.children_induction with
  | step p ih =>
    intro hordered
    obtain ⟨angled, heq, hangled⟩ := Node.ofPatch_eq_node short p
    have hentries : entries (headTerms angled p ++ childTerms short p.children) =
        p.children.map fun e => (e.1.respelled, e.2.respelled) := by
      rw [entries_append, entries_headTerms, entries_childTerms, List.nil_append]
      exact List.map_congr_left fun e he => by rw [ih e he (hordered.inner e he)]
    have hsorted : Keyed.Sorted (p.children.map fun e => (e.1.respelled, e.2.respelled)) := by
      refine List.pairwise_map.2 (hordered.sorted.imp fun hlt => ?_)
      rw [Dimension.compare_respelled, hlt]
    have hmarks : angled → p.clearsBase ∧ p.clearsDims :=
      fun h => ⟨(hangled h).1, (hangled h).2.1⟩
    rw [heq, Node.patch, (marks_ofPatch hmarks).1, (marks_ofPatch hmarks).2, hentries, placed,
      Keyed.foldl_insert_eq hsorted Keyed.sorted_nil (by simp), bases_append, bases_headTerms,
      bases_childTerms, Patch.respelled_eq]
    cases p.base <;> rfl

/-! ## reading it back -/

/-- **Either text of a patch is read back.** -/
theorem readPatch_spelling {angledOnly : Bool} {limits : Limits} {p : Patch}
    (hordered : p.Ordered) (hp : p.HasLiterals) (hlevels : p.levels ≤ max 1 limits.maxDepth)
    (hangled : angledOnly → (Node.ofPatch short p).angled) :
    readPatch angledOnly limits (p.spelling short) = .ok (p.respelled.normalize false) := by
  have hlexes : Lexes (p.spelling short) (Node.ofPatch short p).tokens [] := lexes_spelling hp []
  obtain ⟨lexemes, hlexemes, htokens⟩ := hlexes.exists_ofText
  refine readPatch_eq_ok_iff.2 ⟨lexemes, Node.ofPatch short p, hlexemes, ?_, ?_⟩
  · exact {
      tokens := htokens.symm
      wellFormed := wellFormed_ofPatch hp hordered
      angled := hangled
      depth := (depth_ofPatch p).trans hlevels }
  · rw [patch_ofPatch hordered]

end Intension.Grammar
