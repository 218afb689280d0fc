import Intension.Proofs.Path
import Intension.Proofs.Patch.Spelling

/-!
# Intension.Proofs.Grammar.Paths

The texts of paths.  A path is cut back into the tokens of its dimensions with a
colon between each two (`lexes_text`), whatever the names in it hold: one that
cannot stand bare is a literal, and colons and quotes inside a literal are part of
it.  Reading these tokens gives the path as its text spells it.
-/

namespace Intension

namespace Dimension

/-- A dimension is read back from a lexeme of its token, wherever that stands. -/
theorem ofLexeme_of_token {l : Lexeme} {d : Dimension} (h : l.token = d.token) :
    Dimension.ofLexeme l = .ok d.respelled := by
  rw [Dimension.ofLexeme, h, ofToken_token]

end Dimension

namespace Path

/-- The tokens that the text of a path is. -/
def tokens (p : Path) : List Token := (p.map Dimension.token).intersperse .colon

/-- The path as it is read back: names that cannot stand bare are quoted ones. -/
def respelled (p : Path) : Path := p.map Dimension.respelled

/-- The text of a path: its first key, a colon, and the rest. -/
theorem text_cons_cons (d e : Dimension) (p : Path) :
    text (d :: e :: p) = d.text ++ ([':'] ++ text (e :: p)) := by
  rw [text, List.map_cons, List.map_cons, List.intercalate_cons_cons, List.append_assoc]
  rfl

/-- A path read back is equal to the path. -/
theorem respelled_beq (p : Path) : p.respelled == p := by
  induction p with
  | nil => rfl
  | cons d p ih =>
    rw [respelled, List.map_cons, List.cons_beq_cons, d.respelled_beq, Bool.true_and]
    exact ih

/-- A path read back has the text it was read from. -/
@[simp] theorem text_respelled (p : Path) : p.respelled.text = p.text := by
  rw [text, respelled, List.map_map]
  exact congrArg _ (List.map_congr_left fun d _ => d.text_respelled)

/-! ## reading the text -/

/-- The text of a path lexes to its keys with colons between them. -/
theorem lexes_text (p : Path) : Lexes p.text p.tokens [] := by
  induction p with
  | nil => exact lexes_nil []
  | cons d p ih =>
    cases p with
    | nil =>
      have htext : text [d] = d.text := List.intercalate_singleton
      rw [htext]
      exact (d.cutFrom_text Token.delimited_nil).lexes
    | cons e p =>
      rw [text_cons_cons]
      have hdim : Lexes d.text [d.token] ([':'] ++ text (e :: p) ++ []) :=
        (d.cutFrom_text (Token.delimited_cons (.inl rfl) _)).lexes
      exact hdim.append ((lexes_punctuation rfl _).append ih)

/-- Keys with colons between them are read as the path they spell. -/
theorem readPath_of_tokens {length : Nat} {p : Path} {lexemes : List Lexeme}
    (h : lexemes.map Lexeme.token = p.tokens) :
    Grammar.readPath length lexemes = .ok p.respelled := by
  induction p generalizing lexemes with
  | nil =>
    obtain rfl := List.map_eq_nil_iff.1 h
    rfl
  | cons d p ih =>
    cases p with
    | nil =>
      obtain ⟨l, rfl, hl⟩ := List.map_eq_singleton_iff.1 h
      rw [Grammar.readPath, Dimension.ofLexeme_of_token hl]
      rfl
    | cons e p =>
      obtain ⟨l, lexemes, rfl, hl, h⟩ := List.map_eq_cons_iff.1 h
      obtain ⟨colon, rest, rfl, hcolon, hrest⟩ := List.map_eq_cons_iff.1 h
      -- a dimension follows the colon
      have hmore : rest.isEmpty = false := by
        cases rest with
        | nil => cases p <;> cases hrest
        | cons l rest => rfl
      rw [Grammar.readPath, Dimension.ofLexeme_of_token hl, hcolon, hmore, ih hrest]
      rfl

/-- A path is read from its text as its respelling. -/
theorem parse_text_eq (p : Path) : Path.parse p.text = .ok p.respelled := by
  obtain ⟨lexemes, hlexemes, htokens⟩ := p.lexes_text.exists_ofText
  rw [Path.parse, hlexemes]
  exact readPath_of_tokens htokens

/-- A path of one dimension can be read as a dimension. -/
theorem parse_dimension_eq (d : Dimension) : Dimension.parse (text [d]) = .ok d.respelled := by
  obtain ⟨lexemes, hlexemes, htokens⟩ := (lexes_text [d]).exists_ofText
  obtain ⟨l, rfl, hl⟩ := List.map_eq_singleton_iff.1 htokens
  rw [Dimension.parse, hlexemes]
  exact Dimension.ofLexeme_of_token hl

/-- Paths that are written alike are equal. -/
theorem beq_of_text_eq {p q : Path} (h : p.text = q.text) : p == q := by
  have hread := parse_text_eq p
  rw [h, parse_text_eq q] at hread
  exact BEq.trans (BEq.symm p.respelled_beq) (Except.ok.inj hread ▸ q.respelled_beq)

/-- **The text of a path is read back**, as a path equal to it and of the same text, so that unequal
paths have different texts; and the text of a single dimension is read alike as a dimension. -/
theorem text_round_trip (p : Path) :
    (∃ p', Path.parse p.text = .ok p' ∧ p' == p ∧ p'.text = p.text) ∧
    (∀ q : Path, (q == p) = false → q.text ≠ p.text) ∧
    ∀ d, p = [d] → ∃ d', Dimension.parse p.text = .ok d' ∧ Path.parse p.text = .ok [d'] := by
  refine ⟨⟨p.respelled, p.parse_text_eq, p.respelled_beq, p.text_respelled⟩, fun q hne htext => ?_,
    ?_⟩
  · rw [beq_of_text_eq htext] at hne
    cases hne
  · rintro d rfl
    exact ⟨d.respelled, parse_dimension_eq d, parse_text_eq [d]⟩

/-- A name made of what ends and begins tokens, the least integer, names that are no identifiers,
and one that is quoted though it is one; and the path of which all this might be a single name. -/
theorem text_round_trip_past_quoting :
    let p : Path := [.name "a:\"b\\".toList false, .integer (-2147483648), .name "9é".toList false,
      .name [] false, .name ['c'] true]
    let q : Path := [.name p.text false]
    p.text = "\"a:\\\"b\\\\\":-2147483648:\"9é\":\"\":\"c\"".toList ∧
      (∃ p', Path.parse p.text = .ok p' ∧ p' == p ∧ p'.text = p.text) ∧
      (q == p) = false ∧ q.text ≠ p.text ∧
      ∃ d', Dimension.parse q.text = .ok d' ∧ Path.parse q.text = .ok [d'] := by
  intro p q
  have hne : (q == p) = false := by decide
  obtain ⟨hread, hdistinct, -⟩ := text_round_trip p
  obtain ⟨-, -, hsingle⟩ := text_round_trip q
  exact ⟨by decide, hread, hne, hdistinct q hne, hsingle _ rfl⟩

end Path

end Intension
