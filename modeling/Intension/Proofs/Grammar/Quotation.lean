import Intension.Proofs.Grammar.Cutting
import Intension.Proofs.Text.Offsets

/-!
# Intension.Proofs.Grammar.Quotation

Quoted text in front of other text.  A literal ends at its own closing quote,
whatever it holds and whatever comes then, so what follows is cut as if it stood
alone.  For that, cutting must not depend on where a text stands in the input: the
same lexemes come out, and the same fault, only further on (`ofTextFrom_shift`).
-/

namespace Intension

/-- The error, `n` bytes further on. -/
def ParseError.shift (n : Nat) (e : ParseError) : ParseError := { e with offset := n + e.offset }

namespace Lexeme

/-- The lexeme, `n` bytes further on. -/
def shift (n : Nat) (l : Lexeme) : Lexeme := { l with offset := n + l.offset }

/-- What a text is cut into where it stands `n` bytes into the input, after the lexemes `before`. -/
def following (before : List Lexeme) (n : Nat) (lexemes : Except ParseError (List Lexeme)) :
    Except ParseError (List Lexeme) :=
  (lexemes.map fun l => before ++ l.map (shift n)).mapError (ParseError.shift n)

/-- Where a text stands, and what was cut before it, makes no difference to how it is cut. -/
theorem ofTextFrom_shift (n : Nat) (before : List Lexeme) (offset : Nat) (done : List Lexeme)
    (t : Text) : ofTextFrom (n + offset) (done.map (shift n) ++ before.reverse) t =
      following before n (ofTextFrom offset done t) := by
  fun_induction ofTextFrom offset done t with
  | case1 offset done =>
    rw [ofTextFrom, List.reverse_append, List.reverse_reverse, ← List.map_reverse]
    rfl
  | case2 offset done c t hspace ih =>
    rw [ofTextFrom, if_pos hspace, Nat.add_assoc, ih]
  | case3 offset done c t hspace distance fault hnext =>
    rw [ofTextFrom_of_error (Bool.eq_false_iff.2 hspace) hnext, Nat.add_assoc]
    rfl
  | case4 offset done c t hspace cut hnext _ ih =>
    rw [ofTextFrom_of_ok (Bool.eq_false_iff.2 hspace) hnext, Nat.add_assoc, ← ih]
    rfl

theorem ofTextFrom_eq (n : Nat) (before : List Lexeme) (t : Text) :
    ofTextFrom n before.reverse t = following before n (ofText t) :=
  ofTextFrom_shift n before 0 [] t

/-- A literal is cut off wherever it stands. -/
theorem ofTextFrom_quote_append (offset : Nat) (done : List Lexeme) (s rest : Text) :
    ofTextFrom offset done (Quoted.quote s ++ rest) =
      ofTextFrom (offset + (Quoted.quote s).byteLength) (⟨.literal s, offset⟩ :: done) rest := by
  rw [Token.quote_append, ofTextFrom_of_ok rfl (Token.next_quote s rest)]

/-- A quoted text on its own is cut into the one literal. -/
theorem ofText_quote (s : Text) : ofText (Quoted.quote s) = .ok [⟨.literal s, 0⟩] := by
  have hcut := ofTextFrom_quote_append 0 [] s []
  rw [List.append_nil] at hcut
  rw [ofText, hcut, ofTextFrom]
  rfl

/-- **Quoting cannot be escaped from.**  A quoted text is a single literal that stands for the text,
wherever in the input it begins and whatever follows it, and the cutting goes on right after its
last byte; so where a quoted text comes first, the other tokens are those of the rest, or the error
is that of the rest, as many bytes further on as the quoted text is long. -/
theorem ofText_quote_append (s rest : Text) :
    let quoted := Quoted.quote s
    (∀ offset done, ofTextFrom offset done (quoted ++ rest) =
      ofTextFrom (offset + quoted.byteLength) (⟨.literal s, offset⟩ :: done) rest) ∧
    (quoted ++ rest).from? quoted.byteLength = some rest ∧
    ofText (quoted ++ rest) = following [⟨.literal s, 0⟩] quoted.byteLength (ofText rest) := by
  refine ⟨fun offset done => ofTextFrom_quote_append offset done s rest,
    Text.from?_append _ _, ?_⟩
  rw [ofText, ofTextFrom_quote_append, Nat.zero_add]
  exact ofTextFrom_eq _ [⟨.literal s, 0⟩] rest

-- a quote, a backslash and a line end inside take two bytes each
example : Quoted.quote "a\"\\\nb".toList = "\"a\\\"\\\\\\nb\"".toList ∧
    (ofText (Quoted.quote "a\"\\\nb".toList ++ ":[".toList)).toOption =
      some [⟨.literal "a\"\\\nb".toList, 0⟩, ⟨.colon, 10⟩, ⟨.openSquare, 11⟩] := by
  decide +kernel

end Lexeme

end Intension
