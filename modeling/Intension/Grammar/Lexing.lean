import Intension.Grammar.Fault

/-!
# Intension.Grammar.Lexing

Cutting a whole text into tokens.  Each cut leaves a shorter text
(`Token.length_rest_le`), which is what the recursion of `Lexeme.ofText`
rests on.
-/

namespace Intension

/-! ## what a cut leaves -/

theorem length_dropWhile_le (p : α → Bool) (l : List α) :
    (l.dropWhile p).length ≤ l.length := (List.dropWhile_suffix p).length_le

namespace Quoted

/-- What follows a literal is shorter than the literal with it. -/
theorem length_rest_le {offset : Nat} {done t content rest : Text} {width : Nat}
    (h : unquote offset done t = .ok (content, width, rest)) : rest.length ≤ t.length := by
  fun_induction unquote offset done t with
  | case1 => simp at h
  | case2 => simp at h; obtain ⟨-, -, rfl⟩ := h; simp
  | case3 => simp at h
  | case4 offset done c rest' d hd ih => have := ih h; simp; omega
  | case5 => simp at h
  | case6 offset done c rest' _ _ _ ih => have := ih h; simp; omega

end Quoted

namespace Token

theorem length_cutFraction_le (t : Text) : (cutFraction t).2.length ≤ t.length := by
  fun_cases cutFraction t with
  | case1 c t h =>
    have := length_dropWhile_le Char.isDigit (c :: t)
    simp only [List.length_cons] at this ⊢; omega
  | case2 => simp
  | case3 => simp

theorem length_cutSign_le (t : Text) : (cutSign t).2.length ≤ t.length := by
  fun_cases cutSign t <;> simp

theorem length_cutExponent_le (t : Text) : (cutExponent t).2.length ≤ t.length := by
  fun_cases cutExponent t with
  | case1 => simp
  | case2 c t sign ds hs digits h =>
    have sgn := length_cutSign_le t
    have drop := length_dropWhile_le Char.isDigit ds
    rw [hs] at sgn
    simp only [List.length_cons] at sgn ⊢; omega
  | case3 => simp

/-- What is left behind a numeral is no longer than the text. -/
theorem length_cutNumeral_le (t : Text) : (cutNumeral t).2.length ≤ t.length := by
  have whole := length_dropWhile_le Char.isDigit t
  have fraction := length_cutFraction_le (t.dropWhile Char.isDigit)
  have exponent := length_cutExponent_le (cutFraction (t.dropWhile Char.isDigit)).2
  simp only [cutNumeral]; omega

/-- What is left behind bytes is no longer than the text. -/
theorem length_cutHex_le {make : List UInt8 → Token} {t : Text} {cut : Cut}
    (h : cutHex make t = .ok cut) : cut.rest.length ≤ t.length := by
  simp only [cutHex] at h
  split at h
  · cases h; exact length_dropWhile_le ..
  · cases h

/-- What is left behind a dash, and what it starts, is no longer than the text. -/
theorem length_cutDash_le {t : Text} {cut : Cut} (h : cutDash t = .ok cut) :
    cut.rest.length ≤ t.length := by
  simp only [cutDash] at h
  split at h
  · cases h; exact length_cutNumeral_le t
  · split at h
    · cases h; exact length_dropWhile_le ..
    · cases h

/-- A number takes at least its first digit off a text. -/
theorem length_cutNumber_le {c : Char} (t : Text) (h : c.isDigit = true) :
    (cutNumber c t).rest.length ≤ t.length := by
  have whole := length_dropWhile_le Char.isDigit t
  have fraction := length_cutFraction_le (t.dropWhile Char.isDigit)
  have exponent := length_cutExponent_le (cutFraction (t.dropWhile Char.isDigit)).2
  simp only [cutNumber, cutNumeral, List.dropWhile_cons, h, if_true]; omega

/-- What is left behind a closing quote is no longer than the text. -/
theorem length_cutLiteral_le {t : Text} {cut : Cut} (h : cutLiteral t = .ok cut) :
    cut.rest.length ≤ t.length := by
  unfold cutLiteral at h
  split at h
  · next read => cases h; exact Quoted.length_rest_le read
  · cases h
  · cases h

/-- A cut leaves no more than what follows its first character. -/
theorem length_rest_le {c : Char} {t : Text} {cut : Cut} (h : next c t = .ok cut) :
    cut.rest.length ≤ t.length := by
  unfold next at h
  split at h
  · cases h; exact Nat.le_refl _
  · split at h
    · exact length_cutDash_le h
    · split at h
      · next digit => cases h; exact length_cutNumber_le t digit
      · split at h
        · exact length_cutLiteral_le h
        · split at h
          · exact length_cutHex_le h
          · split at h
            · exact length_cutHex_le h
            · split at h
              · cases h; exact length_dropWhile_le ..
              · cases h

end Token

/-! ## the tokens of a text -/

namespace Lexeme

/-- The tokens of a text that stands `offset` bytes into the input; `done` holds those
before it, the newest first. -/
def ofTextFrom (offset : Nat) (done : List Lexeme) (t : Text) :
    Except ParseError (List Lexeme) :=
  match t with
  | [] => .ok done.reverse
  | c :: t =>
    if Token.isSpace c then ofTextFrom (offset + 1) done t
    else match h : Token.next c t with
      | .error (distance, fault) => .error ⟨offset + distance, .token fault⟩
      | .ok cut =>
        have := Token.length_rest_le h
        ofTextFrom (offset + cut.width) (⟨cut.token, offset⟩ :: done) cut.rest
termination_by t.length
decreasing_by
  · simp
  · simp only [List.length_cons]; omega

/-- The tokens of a text. -/
def ofText (t : Text) : Except ParseError (List Lexeme) := ofTextFrom 0 [] t

end Lexeme

end Intension
