import Intension.Grammar.Reading
import Intension.Proofs.Binary.Parts
import Intension.Proofs.Number.RoundTrip
import Intension.Proofs.Text.Quoted

/-!
# Intension.Proofs.Grammar.Cutting

The texts of numbers, scalars and dimensions are cut back into their tokens
(`Token.CutFrom`), and the tokens denote what was written.  Numerals, markers,
hexadecimal and bare names are cut as long as they can be, so they need a
delimiter or the end of the text after them (`Delimited`); in canonical texts one
of four characters always stands there.  `Lexes` puts tokens together.
-/

namespace Intension

/-- A text that goes on, if it does, with a character that ends the token before it. -/
def Delimited (rest : Text) : Prop := ∀ c ∈ rest.head?, c = ':' ∨ c = '+' ∨ c = '>' ∨ c = ']'

namespace Token

variable {rest : Text}

theorem delimited_nil : Delimited [] := fun _ h => nomatch h

theorem delimited_cons {c : Char} (h : c = ':' ∨ c = '+' ∨ c = '>' ∨ c = ']') (t : Text) :
    Delimited (c :: t) := by
  rintro _ ⟨⟩
  exact h

/-- What no delimiter is does not go on in a text that a delimiter ends. -/
theorem span_of_delimited {p : Char → Bool} {t : Text} (h : t.all p)
    (hp : p ':' = false ∧ p '+' = false ∧ p '>' = false ∧ p ']' = false)
    (hrest : Delimited rest) : (t ++ rest).takeWhile p = t ∧ (t ++ rest).dropWhile p = rest := by
  refine Text.span_append h rest ?_
  cases rest with
  | nil => rfl
  | cons c rest =>
    obtain ⟨hcolon, hplus, hangle, hsquare⟩ := hp
    obtain rfl | rfl | rfl | rfl := hrest c rfl <;> simp [*]

/-! ## kinds of characters -/

/-- A character of a kind is not one that is not of that kind. -/
theorem beq_eq_false_of_kind {p : Char → Bool} {c d : Char} (hc : p c) (hd : p d = false) :
    (c == d) = false := by
  refine beq_false_of_ne ?_
  rintro rfl
  exact absurd hc (by simp [hd])

/-- A character of a class that leaves out white space is no white space. -/
theorem isSpace_eq_false {p : Char → Bool} (hp : p ' ' = false ∧ p '\t' = false ∧ p '\n' = false ∧
    p '\r' = false) (c : Char) (hc : p c) : isSpace c = false := by
  simp [isSpace, beq_eq_false_of_kind hc hp.1, beq_eq_false_of_kind hc hp.2.1,
    beq_eq_false_of_kind hc hp.2.2.1, beq_eq_false_of_kind hc hp.2.2.2]

/-! ## numerals -/

/-- No fraction is cut from a text that starts with a delimiter. -/
theorem cutFraction_of_delimited (hrest : Delimited rest) : cutFraction rest = ([], rest) := by
  unfold cutFraction
  split
  · next c t =>
    have := hrest '.' rfl
    simp at this
  · rfl

/-- No exponent is cut from a text that starts with a delimiter. -/
theorem cutExponent_of_delimited (hrest : Delimited rest) : cutExponent rest = ([], rest) := by
  cases rest with
  | nil => rfl
  | cons c t =>
    have hc : (c == 'e' || c == 'E') = false := by
      obtain rfl | rfl | rfl | rfl := hrest c rfl <;> rfl
    simp [cutExponent, hc]

/-- A numeral is cut as a whole. -/
theorem cutNumeral_pointed {whole fraction : Text} (hwhole : whole.all Char.isDigit)
    (hfraction : fraction.all Char.isDigit) (hrest : Delimited rest) :
    cutNumeral (Number.pointed whole fraction ++ rest) = (Number.pointed whole fraction, rest) := by
  have hdigit : Char.isDigit ':' = false ∧ Char.isDigit '+' = false ∧ Char.isDigit '>' = false ∧
      Char.isDigit ']' = false := by decide
  cases fraction with
  | nil =>
    obtain ⟨htake, hdrop⟩ := span_of_delimited hwhole hdigit hrest
    simp [cutNumeral, Number.pointed, htake, hdrop, cutFraction_of_delimited hrest,
      cutExponent_of_delimited hrest]
  | cons c f =>
    have hc : c.isDigit := List.all_eq_true.1 hfraction c (List.mem_cons_self ..)
    obtain ⟨htake, hdrop⟩ := Text.span_append hwhole ('.' :: (c :: f ++ rest)) rfl
    obtain ⟨htake', hdrop'⟩ := span_of_delimited hfraction hdigit hrest
    have hcut : cutFraction ('.' :: (c :: f ++ rest)) = ('.' :: c :: f, rest) := by
      rw [List.cons_append, cutFraction, if_pos hc, ← List.cons_append, htake', hdrop']
    have hpointed : Number.pointed whole (c :: f) ++ rest = whole ++ '.' :: (c :: f ++ rest) := by
      simp [Number.pointed]
    rw [hpointed, cutNumeral, htake, hdrop, hcut]
    simp [cutExponent_of_delimited hrest, Number.pointed]

/-! ## dashes -/

/-- A dash before a digit starts a negative numeral. -/
theorem cutDash_of_isDigit {c : Char} (hc : c.isDigit) (t : Text) :
    cutDash (c :: t) = .ok ⟨numeral ('-' :: (cutNumeral (c :: t)).1),
      1 + (cutNumeral (c :: t)).1.length, (cutNumeral (c :: t)).2⟩ := by
  simp [cutDash, beq_eq_false_of_kind (d := '-') hc rfl, hc]

/-- A dash before anything else starts a run of dashes, which may be three long at most. -/
theorem cutDash_of_not_isDigit {t : Text} (h : ∀ c ∈ t.head?, c.isDigit = false) :
    cutDash t = if (t.takeWhile (· == '-')).length ≤ 2 then
      .ok ⟨dashes (1 + (t.takeWhile (· == '-')).length),
        1 + (t.takeWhile (· == '-')).length, t.dropWhile (· == '-')⟩
      else .error (0, .tooManyDashes) := by
  have hhead : (t.head?.map Char.isDigit).getD false = false := by
    cases t with
    | nil => rfl
    | cons c t => exact h c rfl
  simp only [cutDash, hhead, Bool.and_false, Bool.false_eq_true, if_false]

/-! ## single tokens -/

/-- A token is cut from the front of a text and leaves the rest of it. -/
def CutFrom (token : Token) (t rest : Text) : Prop :=
  ∃ c more width, t = c :: more ∧ isSpace c = false ∧ next c more = .ok ⟨token, width, rest⟩

/-- A punctuation character is cut off as its token, whatever follows. -/
theorem cutFrom_punctuation {c : Char} {token : Token} (h : punctuation? c = some token)
    (rest : Text) : CutFrom token (c :: rest) rest := by
  have hspace : isSpace c = false := by
    unfold punctuation? at h
    split at h <;> first | rfl | cases h
  exact ⟨c, rest, 1, rfl, hspace, by rw [next, h]⟩

/-- A digit starts a numeral. -/
theorem next_digit {c : Char} (hc : c.isDigit) (t : Text) :
    isSpace c = false ∧ next c t = .ok (cutNumber c t) := by
  have hpunctuation : punctuation? c = none := by
    unfold punctuation?
    split <;> first | rfl | cases hc
  refine ⟨isSpace_eq_false (p := Char.isDigit) (by decide) c hc, ?_⟩
  simp [next, hpunctuation, beq_eq_false_of_kind (d := '-') hc rfl, hc]

/-- A numeral, signed or not, is cut as a whole. -/
theorem cutFrom_numeral {whole fraction : Text} (negative : Bool) (hnonempty : whole ≠ [])
    (hwhole : whole.all Char.isDigit) (hfraction : fraction.all Char.isDigit)
    (hrest : Delimited rest) {spelling : Text}
    (hspelling : spelling = if negative then '-' :: Number.pointed whole fraction
      else Number.pointed whole fraction) :
    CutFrom (numeral spelling) (spelling ++ rest) rest := by
  subst hspelling
  have hcut := cutNumeral_pointed hwhole hfraction hrest
  obtain ⟨c, w, rfl⟩ := List.exists_cons_of_ne_nil hnonempty
  have hc : c.isDigit := List.all_eq_true.1 hwhole c (List.mem_cons_self ..)
  obtain ⟨t, ht⟩ : ∃ t, Number.pointed (c :: w) fraction = c :: t := by
    unfold Number.pointed
    split
    · exact ⟨w, rfl⟩
    · exact ⟨w ++ '.' :: fraction, rfl⟩
  obtain ⟨hspace, hnext⟩ := next_digit hc (t ++ rest)
  cases negative with
  | true =>
    have hone : next '-' (Number.pointed (c :: w) fraction ++ rest) =
        .ok ⟨numeral ('-' :: Number.pointed (c :: w) fraction),
          1 + (Number.pointed (c :: w) fraction).length, rest⟩ := by
      change cutDash _ = _
      rw [ht, List.cons_append] at hcut ⊢
      rw [cutDash_of_isDigit hc, hcut]
    exact ⟨'-', _, _, rfl, rfl, hone⟩
  | false =>
    have hone : next c (t ++ rest) = .ok ⟨numeral (Number.pointed (c :: w) fraction),
        (Number.pointed (c :: w) fraction).length, rest⟩ := by
      rw [hnext, cutNumber, ← List.cons_append, ← ht, hcut]
    exact ⟨c, _, _, by rw [if_neg Bool.false_ne_true, ht, List.cons_append], hspace, hone⟩

/-- A clear marker is cut as a whole. -/
theorem cutFrom_dashes {more : Nat} (hmore : more < 3) (hrest : Delimited rest) :
    CutFrom (dashes (1 + more)) ('-' :: List.replicate more '-' ++ rest) rest := by
  have hdashes : (List.replicate more '-').all (· == '-') := by simp
  obtain ⟨htake, hdrop⟩ := span_of_delimited hdashes (by decide) hrest
  have hdigit : ∀ c ∈ (List.replicate more '-' ++ rest).head?, c.isDigit = false := by
    cases more with
    | succ more =>
      rintro _ ⟨⟩
      rfl
    | zero =>
      intro c hc
      obtain rfl | rfl | rfl | rfl := hrest c hc <;> rfl
  have hnext : next '-' (List.replicate more '-' ++ rest) =
      .ok ⟨dashes (1 + more), 1 + more, rest⟩ := by
    change cutDash (List.replicate more '-' ++ rest) = _
    rw [cutDash_of_not_isDigit hdigit, htake, hdrop, List.length_replicate, if_pos (by omega)]
  exact ⟨'-', _, _, rfl, rfl, hnext⟩

/-- A quoted text is cut back to the text that was quoted, up to its closing quote. -/
theorem next_quote (t rest : Text) : next '"' (t.flatMap Quoted.escape ++ '"' :: rest) =
    .ok ⟨literal t, Text.byteLength (Quoted.quote t), rest⟩ := by
  change cutLiteral (t.flatMap Quoted.escape ++ '"' :: rest) = _
  rw [cutLiteral, Quoted.unquote_quote]

theorem quote_append (t rest : Text) :
    Quoted.quote t ++ rest = '"' :: (t.flatMap Quoted.escape ++ '"' :: rest) := by
  simp [Quoted.quote]

/-- A literal is cut as a whole, whatever follows it. -/
theorem cutFrom_literal (t rest : Text) :
    CutFrom (literal t) (Quoted.quote t ++ rest) rest :=
  ⟨'"', _, _, quote_append t rest, rfl, next_quote t rest⟩

/-- The hexadecimal spelling of some bytes is cut back to these bytes, up to the delimiter. -/
theorem cutHex_encode (make : List UInt8 → Token) (bs : List UInt8) (hrest : Delimited rest) :
    cutHex make (Hex.encode bs ++ rest) =
      .ok ⟨make bs, 1 + (Hex.encode bs).length, rest⟩ := by
  obtain ⟨htake, hdrop⟩ := span_of_delimited (Hex.all_isDigit_encode bs) (by decide) hrest
  rw [cutHex, htake, hdrop, Hex.decode_encode]

/-- The literal of a byte string is cut off whole. -/
theorem cutFrom_binary (bs : List UInt8) (hrest : Delimited rest) :
    CutFrom (binary bs) ('#' :: Hex.encode bs ++ rest) rest :=
  ⟨'#', _, _, rfl, rfl, cutHex_encode binary bs hrest⟩

/-- The literal of a bound object is cut off whole. -/
theorem cutFrom_bound (bs : List UInt8) (hrest : Delimited rest) :
    CutFrom (bound bs) ('@' :: Hex.encode bs ++ rest) rest :=
  ⟨'@', _, _, rfl, rfl, cutHex_encode bound bs hrest⟩

theorem not_isDigit_of_isStart {c : Char} (h : Identifier.isStart c) : c.isDigit = false := by
  have hletter : c = '_' ∨ ('A'.val ≤ c.val ∧ c.val ≤ 'Z'.val) ∨
      ('a'.val ≤ c.val ∧ c.val ≤ 'z'.val) := by
    obtain hunderscore | halpha := Bool.or_eq_true_iff.1 h
    · exact .inl (eq_of_beq hunderscore)
    · obtain hupper | hlower := Bool.or_eq_true_iff.1 halpha
      · exact .inr (.inl (of_decide_eq_true hupper))
      · obtain ⟨ha, hz⟩ := Bool.and_eq_true_iff.1 hlower
        exact .inr (.inr ⟨of_decide_eq_true ha, of_decide_eq_true hz⟩)
  obtain rfl | hupper | hlower := hletter
  · rfl
  · grind [Char.isDigit]
  · grind [Char.isDigit]

/-- A character that starts an identifier starts an identifier token. -/
theorem next_start {c : Char} (hc : Identifier.isStart c) (t : Text) :
    isSpace c = false ∧ next c t = .ok (cutIdentifier c t) := by
  have hne {d : Char} (hd : Identifier.isStart d = false) : (c == d) = false :=
    beq_eq_false_of_kind hc hd
  have hpunctuation : punctuation? c = none := by
    unfold punctuation?
    split <;> first | rfl | cases hc
  refine ⟨isSpace_eq_false (by decide) c hc, ?_⟩
  simp [next, hpunctuation, hne (d := '-') rfl, not_isDigit_of_isStart hc, hne (d := '"') rfl,
    hne (d := '#') rfl, hne (d := '@') rfl, hc]

/-- A name that may stand bare is cut as a whole. -/
theorem cutFrom_identifier {t : Text} (h : Identifier.isBare t) (hrest : Delimited rest) :
    CutFrom (identifier t) (t ++ rest) rest := by
  cases t with
  | nil => cases h
  | cons c t =>
    obtain ⟨hstart, hparts⟩ := Bool.and_eq_true_iff.1 h
    obtain ⟨hspace, hnext⟩ := next_start hstart (t ++ rest)
    obtain ⟨htake, hdrop⟩ := span_of_delimited hparts (by decide) hrest
    refine ⟨c, t ++ rest, (c :: t).length, rfl, hspace, ?_⟩
    rw [hnext, cutIdentifier, htake, hdrop]

/-! ## numbers, scalars and dimensions -/

/-- The text of a finite number is cut off whole, as one numeral. -/
theorem cutFrom_number {x : Number} (hx : x.isFinite) (hrest : Delimited rest) :
    CutFrom (numeral x.text) (x.text ++ rest) rest := by
  obtain ⟨whole, fraction, htext, hspells⟩ := Number.exists_unsignedText hx
  exact cutFrom_numeral x.isNegative hspells.nonempty hspells.whole_digits hspells.fraction_digits
    hrest (by rw [Number.text_of_isFinite hx, htext])

/-- The text of an integer is cut off whole, as one numeral. -/
theorem cutFrom_ofInt (i : Int) (hrest : Delimited rest) :
    CutFrom (numeral (Text.ofInt i)) (Text.ofInt i ++ rest) rest := by
  have hspelling : Text.ofInt i = if decide (i < 0) then
      '-' :: Number.pointed (Text.ofNat i.natAbs) [] else
      Number.pointed (Text.ofNat i.natAbs) [] := by
    simp [Text.ofInt, Number.pointed]
  exact cutFrom_numeral _ Nat.toDigits_ne_nil (Number.all_isDigit_ofNat i.natAbs) List.all_nil
    hrest hspelling

end Token

namespace Scalar

/-- The token that the text of a scalar is. -/
def token : Scalar → Token
  | alpha => .alpha
  | omega => .omega
  | number x => .numeral x.text
  | string t => .literal t
  | binary bs => .binary bs
  | bound b => .bound b.packed

/-- Whether the text of a scalar is its literal: infinities and NaN have none. -/
def HasLiteral : Scalar → Prop
  | number x => x.isFinite
  | _ => True

instance : DecidablePred HasLiteral
  | number x => inferInstanceAs (Decidable x.isFinite)
  | alpha | omega | string _ | binary _ | bound _ => isTrue trivial

/-- The text of a value that has a literal is cut off whole, before a delimiter. -/
theorem cutFrom_text {v : Scalar} (hv : v.HasLiteral) {rest : Text} (hrest : Delimited rest) :
    Token.CutFrom v.token (v.text ++ rest) rest := by
  cases v with
  | alpha => exact Token.cutFrom_punctuation rfl rest
  | omega => exact Token.cutFrom_punctuation rfl rest
  | number x => exact Token.cutFrom_number hv hrest
  | string t => exact Token.cutFrom_literal t rest
  | binary bs => exact Token.cutFrom_binary bs hrest
  | bound b => exact Token.cutFrom_bound b.packed hrest

/-- **A scalar is read back from its token**, a bound one without its object. -/
theorem ofToken?_token {v : Scalar} (hv : v.HasLiteral) :
    Scalar.ofToken? v.token = some (v.repacked none) := by
  cases v with
  | number x => rw [token, Scalar.ofToken?, Number.ofNumeral_text hv]; rfl
  | _ => rfl

end Scalar

namespace Dimension

/-- The token that the text of a dimension is. -/
def token : Dimension → Token
  | integer i => .numeral (Text.ofInt i.toInt)
  | name t quoted => if quoted || !Identifier.isBare t then .literal t else .identifier t

/-- The dimension as it is read back: a name that cannot stand bare is a quoted one. -/
def respelled : Dimension → Dimension
  | integer i => integer i
  | name t quoted => name t (quoted || !Identifier.isBare t)

/-- The text of a key is cut off whole, before a delimiter. -/
theorem cutFrom_text (d : Dimension) {rest : Text} (hrest : Delimited rest) :
    Token.CutFrom d.token (d.text ++ rest) rest := by
  cases d with
  | integer i => exact Token.cutFrom_ofInt i.toInt hrest
  | name t quoted =>
    rw [token, text]
    split
    · exact Token.cutFrom_literal t rest
    · next hbare =>
      exact Token.cutFrom_identifier (by simp at hbare; exact hbare.2) hrest

/-- **A dimension is read back from its token.** -/
theorem ofToken_token (d : Dimension) : Dimension.ofToken d.token = .ok d.respelled := by
  cases d with
  | integer i => rw [token, Dimension.ofToken, Number.int32?_ofInt]; rfl
  | name t quoted =>
    rw [token, respelled]
    cases quoted || !Identifier.isBare t <;> rfl

end Dimension

/-! ## many tokens -/

namespace Lexeme

variable {c : Char} {t : Text}

/-- One step of the lexer: a token that can be cut off is kept with the place where it starts. -/
theorem ofTextFrom_of_ok {cut : Token.Cut} (hspace : Token.isSpace c = false)
    (hnext : Token.next c t = .ok cut) (offset : Nat) (done : List Lexeme) :
    ofTextFrom offset done (c :: t) =
      ofTextFrom (offset + cut.width) (⟨cut.token, offset⟩ :: done) cut.rest := by
  rw [ofTextFrom, hspace, if_neg Bool.false_ne_true]
  split
  · next hfault =>
    rw [hnext] at hfault
    cases hfault
  · next hcut =>
    rw [hnext] at hcut
    cases hcut
    rfl

/-- One step of the lexer: a fault ends the run at its distance from the token's start. -/
theorem ofTextFrom_of_error {distance : Nat} {fault : Token.Fault}
    (hspace : Token.isSpace c = false) (hnext : Token.next c t = .error (distance, fault))
    (offset : Nat) (done : List Lexeme) :
    ofTextFrom offset done (c :: t) = .error ⟨offset + distance, .token fault⟩ := by
  rw [ofTextFrom, hspace, if_neg Bool.false_ne_true]
  split
  · next hfault =>
    rw [hnext] at hfault
    cases hfault
    rfl
  · next hcut =>
    rw [hnext] at hcut
    cases hcut

end Lexeme

/-- A text is cut into some tokens where `rest` follows it. -/
def Lexes (t : Text) (tokens : List Token) (rest : Text) : Prop :=
  ∀ (offset : Nat) (done : List Lexeme), ∃ (offset' : Nat) (lexemes : List Lexeme),
    lexemes.map Lexeme.token = tokens ∧
      Lexeme.ofTextFrom offset done (t ++ rest) =
        Lexeme.ofTextFrom offset' (lexemes.reverse ++ done) rest

theorem lexes_nil (rest : Text) : Lexes [] [] rest :=
  fun offset _ => ⟨offset, [], rfl, rfl⟩

/-- Texts that are cut one after the other are cut into the tokens of both. -/
theorem Lexes.append {s t rest : Text} {a b : List Token} (hs : Lexes s a (t ++ rest))
    (ht : Lexes t b rest) : Lexes (s ++ t) (a ++ b) rest := by
  intro offset done
  obtain ⟨offset', lexemes, hlexemes, heq⟩ := hs offset done
  obtain ⟨offset'', lexemes', hlexemes', heq'⟩ := ht offset' (lexemes.reverse ++ done)
  refine ⟨offset'', lexemes ++ lexemes', by rw [List.map_append, hlexemes, hlexemes'], ?_⟩
  rw [List.append_assoc, heq, heq', List.reverse_append, List.append_assoc]

/-- A text that is cut off as one token lexes to this token. -/
theorem Token.CutFrom.lexes {token : Token} {t rest : Text}
    (h : Token.CutFrom token (t ++ rest) rest) : Lexes t [token] rest := by
  intro offset done
  obtain ⟨c, more, width, heq, hspace, hnext⟩ := h
  refine ⟨offset + width, [⟨token, offset⟩], rfl, ?_⟩
  rw [heq, Lexeme.ofTextFrom_of_ok hspace hnext]
  rfl

/-- A punctuation character lexes to its token. -/
theorem lexes_punctuation {c : Char} {token : Token} (h : Token.punctuation? c = some token)
    (rest : Text) : Lexes [c] [token] rest := (Token.cutFrom_punctuation h rest).lexes

/-- A text that is cut into tokens to its end. -/
theorem Lexes.exists_ofText {t : Text} {tokens : List Token} (h : Lexes t tokens []) :
    ∃ lexemes, Lexeme.ofText t = .ok lexemes ∧ lexemes.map Lexeme.token = tokens := by
  obtain ⟨offset, lexemes, hlexemes, heq⟩ := h 0 []
  refine ⟨lexemes, ?_, hlexemes⟩
  rw [List.append_nil, List.append_nil, Lexeme.ofTextFrom, List.reverse_reverse] at heq
  exact heq

end Intension
