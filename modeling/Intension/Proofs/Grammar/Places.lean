import Intension.Grammar.Reading
import Intension.Proofs.Text.Offsets

/-!
# Intension.Proofs.Grammar.Places

Where errors are.  A token that is cut from a text spells a front of it, and its
width is that of the spelling; so all tokens start between two characters, and a
fault inside a token is found at the start of it or, if an escape is unknown, at
the character that was escaped.  The readers put their errors at a token or at
the end of the text.
-/

namespace Intension

open Text (Ascii OnBoundary from?_cons from?_add from?_zero)

/-! ## literals -/

namespace Quoted

/-- A literal ends as many bytes on as it is wide. -/
theorem from?_of_unquote {offset width : Nat} {done t content rest : Text}
    (h : unquote offset done t = .ok (content, width, rest)) :
    ∃ m, width = offset + m ∧ 0 < m ∧ t.from? m = some rest := by
  fun_induction unquote offset done t with
  | case1 => cases h
  | case2 offset done rest' =>
    cases h
    exact ⟨1, rfl, Nat.one_pos, from?_add (s := ['"']) (from?_zero _)⟩
  | case3 => cases h
  | case4 offset done c rest' d _ ih =>
    obtain ⟨m, rfl, -, hm⟩ := ih h
    refine ⟨'\\'.utf8Size + (c.utf8Size + m), ?_, Nat.add_pos_left '\\'.utf8Size_pos _, ?_⟩
    · rw [Nat.add_assoc, Nat.add_assoc]
      rfl
    · rw [from?_cons, from?_cons, hm]
  | case5 => cases h
  | case6 offset done c rest' _ _ _ ih =>
    obtain ⟨m, rfl, -, hm⟩ := ih h
    refine ⟨c.utf8Size + m, Nat.add_assoc .., Nat.add_pos_left c.utf8Size_pos _, ?_⟩
    rw [from?_cons, hm]

/-- An unknown escape is found at a character. -/
theorem onBoundary_of_unquote {offset distance : Nat} {done t : Text} {c : Char}
    (h : unquote offset done t = .error (.unknownEscape c distance)) :
    ∃ m, distance = offset + m ∧ t.OnBoundary m := by
  fun_induction unquote offset done t with
  | case1 => cases h
  | case2 => cases h
  | case3 => cases h
  | case4 offset done c rest' d _ ih =>
    obtain ⟨m, rfl, hm⟩ := ih h
    refine ⟨'\\'.utf8Size + (c.utf8Size + m), ?_, ?_⟩
    · rw [Nat.add_assoc, Nat.add_assoc]
      rfl
    · rwa [OnBoundary, from?_cons, from?_cons]
  | case5 offset done c rest' =>
    cases h
    exact ⟨1, rfl, .of_from? (from?_add (s := ['\\']) (from?_zero _))⟩
  | case6 offset done c rest' _ _ _ ih =>
    obtain ⟨m, rfl, hm⟩ := ih h
    refine ⟨c.utf8Size + m, Nat.add_assoc .., ?_⟩
    rwa [OnBoundary, from?_cons]

end Quoted

/-! ## numerals -/

namespace Token

/-- The characters that numerals are made of. -/
def isNumeric (c : Char) : Bool :=
  c.isDigit || c == '.' || c == '+' || c == '-' || c == 'e' || c == 'E'

/-- Some characters of a numeral, in front of what is left of a text. -/
def Numeric (cut : Text × Text) (t : Text) : Prop :=
  cut.1 ++ cut.2 = t ∧ ∀ c ∈ cut.1, isNumeric c

/-- A run of digits is a part of a numeral. -/
theorem numeric_digits (t : Text) :
    Numeric (t.takeWhile Char.isDigit, t.dropWhile Char.isDigit) t := by
  refine ⟨List.takeWhile_append_dropWhile, fun c hc => ?_⟩
  have hdigit : c.isDigit := List.all_eq_true.1 List.all_takeWhile c hc
  rw [isNumeric, hdigit]
  rfl

/-- A character of a numeral may be put in front. -/
theorem Numeric.cons {cut : Text × Text} {t : Text} (h : Numeric cut t) {c : Char}
    (hc : isNumeric c) : Numeric (c :: cut.1, cut.2) (c :: t) :=
  ⟨congrArg (c :: ·) h.1, List.forall_mem_cons.2 ⟨hc, h.2⟩⟩

/-- Two parts of a numeral cut one after the other are one part. -/
theorem Numeric.append {cut cut' : Text × Text} {t : Text} (h : Numeric cut t)
    (h' : Numeric cut' cut.2) : Numeric (cut.1 ++ cut'.1, cut'.2) t := by
  refine ⟨?_, List.forall_mem_append.2 ⟨h.2, h'.2⟩⟩
  rw [List.append_assoc, h'.1, h.1]

theorem numeric_nil (t : Text) : Numeric ([], t) t := ⟨rfl, List.forall_mem_nil _⟩

/-- What is cut off as a fraction is a part of a numeral. -/
theorem numeric_cutFraction (t : Text) : Numeric (cutFraction t) t := by
  fun_cases cutFraction t with
  | case1 c t _ => exact (numeric_digits (c :: t)).cons rfl
  | case2 => exact numeric_nil _
  | case3 => exact numeric_nil _

/-- What is cut off as a sign is a part of a numeral. -/
theorem numeric_cutSign (t : Text) : Numeric (cutSign t) t := by
  fun_cases cutSign t with
  | case1 t => exact (numeric_nil t).cons rfl
  | case2 t => exact (numeric_nil t).cons rfl
  | case3 => exact numeric_nil _

/-- What is cut off as an exponent is a part of a numeral. -/
theorem numeric_cutExponent (t : Text) : Numeric (cutExponent t) t := by
  fun_cases cutExponent t with
  | case1 => exact numeric_nil _
  | case2 c t sign ds hs digits h =>
    obtain ⟨hc, -⟩ := Bool.and_eq_true_iff.1 h
    have hsign := numeric_cutSign t
    rw [hs] at hsign
    refine (hsign.append (numeric_digits ds)).cons ?_
    rw [isNumeric, Bool.or_assoc, hc, Bool.or_true]
  | case3 => exact numeric_nil _

/-- A numeral spells a front of the text that it is cut from. -/
theorem numeric_cutNumeral (t : Text) : Numeric (cutNumeral t) t :=
  ((numeric_digits t).append (numeric_cutFraction _)).append (numeric_cutExponent _)

/-! ## ASCII characters -/

theorem ascii_of_le {c d : Char} (h : c ≤ d) (hd : d.toNat < 128) : c.toNat < 128 :=
  Nat.lt_of_le_of_lt h hd

theorem ascii_eq {d : Char} (hd : d.toNat < 128) : Ascii (· == d) := by
  intro c hc
  rwa [eq_of_beq hc]

theorem ascii_or {p q : Char → Bool} (hp : Ascii p) (hq : Ascii q) :
    Ascii fun c => p c || q c := by
  intro c hc
  obtain h | h := Bool.or_eq_true_iff.1 hc
  · exact hp c h
  · exact hq c h

theorem ascii_isAlphanum : Ascii Char.isAlphanum := by
  intro c hc
  obtain halpha | hdigit := Bool.or_eq_true_iff.1 hc
  · obtain hupper | hlower := Bool.or_eq_true_iff.1 halpha
    · have hupper : 'A'.val ≤ c.val ∧ c.val ≤ 'Z'.val := of_decide_eq_true hupper
      exact ascii_of_le hupper.2 (by decide)
    · have hle : c.val ≤ 'z'.val := of_decide_eq_true (Bool.and_eq_true_iff.1 hlower).2
      exact ascii_of_le hle (by decide)
  · have hle : c.val ≤ '9'.val := of_decide_eq_true (Bool.and_eq_true_iff.1 hdigit).2
    exact ascii_of_le hle (by decide)

theorem ascii_isDigit : Ascii Char.isDigit :=
  fun c hc => ascii_isAlphanum c (Bool.or_eq_true_iff.2 (.inr hc))

/-- Identifiers are made of characters of one byte. -/
theorem ascii_isPart : Ascii Identifier.isPart := ascii_or (ascii_eq (by decide)) ascii_isAlphanum

/-- Numerals are made of characters of one byte. -/
theorem ascii_isNumeric : Ascii isNumeric :=
  ascii_or (ascii_or (ascii_or (ascii_or (ascii_or ascii_isDigit (ascii_eq (by decide)))
    (ascii_eq (by decide))) (ascii_eq (by decide))) (ascii_eq (by decide))) (ascii_eq (by decide))

/-- A character that may start an identifier may stand in it. -/
theorem isPart_of_isStart {c : Char} (hc : Identifier.isStart c) : Identifier.isPart c := by
  obtain hunderscore | halpha := Bool.or_eq_true_iff.1 hc
  · exact Bool.or_eq_true_iff.2 (.inl hunderscore)
  · exact Bool.or_eq_true_iff.2 (.inr (Bool.or_eq_true_iff.2 (.inl halpha)))

theorem ascii_isStart : Ascii Identifier.isStart :=
  fun c hc => ascii_isPart c (isPart_of_isStart hc)

theorem ascii_isHexDigit : Ascii (Hex.isDigit 16) := by
  intro c hc
  unfold Hex.isDigit Hex.value? at hc
  split_ifs at hc with hdigit hlower hupper
  · exact ascii_of_le hdigit.2 (by decide)
  · exact ascii_of_le hlower.2 (by decide)
  · exact ascii_of_le hupper.2 (by decide)
  · cases hc

theorem ascii_isSpace : Ascii isSpace :=
  ascii_or (ascii_or (ascii_or (ascii_eq (by decide)) (ascii_eq (by decide)))
    (ascii_eq (by decide))) (ascii_eq (by decide))

theorem punctuation?_of_not_ascii {c : Char} (hc : ¬ c.toNat < 128) : punctuation? c = none := by
  unfold punctuation?
  split <;> first | rfl | exact absurd (by decide) hc

/-- A character beyond ASCII starts no token. -/
theorem next_of_not_ascii {c : Char} (hc : ¬ c.toNat < 128) (t : Text) :
    next c t = .error (0, .strayCharacter c) := by
  have hne {d : Char} (hd : d.toNat < 128) : (c == d) = false := (ascii_eq hd).eq_false hc
  rw [next, punctuation?_of_not_ascii hc]
  dsimp only
  rw [hne (d := '-') (by decide), ascii_isDigit.eq_false hc, hne (d := '"') (by decide),
    hne (d := '#') (by decide), hne (d := '@') (by decide), ascii_isStart.eq_false hc]
  rfl

/-! ## tokens -/

/-- The token is as wide as what it is cut from is longer than what is left. -/
def Cut.Of (cut : Cut) (t : Text) : Prop := t.from? cut.width = some cut.rest ∧ 0 < cut.width

/-- A token of one ASCII character and more after it. -/
theorem Cut.Of.of_from? {c : Char} (hc : c.utf8Size = 1) {t rest : Text} {token : Token} {n : Nat}
    (h : t.from? n = some rest) : Cut.Of ⟨token, 1 + n, rest⟩ (c :: t) := by
  refine ⟨?_, Nat.add_pos_left Nat.one_pos n⟩
  have hcons := from?_cons n c t
  rwa [hc, h] at hcons

/-- A punctuation character is one byte long. -/
theorem utf8Size_of_punctuation? {c : Char} {token : Token} (h : punctuation? c = some token) :
    c.utf8Size = 1 := by
  unfold punctuation? at h
  split at h <;> first | rfl | cases h

/-- A numeral is as many bytes long as it has characters. -/
theorem from?_of_numeric {cut : Text × Text} {t : Text} (h : Numeric cut t) :
    t.from? cut.1.length = some cut.2 := by
  obtain ⟨rfl, hnumeric⟩ := h
  rw [← Text.byteLength_of_ascii ascii_isNumeric hnumeric]
  exact Text.from?_append cut.1 cut.2

/-- A numeral or a marker that starts with a dash is as wide as what it takes off the text. -/
theorem of_cutDash {t : Text} {cut : Cut} (h : cutDash t = .ok cut) : cut.Of ('-' :: t) := by
  unfold cutDash at h
  dsimp only at h
  split_ifs at h
  · cases h
    exact .of_from? rfl (from?_of_numeric (numeric_cutNumeral t))
  · cases h
    exact .of_from? rfl (Text.from?_length_takeWhile (ascii_eq (by decide)) t)

/-- The bytes after their mark are as wide as what they take off the text. -/
theorem of_cutHex {make : List UInt8 → Token} {t : Text} {cut : Cut} {c : Char}
    (hc : c.utf8Size = 1) (h : cutHex make t = .ok cut) : cut.Of (c :: t) := by
  unfold cutHex at h
  dsimp only at h
  split at h
  · cases h
    exact .of_from? hc (Text.from?_length_takeWhile ascii_isHexDigit t)
  · cases h

/-- A quoted text is as wide as what it takes off the text, quotes and escapes included. -/
theorem of_cutLiteral {t : Text} {cut : Cut} (h : cutLiteral t = .ok cut) : cut.Of ('"' :: t) := by
  unfold cutLiteral at h
  split at h
  · next hread =>
    cases h
    obtain ⟨m, rfl, -, hm⟩ := Quoted.from?_of_unquote hread
    exact .of_from? rfl hm
  · cases h
  · cases h

/-- A number takes in at least the digit that it starts with. -/
theorem of_cutNumber {c : Char} (hc : c.isDigit) (t : Text) : (cutNumber c t).Of (c :: t) := by
  refine ⟨from?_of_numeric (numeric_cutNumeral (c :: t)), ?_⟩
  have hwhole : (c :: t).takeWhile Char.isDigit = c :: t.takeWhile Char.isDigit := by
    rw [List.takeWhile_cons_of_pos hc]
  simp [cutNumber, cutNumeral, hwhole]

/-- An identifier is as wide as what it takes off the text. -/
theorem of_cutIdentifier {c : Char} (hc : Identifier.isStart c) (t : Text) :
    (cutIdentifier c t).Of (c :: t) := by
  have hpart : Identifier.isPart c := isPart_of_isStart hc
  have hspan := Text.from?_length_takeWhile ascii_isPart (c :: t)
  rw [List.takeWhile_cons_of_pos hpart, List.dropWhile_cons_of_pos hpart] at hspan
  exact ⟨hspan, Nat.succ_pos _⟩

/-- **What is left after a token is what comes as many bytes on as the token is wide.** -/
theorem of_next {c : Char} {t : Text} {cut : Cut} (h : next c t = .ok cut) : cut.Of (c :: t) := by
  unfold next at h
  split at h
  · next htoken =>
    cases h
    exact .of_from? (utf8Size_of_punctuation? htoken) (from?_zero t)
  · split_ifs at h with hdash hdigit hquote hhash hat hstart
    · rw [eq_of_beq hdash]
      exact of_cutDash h
    · cases h
      exact of_cutNumber hdigit t
    · rw [eq_of_beq hquote]
      exact of_cutLiteral h
    · rw [eq_of_beq hhash]
      exact of_cutHex rfl h
    · rw [eq_of_beq hat]
      exact of_cutHex rfl h
    · cases h
      exact of_cutIdentifier hstart t

/-- A fault in a quoted text lies between two characters. -/
theorem onBoundary_of_cutLiteral {t : Text} {distance : Nat} {fault : Fault}
    (h : cutLiteral t = .error (distance, fault)) : OnBoundary ('"' :: t) distance := by
  unfold cutLiteral at h
  split at h
  · cases h
  · cases h
    exact .zero _
  · next hread =>
    cases h
    obtain ⟨m, rfl, hm⟩ := Quoted.onBoundary_of_unquote hread
    exact .add (from?_add (s := ['"']) (from?_zero _)) hm

/-- **A fault in a token is found between two characters**: where the token starts or, in a literal,
at the character after a backslash. -/
theorem onBoundary_of_next {c : Char} {t : Text} {distance : Nat} {fault : Fault}
    (h : next c t = .error (distance, fault)) : OnBoundary (c :: t) distance := by
  have hhex {make : List UInt8 → Token} (h : cutHex make t = .error (distance, fault)) :
      OnBoundary (c :: t) distance := by
    unfold cutHex at h
    dsimp only at h
    split at h
    · cases h
    · cases h
      exact .zero _
  unfold next at h
  split at h
  · cases h
  · split_ifs at h with hdash hdigit hquote hhash hat hstart
    · unfold cutDash at h
      dsimp only at h
      split_ifs at h
      cases h
      exact .zero _
    · rw [eq_of_beq hquote]
      exact onBoundary_of_cutLiteral h
    · exact hhex h
    · exact hhex h
    · cases h
      exact .zero _

end Token

/-! ## errors between characters -/

/-- If there is an error, it is put between two characters of the text. -/
def Placed (input : Text) (x : Except ParseError α) : Prop :=
  ∀ e, x = .error e → input.OnBoundary e.offset

variable {α β : Type} {input : Text}

theorem placed_ok (v : α) : Placed input (.ok v) := fun _ h => nomatch h

theorem placed_error {e : ParseError} (h : input.OnBoundary e.offset) :
    Placed input (.error e : Except ParseError α) := by
  intro e' he
  cases he
  exact h

/-- If two steps put their errors between characters, so do both in a row. -/
theorem Placed.bind {x : Except ParseError α} {f : α → Except ParseError β} (hx : Placed input x)
    (hf : ∀ v, x = .ok v → Placed input (f v)) : Placed input (x >>= f) := by
  cases x with
  | error e => exact placed_error (hx e rfl)
  | ok v => exact hf v rfl

/-- What is made of the result does not move the errors. -/
theorem Placed.map {x : Except ParseError α} (hx : Placed input x) (f : α → β) :
    Placed input (x.map f) := by
  cases x with
  | error e => exact placed_error (hx e rfl)
  | ok v => exact placed_ok (f v)

/-- A check that fails at a place between characters keeps the errors placed. -/
theorem Placed.unless {condition : Prop} [Decidable condition] {e : ParseError}
    {next : Unit → Except ParseError α} (he : input.OnBoundary e.offset) (h : Placed input (next ())) :
    Placed input (if condition then throw e >>= next else next ()) := by
  split
  · exact placed_error he
  · exact h

/-! ## lexemes -/

/-- Every lexeme starts between two characters of a text. -/
def Text.Starts (input : Text) (lexemes : List Lexeme) : Prop :=
  ∀ l ∈ lexemes, input.OnBoundary l.offset

/-- **Cutting goes from character to character**: each token starts at one, and so does a fault. -/
theorem Lexeme.places_ofTextFrom {t : Text} {offset : Nat} {done : List Lexeme}
    (ht : input.from? offset = some t) (hdone : input.Starts done) :
    Placed input (ofTextFrom offset done t) ∧
    ∀ lexemes, ofTextFrom offset done t = .ok lexemes → input.Starts lexemes := by
  fun_induction ofTextFrom offset done t with
  | case1 offset done =>
    refine ⟨placed_ok _, fun lexemes h => ?_⟩
    cases h
    exact fun l hl => hdone l (List.mem_reverse.1 hl)
  | case2 offset done c t hspace ih =>
    have hsize : c.utf8Size = 1 := by
      simp only [Token.isSpace, Bool.or_eq_true, beq_iff_eq] at hspace
      obtain ((rfl | rfl) | rfl) | rfl := hspace <;> rfl
    have hnext := Text.from?_add (s := [c]) ht
    rw [Text.byteLength_cons, hsize] at hnext
    exact ih hnext hdone
  | case3 offset done c t _ distance fault hnext =>
    exact ⟨placed_error (.add ht (Token.onBoundary_of_next hnext)), fun lexemes h => nomatch h⟩
  | case4 offset done c t _ cut hnext _ ih =>
    exact ih (Text.from?_trans ht (Token.of_next hnext).1)
      (List.forall_mem_cons.2 ⟨.of_from? ht, hdone⟩)

/-- The lexer puts its errors between two characters. -/
theorem Lexeme.placed_ofText (input : Text) : Placed input (ofText input) :=
  (places_ofTextFrom (from?_zero input) (List.forall_mem_nil _)).1

/-- The lexer starts its lexemes between two characters. -/
theorem Lexeme.starts_of_ofText {lexemes : List Lexeme} (h : ofText input = .ok lexemes) :
    input.Starts lexemes :=
  (places_ofTextFrom (from?_zero input) (List.forall_mem_nil _)).2 lexemes h

/-! ## readers -/

/-- A lexeme that is no key is reported where it starts. -/
theorem Dimension.placed_ofLexeme {l : Lexeme} (hl : input.OnBoundary l.offset) :
    Placed input (Dimension.ofLexeme l) := by
  unfold ofLexeme
  split
  · exact placed_ok _
  · exact placed_error hl

namespace Grammar

variable {lexemes : List Lexeme}

/-- The machine puts its errors at lexemes, and at the end of the text if it runs out of them. -/
theorem placed_run (angledOnly : Bool) (limits : Limits) (hlexemes : input.Starts lexemes)
    (progress : Progress) :
    Placed input (run angledOnly limits input.byteLength progress lexemes) := by
  induction lexemes generalizing progress with
  | nil =>
    cases progress with
    | finished p => exact placed_ok p
    | within stack => exact placed_error (.byteLength input)
  | cons l rest ih =>
    obtain ⟨hl, hrest⟩ := List.forall_mem_cons.1 hlexemes
    rw [run]
    split
    · exact ih hrest _
    · exact placed_error hl

/-- Reading a path from lexemes puts errors at lexemes or at the end. -/
theorem placed_readPath (hlexemes : input.Starts lexemes) :
    Placed input (readPath input.byteLength lexemes) := by
  fun_induction readPath input.byteLength lexemes with
  | case1 => exact placed_ok _
  | case2 l =>
    obtain ⟨hl, -⟩ := List.forall_mem_cons.1 hlexemes
    exact (Dimension.placed_ofLexeme hl).bind fun d _ => placed_ok _
  | case3 l colon rest ih =>
    obtain ⟨hl, hrest⟩ := List.forall_mem_cons.1 hlexemes
    obtain ⟨hcolon, hrest⟩ := List.forall_mem_cons.1 hrest
    refine (Dimension.placed_ofLexeme hl).bind fun d _ => .unless hcolon <|
      .unless (.byteLength input) <| (ih hrest).bind fun _ _ => placed_ok _

/-- Reading a patch puts errors at lexemes or at the end, in both modes. -/
theorem placed_readPatch (angledOnly : Bool) (limits : Limits) (input : Text) :
    Placed input (readPatch angledOnly limits input) :=
  (Lexeme.placed_ofText input).bind fun _ h =>
    placed_run angledOnly limits (Lexeme.starts_of_ofText h) _

end Grammar

/-! ## whole texts -/

/-- The parser of patches puts its errors between two characters. -/
theorem Patch.placed_parse (limits : Limits) (input : Text) :
    Placed input (Patch.parse limits input) := Grammar.placed_readPatch false limits input

/-- The parser of contexts puts its errors between two characters. -/
theorem Context.placed_parse (limits : Limits) (input : Text) :
    Placed input (Context.parse limits input) :=
  (Grammar.placed_readPatch true limits input).map Context.ofPatch

/-- The parser of keys puts its errors between two characters. -/
theorem Dimension.placed_parse (input : Text) : Placed input (Dimension.parse input) := by
  refine (Lexeme.placed_ofText input).bind fun lexemes h => ?_
  have hstarts := Lexeme.starts_of_ofText h
  match lexemes, hstarts with
  | [], _ => exact placed_error (.zero input)
  | [l], hstarts => exact placed_ofLexeme (hstarts l List.mem_cons_self)
  | _ :: extra :: _, hstarts => exact placed_error (hstarts extra (by simp))

/-- The parser of paths puts its errors between two characters. -/
theorem Path.placed_parse (input : Text) : Placed input (Path.parse input) :=
  (Lexeme.placed_ofText input).bind fun _ h =>
    Grammar.placed_readPath (Lexeme.starts_of_ofText h)

end Intension
