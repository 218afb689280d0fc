import Intension.Proofs.Grammar.Places

/-!
# Intension.Proofs.Grammar.Slicing

Reading a text by offsets.  Where texts lie in memory as their bytes, a reader goes
over them by offsets: it looks at single bytes, counts bytes in a row, and cuts out
what lies between two offsets.  Here such a reader of tokens is written down with a
check in each of these places, and `none` for an offset past the end or inside a
character.  No check ever fails, and the tokens and faults are those that
`Lexeme.ofText` finds (`tokens?_eq_ofText`).
-/

namespace Intension.Slicing

open Text (Ascii from?_add from?_zero)

/-! ## bytes -/

section

variable (input : Text)

/-- The byte at an offset; `none` if there is none. -/
def byte? (i : Nat) : Option Char := input.byteChars[i]?

/-- The bytes from an offset on; `none` past the end. -/
def bytesFrom? (i : Nat) : Option (List Char) :=
  if i ≤ input.byteLength then some (input.byteChars.drop i) else none

/-- The bytes between two offsets; `none` if these are not in order, or past the end. -/
def bytesBetween? (i j : Nat) : Option (List Char) :=
  if i ≤ j ∧ j ≤ input.byteLength then some ((input.byteChars.drop i).take (j - i)) else none

/-- The number of bytes in a row, from an offset on, that have a property. -/
def count? (p : Char → Bool) (i : Nat) : Option Nat :=
  (bytesFrom? input i).map fun bs => (bs.takeWhile p).length

/-! ## numbers -/

/-- The end of the fraction that may start at an offset. -/
def fractionEnd? (i : Nat) : Option Nat :=
  if (byte? input i).any (· == '.') && (byte? input (i + 1)).any Char.isDigit then
    (count? input Char.isDigit (i + 1)).map (i + 1 + ·)
  else some i

/-- The end of the sign that may start at an offset. -/
def signEnd (i : Nat) : Nat :=
  if (byte? input i).any fun b => b == '+' || b == '-' then i + 1 else i

/-- The end of the exponent that may start at an offset. -/
def exponentEnd? (i : Nat) : Option Nat :=
  if (byte? input i).any fun b => b == 'e' || b == 'E' then
    (count? input Char.isDigit (signEnd input (i + 1))).map fun n =>
      if 0 < n then signEnd input (i + 1) + n else i
  else some i

/-- The end of the unsigned numeral that starts at an offset. -/
def unsignedEnd? (i : Nat) : Option Nat := do
  let n ← count? input Char.isDigit i
  let i ← fractionEnd? input (i + n)
  exponentEnd? input i

/-- The number that starts at an offset, and its end. -/
def number? (start : Nat) : Option (Token × Nat) := do
  let first ← byte? input start
  let stop ← unsignedEnd? input (if first == '-' then start + 1 else start)
  let spelling ← bytesBetween? input start stop
  return (.numeral spelling, stop)

/-! ## tokens -/

/-- The marker or the number that starts with a dash, and its end. -/
def dash? (start : Nat) : Option (Except ParseError (Token × Nat)) := do
  let run ← count? input (· == '-') start
  if run = 1 && (byte? input (start + run)).any Char.isDigit then
    (number? input start).map .ok
  else if run ≤ 3 then return .ok (.dashes run, start + run)
  else return .error ⟨start, .token .tooManyDashes⟩

/-- The literal whose opening quote stands at an offset, and its end. -/
def literal? (start : Nat) : Option (Except ParseError (Token × Nat)) := do
  let t ← input.from? (start + 1)
  match Quoted.unquote 1 [] t with
  | .ok (content, width, _) => return .ok (.literal content, start + width)
  | .error .unterminated => return .error ⟨start, .token .unterminated⟩
  | .error (.unknownEscape c distance) =>
    return .error ⟨start + distance, .token (.unknownEscape c)⟩

/-- The bytes whose mark stands at an offset, and their end. -/
def hex? (make : List UInt8 → Token) (start : Nat) : Option (Except ParseError (Token × Nat)) := do
  let n ← count? input (Hex.isDigit 16) (start + 1)
  let digits ← input.slice? (start + 1) (start + 1 + n)
  match Hex.decode digits with
  | .ok bytes => return .ok (make bytes, start + 1 + n)
  | .error _ => return .error ⟨start, .token .oddHex⟩

/-- The identifier that starts at an offset, and its end. -/
def identifier? (start : Nat) : Option (Except ParseError (Token × Nat)) := do
  let n ← count? input Identifier.isPart start
  let spelling ← input.slice? start (start + n)
  return .ok (.identifier spelling, start + n)

/-- The fault of a character at an offset that starts no token. -/
def stray? (start : Nat) : Option (Except ParseError (Token × Nat)) := do
  let t ← input.from? start
  return .error ⟨start, .token (.strayCharacter (t.head?.getD '?'))⟩

/-- The token that starts at an offset, and its end. -/
def token? (start : Nat) : Option (Except ParseError (Token × Nat)) := do
  let b ← byte? input start
  match Token.punctuation? b with
  | some token => return .ok (token, start + 1)
  | none =>
    if b == '-' then dash? input start
    else if b.isDigit then (number? input start).map .ok
    else if b == '"' then literal? input start
    else if b == '#' then hex? input .binary start
    else if b == '@' then hex? input .bound start
    else if Identifier.isStart b then identifier? input start
    else stray? input start

/-- The tokens from an offset on; `done` holds those before it, the newest first.  A token that
does not go on is a failed check, too. -/
def tokens? (start : Nat) (done : List Lexeme) : Option (Except ParseError (List Lexeme)) :=
  if start < input.byteLength then
    match byte? input start with
    | none => none
    | some b =>
      if Token.isSpace b then tokens? (start + 1) done
      else match token? input start with
        | none => none
        | some (.error e) => some (.error e)
        | some (.ok (token, stop)) =>
          if start < stop then tokens? stop (⟨token, start⟩ :: done) else none
  else some (.ok done.reverse)
termination_by input.byteLength - start

end

/-! ## what is at an offset -/

variable {input t : Text} {i : Nat}

/-- The byte at a boundary is the first byte of what stands there. -/
theorem byte?_eq (h : input.from? i = some t) : byte? input i = t.byteChars.head? := by
  rw [byte?, ← List.head?_drop, Text.drop_byteChars h]

/-- Where a character of one byte stands, it is the byte. -/
theorem byte?_of_ascii {c : Char} (hc : c.toNat < 128) (h : input.from? i = some (c :: t)) :
    byte? input i = some c := by
  rw [byte?_eq h, Text.byteChars_cons_of_ascii hc]
  rfl

/-- Where a character beyond ASCII starts, there is a byte that is no ASCII character. -/
theorem byte?_of_not_ascii {c : Char} (hc : ¬ c.toNat < 128) (h : input.from? i = some (c :: t)) :
    ∃ x, byte? input i = some x ∧ ¬ x.toNat < 128 := by
  obtain ⟨x, more, hx, hxascii⟩ := Text.byteChars_cons_of_not_ascii hc t
  exact ⟨x, by rw [byte?_eq h, hx]; rfl, hxascii⟩

/-- A property of one-byte characters may be asked of the byte in place of the character. -/
theorem any_byte? {p : Char → Bool} (hp : Ascii p) (h : input.from? i = some t) :
    (byte? input i).any p = t.head?.any p := by
  rw [byte?_eq h, Text.any_head?_byteChars hp]

/-- The bytes from a boundary on are those of what stands there. -/
theorem bytesFrom?_eq (h : input.from? i = some t) : bytesFrom? input i = some t.byteChars := by
  rw [bytesFrom?, if_pos (Text.OnBoundary.of_from? h).le, Text.drop_byteChars h]

/-- Counting the bytes of one-byte characters counts the characters. -/
theorem count?_eq {p : Char → Bool} (hp : Ascii p) (h : input.from? i = some t) :
    count? input p i = some (t.takeWhile p).length := by
  rw [count?, bytesFrom?_eq h, Option.map_some, Text.takeWhile_byteChars hp]

/-- A slice over a run of one-byte characters is within bounds and gives the run. -/
theorem slice?_eq {p : Char → Bool} (hp : Ascii p) (h : input.from? i = some t) :
    input.slice? i (i + (t.takeWhile p).length) = some (t.takeWhile p) := by
  rw [← List.takeWhile_append_dropWhile (p := p) (l := t)] at h
  have hslice := Text.slice?_of_from? h
  rwa [Text.byteLength_of_ascii hp (List.all_eq_true.1 List.all_takeWhile)] at hslice

/-- Past an ASCII character there is what comes after it. -/
theorem from?_succ {c : Char} (hc : c.toNat < 128) (h : input.from? i = some (c :: t)) :
    input.from? (i + 1) = some t := by
  have hsize := Text.byteLength_of_ascii (t := [c]) (Token.ascii_eq hc) (by simp)
  have hnext := from?_add (s := [c]) h
  rwa [hsize] at hnext

/-- What is left after some characters of a numeral. -/
theorem from?_of_numeric {cut : Text × Text} (hcut : Token.Numeric cut t)
    (h : input.from? i = some t) : input.from? (i + cut.1.length) = some cut.2 :=
  Text.from?_trans h (Token.from?_of_numeric hcut)

/-- The bytes of a numeral are within bounds and give the numeral. -/
theorem bytesBetween?_eq {cut : Text × Text} (hcut : Token.Numeric cut t)
    (h : input.from? i = some t) :
    bytesBetween? input i (i + cut.1.length) = some cut.1 := by
  have hstop := (Text.OnBoundary.of_from? (from?_of_numeric hcut h)).le
  have hspelled : cut.1.byteChars = cut.1 :=
    Text.byteChars_of_ascii Token.ascii_isNumeric hcut.2
  rw [bytesBetween?, if_pos ⟨Nat.le_add_right _ _, hstop⟩, Text.drop_byteChars h, ← hcut.1,
    Text.byteChars_append, hspelled, Nat.add_sub_cancel_left, List.take_left]

/-! ## no check fails in a number -/

/-- The fraction found by offsets is the one that is cut off. -/
theorem fractionEnd?_eq (h : input.from? i = some t) :
    fractionEnd? input i = some (i + (Token.cutFraction t).1.length) := by
  have hdot : (byte? input i).any (· == '.') = t.head?.any (· == '.') :=
    any_byte? (Token.ascii_eq (by decide)) h
  rw [fractionEnd?, hdot]
  fun_cases Token.cutFraction t with
  | case1 c t hc =>
    have hnext : input.from? (i + 1) = some (c :: t) := from?_succ (by decide) h
    rw [any_byte? Token.ascii_isDigit hnext, count?_eq Token.ascii_isDigit hnext]
    simp [hc]
    omega
  | case2 c t hc =>
    have hnext : input.from? (i + 1) = some (c :: t) := from?_succ (by decide) h
    rw [any_byte? Token.ascii_isDigit hnext]
    simp [hc]
  | case3 t hne =>
    cases t with
    | nil => rfl
    | cons c t =>
      by_cases hc : c = '.'
      · subst hc
        have hnext : input.from? (i + 1) = some t := from?_succ (by decide) h
        cases t with
        | nil =>
          rw [any_byte? Token.ascii_isDigit hnext]
          rfl
        | cons d t => exact absurd rfl (hne d t)
      · simp [hc]

/-- The characters of a sign. -/
theorem ascii_sign : Ascii fun b => b == '+' || b == '-' :=
  Token.ascii_or (Token.ascii_eq (by decide)) (Token.ascii_eq (by decide))

/-- The sign found by offsets is the one that is cut off. -/
theorem signEnd_eq (h : input.from? i = some t) :
    signEnd input i = i + (Token.cutSign t).1.length := by
  rw [signEnd, any_byte? ascii_sign h]
  fun_cases Token.cutSign t with
  | case1 => rfl
  | case2 => rfl
  | case3 t hplus hminus =>
    cases t with
    | nil => rfl
    | cons c t =>
      have hc : (c == '+' || c == '-') = false := by
        simp only [Bool.or_eq_false_iff, beq_eq_false_iff_ne]
        exact ⟨fun h => hplus t (h ▸ rfl), fun h => hminus t (h ▸ rfl)⟩
      simp [hc]

/-- The exponent found by offsets is the one that is cut off. -/
theorem exponentEnd?_eq (h : input.from? i = some t) :
    exponentEnd? input i = some (i + (Token.cutExponent t).1.length) := by
  have hmark : Ascii fun b => b == 'e' || b == 'E' :=
    Token.ascii_or (Token.ascii_eq (by decide)) (Token.ascii_eq (by decide))
  rw [exponentEnd?, any_byte? hmark h]
  cases t with
  | nil => rfl
  | cons c t =>
    rw [List.head?_cons, Option.any_some]
    by_cases hc : (c == 'e' || c == 'E') = true
    · have hnext : input.from? (i + 1) = some t := from?_succ (hmark c hc) h
      have hdigits := from?_of_numeric (Token.numeric_cutSign t) hnext
      rw [if_pos hc, signEnd_eq hnext, count?_eq Token.ascii_isDigit hdigits, Option.map_some,
        Token.cutExponent]
      cases hds : (Token.cutSign t).2.takeWhile Char.isDigit with
      | nil => simp [hds]
      | cons d ds =>
        simp [hds, hc]
        omega
    · rw [if_neg hc, Token.cutExponent]
      simp [hc]

/-- The unsigned numeral found by offsets is the one that is cut off. -/
theorem unsignedEnd?_eq (h : input.from? i = some t) :
    unsignedEnd? input i = some (i + (Token.cutNumeral t).1.length) := by
  have hdigits := from?_of_numeric (Token.numeric_digits t) h
  have hfraction := from?_of_numeric (Token.numeric_cutFraction _) hdigits
  simp only [unsignedEnd?, count?_eq Token.ascii_isDigit h, Option.bind_eq_bind, Option.bind_some]
  rw [fractionEnd?_eq hdigits, Option.bind_some, exponentEnd?_eq hfraction, Token.cutNumeral]
  simp only [List.length_append, Nat.add_assoc]

/-- A number that starts with a digit: no check fails, and it is the one that is cut off. -/
theorem number?_eq_of_digit {c : Char} (hc : c.isDigit) (h : input.from? i = some (c :: t)) :
    number? input i = some (.numeral (Token.cutNumeral (c :: t)).1,
      i + (Token.cutNumeral (c :: t)).1.length) := by
  have hfirst := byte?_of_ascii (Token.ascii_isDigit c hc) h
  have hdash : (c == '-') = false := by
    refine beq_false_of_ne ?_
    rintro rfl
    cases hc
  simp only [number?, hfirst, hdash, Option.bind_eq_bind, Option.bind_some, Bool.false_eq_true,
    if_false, unsignedEnd?_eq h, bytesBetween?_eq (Token.numeric_cutNumeral (c :: t)) h]
  rfl

/-- A number that starts with a dash: no check fails, and it is the one that is cut off. -/
theorem number?_eq_of_dash (h : input.from? i = some ('-' :: t)) :
    number? input i = some (.numeral ('-' :: (Token.cutNumeral t).1),
      i + (1 + (Token.cutNumeral t).1.length)) := by
  have hfirst : byte? input i = some '-' := byte?_of_ascii (by decide) h
  have hnext : input.from? (i + 1) = some t := from?_succ (by decide) h
  have hspelling := bytesBetween?_eq ((Token.numeric_cutNumeral t).cons (c := '-') rfl) h
  rw [List.length_cons, Nat.add_comm _ 1] at hspelling
  simp only [number?, hfirst, BEq.rfl, if_true, Option.bind_eq_bind, Option.bind_some,
    unsignedEnd?_eq hnext, Nat.add_assoc, hspelling]
  rfl

/-! ## no check fails in a token -/

/-- A cut, or a fault, of the text at an offset. -/
def placed (i : Nat) : Except (Nat × Token.Fault) Token.Cut → Except ParseError (Token × Nat)
  | .ok cut => .ok (cut.token, i + cut.width)
  | .error (distance, fault) => .error ⟨i + distance, .token fault⟩

/-- At a dash no check fails, and the outcome is that of the cut. -/
theorem dash?_eq (h : input.from? i = some ('-' :: t)) :
    dash? input i = some (placed i (Token.cutDash t)) := by
  have hnext : input.from? (i + 1) = some t := from?_succ (by decide) h
  have hrun : (('-' :: t).takeWhile (· == '-')).length =
      1 + (t.takeWhile (· == '-')).length := by
    rw [List.takeWhile_cons_of_pos rfl, List.length_cons, Nat.add_comm]
  simp only [dash?, count?_eq (Token.ascii_eq (d := '-') (by decide)) h, hrun,
    Option.bind_eq_bind, Option.bind_some]
  have hhead : (t.head?.map Char.isDigit).getD false = t.head?.any Char.isDigit := by
    cases t <;> rfl
  rw [Token.cutDash, hhead]
  dsimp only
  generalize (t.takeWhile (· == '-')).length = more
  cases more with
  | zero =>
    rw [Nat.add_zero, any_byte? Token.ascii_isDigit hnext]
    cases t.head?.any Char.isDigit with
    | true =>
      simp only [decide_true, Bool.and_self, if_true, number?_eq_of_dash h]
      rfl
    | false => rfl
  | succ more =>
    have hone : ¬1 + (more + 1) = 1 := by omega
    have hle : 1 + (more + 1) ≤ 3 ↔ more + 1 ≤ 2 := by omega
    simp only [hone, Nat.succ_ne_zero, decide_false, Bool.false_and, Bool.false_eq_true, if_false,
      hle]
    split <;> rfl

/-- At a quote no check fails, and the outcome is that of the cut. -/
theorem literal?_eq (h : input.from? i = some ('"' :: t)) :
    literal? input i = some (placed i (Token.cutLiteral t)) := by
  simp only [literal?, from?_succ (by decide) h, Option.bind_eq_bind, Option.bind_some]
  rw [Token.cutLiteral]
  cases Quoted.unquote 1 [] t with
  | ok read => rfl
  | error fault => cases fault <;> rfl

/-- At the mark of bytes no check fails, and the outcome is that of the cut. -/
theorem hex?_eq {make : List UInt8 → Token} {c : Char} (hc : c.toNat < 128)
    (h : input.from? i = some (c :: t)) :
    hex? input make i = some (placed i (Token.cutHex make t)) := by
  have hnext : input.from? (i + 1) = some t := from?_succ hc h
  simp only [hex?, count?_eq Token.ascii_isHexDigit hnext, slice?_eq Token.ascii_isHexDigit hnext,
    Option.bind_eq_bind, Option.bind_some]
  rw [Token.cutHex]
  cases Hex.decode (t.takeWhile (Hex.isDigit 16)) with
  | ok bytes =>
    dsimp only [placed]
    rw [Nat.add_assoc]
    rfl
  | error fault => rfl

/-- At an identifier no check fails, and the outcome is that of the cut. -/
theorem identifier?_eq {c : Char} (hc : Identifier.isStart c) (h : input.from? i = some (c :: t)) :
    identifier? input i = some (placed i (.ok (Token.cutIdentifier c t))) := by
  have hcount := count?_eq Token.ascii_isPart h
  have hslice := slice?_eq Token.ascii_isPart h
  rw [List.takeWhile_cons_of_pos (Token.isPart_of_isStart hc)] at hcount hslice
  simp only [identifier?, hcount, hslice, Option.bind_eq_bind, Option.bind_some]
  rfl

/-- At a character that starts no token no check fails, and this character is reported. -/
theorem stray?_eq {c : Char} (h : input.from? i = some (c :: t)) :
    stray? input i = some (placed i (.error (0, .strayCharacter c))) := by
  simp only [stray?, h, Option.bind_eq_bind, Option.bind_some]
  rfl

/-- A byte of a character beyond ASCII starts no token. -/
theorem token?_of_not_ascii {x : Char} (hbyte : byte? input i = some x) (hx : ¬ x.toNat < 128) :
    token? input i = stray? input i := by
  have hne {d : Char} (hd : d.toNat < 128) : (x == d) = false := (Token.ascii_eq hd).eq_false hx
  simp only [token?, hbyte, Option.bind_eq_bind, Option.bind_some,
    Token.punctuation?_of_not_ascii hx, hne (d := '-') (by decide),
    Token.ascii_isDigit.eq_false hx, hne (d := '"') (by decide), hne (d := '#') (by decide),
    hne (d := '@') (by decide), Token.ascii_isStart.eq_false hx, Bool.false_eq_true, if_false]

/-- The token at an offset is the one that is cut there. -/
theorem token?_eq {c : Char} (h : input.from? i = some (c :: t)) :
    token? input i = some (placed i (Token.next c t)) := by
  by_cases hc : c.toNat < 128
  · simp only [token?, byte?_of_ascii hc h, Option.bind_eq_bind, Option.bind_some, Token.next]
    cases Token.punctuation? c with
    | some token => rfl
    | none =>
      dsimp only
      split_ifs with hdash hdigit hquote hhash hat hstart
      · exact dash?_eq (eq_of_beq hdash ▸ h)
      · rw [number?_eq_of_digit hdigit h]
        rfl
      · exact literal?_eq (eq_of_beq hquote ▸ h)
      · exact hex?_eq hc h
      · exact hex?_eq hc h
      · exact identifier?_eq hstart h
      · exact stray?_eq h
  · obtain ⟨x, hbyte, hxascii⟩ := byte?_of_not_ascii hc h
    rw [token?_of_not_ascii hbyte hxascii, Token.next_of_not_ascii hc]
    exact stray?_eq h

/-! ## no check fails in a text -/

/-- Where a character stands, the offset is within the text. -/
theorem lt_byteLength {c : Char} (h : input.from? i = some (c :: t)) : i < input.byteLength := by
  have hpos := c.utf8Size_pos
  rw [Text.byteLength_of_from? h, Text.byteLength_cons]
  omega

/-- The byte at a character is blank if the character is. -/
theorem exists_byte? {c : Char} (h : input.from? i = some (c :: t)) :
    ∃ b, byte? input i = some b ∧ Token.isSpace b = Token.isSpace c := by
  by_cases hc : c.toNat < 128
  · exact ⟨c, byte?_of_ascii hc h, rfl⟩
  · obtain ⟨x, hbyte, hxascii⟩ := byte?_of_not_ascii hc h
    exact ⟨x, hbyte, (Token.ascii_isSpace.eq_false hxascii).trans
      (Token.ascii_isSpace.eq_false hc).symm⟩

/-- The lexer by offsets, from any boundary on: no check fails, and it finds the lexemes of the
lexer. -/
theorem tokens?_eq {done : List Lexeme} (h : input.from? i = some t) :
    tokens? input i done = some (Lexeme.ofTextFrom i done t) := by
  fun_induction Lexeme.ofTextFrom i done t with
  | case1 i done =>
    have hend : ¬i < input.byteLength := by
      rw [Text.byteLength_of_from? h]
      exact Nat.lt_irrefl i
    rw [tokens?, if_neg hend]
  | case2 i done c t hspace ih =>
    have hc : c.toNat < 128 := Token.ascii_isSpace c hspace
    rw [tokens?, if_pos (lt_byteLength h), byte?_of_ascii hc h]
    dsimp only
    rw [if_pos hspace, ih (from?_succ hc h)]
  | case3 i done c t hspace distance fault hnext =>
    obtain ⟨b, hbyte, hb⟩ := exists_byte? h
    rw [tokens?, if_pos (lt_byteLength h), hbyte]
    dsimp only
    rw [hb, if_neg hspace, token?_eq h, hnext]
    rfl
  | case4 i done c t hspace cut hnext _ ih =>
    obtain ⟨b, hbyte, hb⟩ := exists_byte? h
    obtain ⟨hrest, hwidth⟩ := Token.of_next hnext
    rw [tokens?, if_pos (lt_byteLength h), hbyte]
    dsimp only
    rw [hb, if_neg hspace, token?_eq h, hnext]
    dsimp only [placed]
    rw [if_pos (Nat.lt_add_of_pos_right hwidth), ih (Text.from?_trans h hrest)]

/-- **No slice of a text is out of range or off a character**, and a reader by offsets finds the
tokens and the faults that there are. -/
theorem tokens?_eq_ofText (input : Text) : tokens? input 0 [] = some (Lexeme.ofText input) :=
  tokens?_eq (from?_zero input)

/-! ## the machine -/

/-- The machine, by the index of the lexeme that comes next. -/
def run? (angledOnly : Bool) (limits : Limits) (length : Nat) (lexemes : List Lexeme)
    (progress : Grammar.Progress) (i : Nat) : Option (Except ParseError Patch) :=
  if i < lexemes.length then
    match lexemes[i]? with
    | none => none
    | some l =>
      match Grammar.step angledOnly limits l.token
          ((lexemes[i + 1]?).any (·.token = .colon)) progress with
      | .ok progress => run? angledOnly limits length lexemes progress (i + 1)
      | .error fault => some (.error ⟨l.offset, fault⟩)
  else some (Grammar.run angledOnly limits length progress [])
termination_by lexemes.length - i

/-- The look ahead of the machine, as a question to the next lexeme. -/
theorem startsWithColon_eq_any (lexemes : List Lexeme) :
    Grammar.startsWithColon lexemes = lexemes.head?.any (·.token = .colon) := by
  unfold Grammar.startsWithColon
  split
  · rfl
  · next hne =>
    cases lexemes with
    | nil => rfl
    | cons l rest =>
      obtain ⟨token, offset⟩ := l
      have htoken : token ≠ .colon := by
        rintro rfl
        exact hne _ _ rfl
      simp [htoken]

/-- The machine looks at no lexeme that is not there. -/
theorem run?_eq {angledOnly : Bool} {limits : Limits} {length : Nat} {lexemes rest : List Lexeme}
    {progress : Grammar.Progress} (h : lexemes.drop i = rest) :
    run? angledOnly limits length lexemes progress i =
      some (Grammar.run angledOnly limits length progress rest) := by
  induction rest generalizing i progress with
  | nil =>
    have hend : ¬i < lexemes.length := Nat.not_lt.2 (List.drop_eq_nil_iff.1 h)
    rw [run?, if_neg hend]
  | cons l rest ih =>
    have hi : i < lexemes.length := by
      refine Nat.lt_of_not_le fun hle => ?_
      rw [List.drop_eq_nil_iff.2 hle] at h
      cases h
    have hl : lexemes[i]? = some l := by
      rw [← List.head?_drop, h]
      rfl
    have hrest : lexemes.drop (i + 1) = rest := by
      rw [← List.drop_drop, h]
      rfl
    have hcolon : (lexemes[i + 1]?).any (·.token = .colon) = Grammar.startsWithColon rest := by
      rw [startsWithColon_eq_any, ← List.head?_drop, hrest]
    rw [run?, if_pos hi, hl]
    dsimp only
    rw [hcolon, Grammar.run]
    cases Grammar.step angledOnly limits l.token (Grammar.startsWithColon rest) progress with
    | ok progress => exact ih hrest
    | error fault => rfl

end Intension.Slicing
