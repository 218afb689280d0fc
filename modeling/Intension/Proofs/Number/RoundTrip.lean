import Intension.Proofs.Number.Rounding

/-!
# Intension.Proofs.Number.RoundTrip

A finite number is read back from its text.  The digits that are looked for are
such as read back, and where none are found the exact value is written, which
reads back too.  Placing digits moves zeros between the digits and the scale,
which leaves the value, and so the double nearest to it, as it was.
-/

namespace Intension

namespace Text

/-- Multiples of ten end in zeros. -/
theorem ofNat_mul_pow {n : Nat} (hn : 0 < n) (k : Nat) :
    ofNat (n * 10 ^ k) = ofNat n ++ List.replicate k '0' := by
  induction k with
  | zero => simp
  | succ k ih =>
    have hpos : 0 < n * 10 ^ k := Nat.mul_pos hn (Nat.pow_pos (by decide))
    have hlast := Nat.toDigits_append_toDigits (by decide : 1 < 10) hpos (by decide : 0 < 10)
    have hten : n * 10 ^ (k + 1) = 10 * (n * 10 ^ k) + 0 := by ring
    rw [hten, ofNat, ← hlast, Nat.toDigits_zero, ← ofNat, ih, List.append_assoc,
      List.replicate_succ']

/-- A number has at most `k` digits exactly if it is below the power of ten. -/
theorem length_ofNat_le_iff {n k : Nat} (hk : 0 < k) : (ofNat n).length ≤ k ↔ n < 10 ^ k :=
  Nat.length_toDigits_le_iff (by decide) hk

/-- Characters of one kind are taken off up to the first of another kind. -/
theorem span_append {p : Char → Bool} {t : Text} (h : t.all p) (rest : Text)
    (hrest : rest.head?.all fun c => !p c) :
    (t ++ rest).takeWhile p = t ∧ (t ++ rest).dropWhile p = rest := by
  have ht : ∀ c ∈ t, p c := List.all_eq_true.1 h
  rw [List.takeWhile_append_of_pos ht, List.dropWhile_append_of_pos ht]
  cases rest with
  | nil => simp
  | cons c rest =>
    have hc : p c = false := by simpa using hrest
    simp [hc]

end Text

namespace Number

variable {x : Number}

/-! ## decimal values -/

/-- **Only the value matters** to the double nearest to a decimal, not how many of its zeros are
among the digits. -/
theorem decimalMagnitude_mul_pow {digits : Nat} (hdigits : 0 < digits) (k : Nat) (scale : Int) :
    decimalMagnitude (digits * 10 ^ k) (scale - k) = decimalMagnitude digits scale := by
  have hne : digits * 10 ^ k ≠ 0 := (Nat.mul_pos hdigits (Nat.pow_pos (by decide))).ne'
  have hplaces : ((Text.ofNat (digits * 10 ^ k)).length : Int) + (scale - k) =
      (Text.ofNat digits).length + scale := by
    rw [Text.ofNat_mul_pow hdigits, List.length_append, List.length_replicate]
    omega
  have hnearest : nearestMagnitude (digits * 10 ^ k * 10 ^ (scale - k).toNat)
      (10 ^ (-(scale - k)).toNat) =
      nearestMagnitude (digits * 10 ^ scale.toNat) (10 ^ (-scale).toNat) := by
    -- what the power below the line gains
    have hgain : ∃ c, k + (scale - k).toNat = scale.toNat + c ∧
        (-(scale - k)).toNat = (-scale).toNat + c :=
      ⟨(-(scale - k)).toNat - (-scale).toNat, by omega, by omega⟩
    obtain ⟨c, habove, hbelow⟩ := hgain
    rw [Nat.mul_assoc, ← Nat.pow_add, habove, hbelow, Nat.pow_add, Nat.pow_add, ← Nat.mul_assoc,
      nearestMagnitude_mul_right _ (Nat.pow_pos (by decide)) (Nat.pow_pos (by decide))]
  unfold decimalMagnitude
  simp only [hplaces, hnearest, hne, hdigits.ne', false_or]

/-- Digits that read back as a number do so on the grid they were found on. -/
theorem decimalMagnitude_of_digitsAt? {scale : Int} {digits : Nat}
    (h : x.digitsAt? scale = some digits) : decimalMagnitude digits scale = x.magnitude := by
  unfold digitsAt? at h
  dsimp only at h
  split at h
  · next hbelow habove =>
    split at h
    · cases h
      simpa using hbelow
    · cases h
      simpa using habove
  · next hbelow _ =>
    cases h
    simpa using hbelow
  · next _ habove =>
    cases h
    simpa using habove
  · cases h

theorem mul_two_pow_lt {a b c d n : Nat} (ha : a ≤ b) (hc : c ≤ d) (h : b * 2 ^ d < n) :
    a * 2 ^ c < n :=
  (Nat.mul_le_mul ha (Nat.pow_le_pow_right (by decide) hc)).trans_lt h

theorem two_pow_le {c d n : Nat} (hc : c ≤ d) (h : 2 ^ d ≤ n) : 2 ^ c ≤ n :=
  (Nat.pow_le_pow_right (by decide) hc).trans h

/-- How far the exponents of finite numbers reach. -/
theorem exponent_bounds (hx : x.isFinite) : -1074 ≤ x.exponent ∧ x.exponent ≤ 971 := by
  have hfinite : x.magnitude < 2047 * 2 ^ 52 := of_decide_eq_true hx
  have hdiv : x.magnitude / 2 ^ 52 < 2047 := Nat.div_lt_of_lt_mul (by rwa [Nat.mul_comm])
  unfold exponent
  omega

/-- The digits of a finite number keep within the places that are looked at. -/
theorem exactDigits_places (hx : x.isFinite) (h : x.magnitude ≠ 0) :
    -330 ≤ ((Text.ofNat x.exactDigits.1).length : Int) + x.exactDigits.2 ∧
      ((Text.ofNat x.exactDigits.1).length : Int) + x.exactDigits.2 ≤ 310 := by
  have hsig := significand_pos h
  have hsig' : x.significand < 2 ^ 53 := by
    obtain ⟨hlt, -⟩ | ⟨-, hlt, -⟩ := x.significand_cases <;> omega
  obtain ⟨hlow, hhigh⟩ := exponent_bounds hx
  have hdigits : x.exactDigits.1 =
      x.significand * 2 ^ x.exponent.toNat * 5 ^ (-x.exponent).toNat := rfl
  have hscale : x.exactDigits.2 = min 0 x.exponent := rfl
  have hfew : (Text.ofNat x.exactDigits.1).length ≤ 310 + (-x.exponent).toNat := by
    rw [Text.length_ofNat_le_iff (by omega), hdigits, pow_add]
    have hfive : 5 ^ (-x.exponent).toNat ≤ 10 ^ (-x.exponent).toNat :=
      Nat.pow_le_pow_left (by decide) _
    have hexp : x.exponent.toNat ≤ 971 := by omega
    have hbound : x.significand * 2 ^ x.exponent.toNat < 10 ^ 310 :=
      mul_two_pow_lt hsig'.le hexp (by decide +kernel)
    exact Nat.mul_lt_mul_of_lt_of_le hbound hfive (Nat.pow_pos (by decide))
  have hmany : (-x.exponent).toNat ≤ 330 + (Text.ofNat x.exactDigits.1).length := by
    by_contra hshort
    have hlength : 0 < (Text.ofNat x.exactDigits.1).length := Nat.length_toDigits_pos
    have hbelow := (Text.length_ofNat_le_iff hlength).1 (Nat.le_refl _)
    have hfives : 5 ^ (-x.exponent).toNat ≤ x.exactDigits.1 := by
      rw [hdigits]
      exact Nat.le_mul_of_pos_left _ (Nat.mul_pos hsig (Nat.pow_pos (by decide)))
    have hexp : (-x.exponent).toNat ≤ 1074 := by omega
    have htwos : 2 ^ (-x.exponent).toNat ≤ 10 ^ 331 :=
      two_pow_le hexp (by decide +kernel)
    -- so few digits would not make up the fives of the places after the point
    have htens : 10 ^ (-x.exponent).toNat < 10 ^ (-x.exponent).toNat := calc
      10 ^ (-x.exponent).toNat = 5 ^ (-x.exponent).toNat * 2 ^ (-x.exponent).toNat := by
        rw [← Nat.mul_pow]
      _ < 10 ^ (Text.ofNat x.exactDigits.1).length * 10 ^ 331 :=
        Nat.mul_lt_mul_of_lt_of_le (hfives.trans_lt hbelow) htwos (by positivity)
      _ ≤ 10 ^ (-x.exponent).toNat := by
        rw [← pow_add]
        exact Nat.pow_le_pow_right (by decide) (by omega)
    exact Nat.lt_irrefl _ htens
  rw [hscale]
  omega

/-- The exact digits of a finite number are rounded back to it. -/
theorem decimalMagnitude_exactDigits (hx : x.isFinite) (h : x.magnitude ≠ 0) :
    decimalMagnitude x.exactDigits.1 x.exactDigits.2 = x.magnitude := by
  obtain ⟨hlow, hhigh⟩ := exactDigits_places hx h
  have hne : x.exactDigits.1 ≠ 0 := by
    have := significand_pos h
    simp [exactDigits]
    omega
  have hfive : 0 < 5 ^ (-x.exponent).toNat := Nat.pow_pos (by decide)
  have hnearest : nearestMagnitude (x.exactDigits.1 * 10 ^ x.exactDigits.2.toNat)
      (10 ^ (-x.exactDigits.2).toNat) = x.magnitude := by
    have hscale : (min 0 x.exponent).toNat = 0 ∧
        (-min 0 x.exponent).toNat = (-x.exponent).toNat := by
      omega
    have hten : 10 ^ (-x.exponent).toNat =
        2 ^ (-x.exponent).toNat * 5 ^ (-x.exponent).toNat := by
      rw [← Nat.mul_pow]
    rw [exactDigits, hscale.1, hscale.2, Nat.pow_zero, Nat.mul_one, hten,
      nearestMagnitude_mul_right _ (Nat.pow_pos (by decide)) hfive]
    exact nearestMagnitude_ratio hx h
  have hinside : ¬(x.exactDigits.1 = 0 ∨
      ((Text.ofNat x.exactDigits.1).length : Int) + x.exactDigits.2 < -330) := by omega
  rw [decimalMagnitude, if_neg hinside, if_neg (by omega), hnearest]

/-- **The digits of a finite number read back as it**, also where no short ones do. -/
theorem decimalMagnitude_shortestDigits (hx : x.isFinite) (h : x.magnitude ≠ 0) :
    decimalMagnitude x.shortestDigits.1 x.shortestDigits.2 = x.magnitude := by
  unfold shortestDigits
  dsimp only
  cases hfound : (List.range 17).findSome? fun i =>
      (x.digitsAt? (pointPosition x.ratio.1 x.ratio.2 - (i + 1 : Nat))).map
        (·, pointPosition x.ratio.1 x.ratio.2 - (i + 1 : Nat)) with
  | none => exact decimalMagnitude_exactDigits hx h
  | some found =>
    obtain ⟨i, -, hi⟩ := List.exists_of_findSome?_eq_some hfound
    obtain ⟨digits, hdigits, rfl⟩ := Option.map_eq_some_iff.1 hi
    exact decimalMagnitude_of_digitsAt? hdigits

/-! ## digits -/

/-- A natural number is read back from its digits. -/
theorem readDigits_ofNat (n : Nat) : readDigits (Text.ofNat n) = n := Nat.ofDigitChars_ten_toDigits

/-- Zeros behind the digits multiply by powers of ten. -/
theorem readDigits_append_zeros (t : Text) (k : Nat) :
    readDigits (t ++ List.replicate k '0') = readDigits t * 10 ^ k := by
  rw [readDigits, Nat.ofDigitChars_append, Nat.ofDigitChars_replicate_zero, Nat.mul_comm,
    readDigits]

/-- Zeros in front of the digits change nothing. -/
theorem readDigits_zeros_append (t : Text) (k : Nat) :
    readDigits (List.replicate k '0' ++ t) = readDigits t := by
  rw [readDigits, Nat.ofDigitChars_append, Nat.ofDigitChars_replicate_zero, Nat.mul_zero,
    readDigits]

theorem all_isDigit_ofNat (n : Nat) : (Text.ofNat n).all Char.isDigit :=
  List.all_eq_true.2 fun _ hc => Nat.isDigit_of_mem_toDigits (by decide) (by decide) hc

theorem all_isDigit_zeros (k : Nat) : (List.replicate k '0').all Char.isDigit := by
  simp [List.all_replicate]

/-! ## placement -/

/-- The text of digits before and after a point, which is left out before no digits. -/
def pointed (whole fraction : Text) : Text :=
  if fraction.isEmpty then whole else whole ++ '.' :: fraction

/-- A text that is nothing but digits, with a point among them perhaps, and stands for a
magnitude. -/
structure Spells (whole fraction : Text) (magnitude : Nat) : Prop where
  nonempty : whole ≠ []
  whole_digits : whole.all Char.isDigit
  fraction_digits : fraction.all Char.isDigit
  value : decimalMagnitude (readDigits (whole ++ fraction)) (-fraction.length) = magnitude

/-- Only zeros are dropped at the end of the digits. -/
theorem exists_dropZeros (t : Text) : ∃ k, t = dropZeros t ++ List.replicate k '0' := by
  refine ⟨(t.reverse.takeWhile (· == '0')).length, ?_⟩
  have hzeros : t.reverse.takeWhile (· == '0') =
      List.replicate (t.reverse.takeWhile (· == '0')).length '0' :=
    List.eq_replicate_of_mem fun c hc => by
      simpa using List.all_eq_true.1 List.all_takeWhile c hc
  have hsplit := congrArg List.reverse
    (List.takeWhile_append_dropWhile (p := (· == '0')) (l := t.reverse))
  rw [List.reverse_append, List.reverse_reverse] at hsplit
  rw [dropZeros, ← List.reverse_replicate, ← hzeros, hsplit]

/-- Digits before the point are followed by the zeros of their scale. -/
theorem exists_positional_natCast {digits : Nat} (hdigits : 0 < digits) (zeros : Nat) :
    ∃ whole fraction, positional digits zeros = pointed whole fraction ∧
      Spells whole fraction (decimalMagnitude digits zeros) := by
  refine ⟨Text.ofNat digits ++ List.replicate zeros '0', [], ?_, ?_, ?_, rfl, ?_⟩
  · simp [positional, pointed]
  · exact List.append_ne_nil_of_left_ne_nil Nat.toDigits_ne_nil _
  · rw [List.all_append, all_isDigit_ofNat, all_isDigit_zeros]
    rfl
  · rw [List.append_nil, readDigits_append_zeros, readDigits_ofNat]
    have hvalue := decimalMagnitude_mul_pow hdigits zeros zeros
    rwa [Int.sub_self] at hvalue

/-- Digits on both sides of the point are padded in front, and lose the zeros at their end. -/
theorem exists_positional_neg {digits places : Nat} (hdigits : 0 < digits) (hplaces : 0 < places) :
    ∃ whole fraction, positional digits (-places) = pointed whole fraction ∧
      Spells whole fraction (decimalMagnitude digits (-places)) := by
  let padded := List.replicate (places + 1 - (Text.ofNat digits).length) '0' ++ Text.ofNat digits
  let whole := padded.take (padded.length - places)
  let full := padded.drop (padded.length - places)
  obtain ⟨k, hk⟩ := exists_dropZeros full
  have hpadded : whole ++ full = padded := List.take_append_drop ..
  have hlength : places < padded.length := by
    simp [padded]
    omega
  have hfull : (dropZeros full).length + k = places := by
    have hdrop : full.length = places := by
      simp [full]
      omega
    rw [hk] at hdrop
    simpa using hdrop
  have hall : whole.all Char.isDigit ∧ (dropZeros full).all Char.isDigit := by
    have hall : (whole ++ full).all Char.isDigit := by
      rw [hpadded, List.all_append, all_isDigit_ofNat, all_isDigit_zeros]
      rfl
    rw [hk, List.all_append, List.all_append, Bool.and_eq_true, Bool.and_eq_true] at hall
    exact ⟨hall.1, hall.2.1⟩
  have hvalue : readDigits (whole ++ dropZeros full) * 10 ^ k = digits := by
    rw [← readDigits_append_zeros, List.append_assoc, ← hk, hpadded, readDigits_zeros_append,
      readDigits_ofNat]
  have hpos : 0 < readDigits (whole ++ dropZeros full) := by
    refine Nat.pos_of_ne_zero fun h => ?_
    rw [h, Nat.zero_mul] at hvalue
    omega
  refine ⟨whole, dropZeros full, ?_, ?_, hall.1, hall.2, ?_⟩
  · rw [positional, if_neg (by omega), neg_neg, Int.toNat_natCast]
    rfl
  · refine List.ne_nil_of_length_pos ?_
    rw [List.length_take]
    omega
  · have hscaled := decimalMagnitude_mul_pow hpos k (-(dropZeros full).length)
    rw [hvalue] at hscaled
    rw [← hscaled]
    congr 1
    omega

/-- Placed digits spell what the digits and their scale are worth. -/
theorem exists_positional {digits : Nat} (hdigits : 0 < digits) (scale : Int) :
    ∃ whole fraction, positional digits scale = pointed whole fraction ∧
      Spells whole fraction (decimalMagnitude digits scale) := by
  by_cases hscale : 0 ≤ scale
  · rw [← Int.toNat_of_nonneg hscale]
    exact exists_positional_natCast hdigits scale.toNat
  · obtain ⟨places, rfl⟩ : ∃ places : Nat, scale = -places := ⟨scale.natAbs, by omega⟩
    exact exists_positional_neg hdigits (by omega)

/-- A finite number is written as digits that read back as it. -/
theorem exists_unsignedText (hx : x.isFinite) :
    ∃ whole fraction, x.unsignedText = pointed whole fraction ∧
      Spells whole fraction x.magnitude := by
  rw [unsignedText]
  split
  · next h =>
    rw [h]
    exact ⟨['0'], [], rfl, by decide, rfl, rfl, rfl⟩
  · next h =>
    have hmagnitude := decimalMagnitude_shortestDigits hx h
    have hdigits : 0 < x.shortestDigits.1 := by
      refine Nat.pos_of_ne_zero fun hzero => h ?_
      rw [← hmagnitude, hzero, decimalMagnitude, if_pos (.inl rfl)]
    rw [← hmagnitude]
    exact exists_positional hdigits x.shortestDigits.2

/-! ## reading back -/

/-- Where a digit comes first there is no sign. -/
theorem takeSign_digit {c : Char} (hc : c.isDigit) (t : Text) :
    takeSign (c :: t) = (false, c :: t) := by
  unfold takeSign
  split
  · next h =>
    obtain ⟨rfl, -⟩ := List.cons.inj h
    cases hc
  · next h =>
    obtain ⟨rfl, -⟩ := List.cons.inj h
    cases hc
  · rfl

/-- The parts of a numeral without exponent are found again. -/
theorem ofText_pointed {whole fraction : Text} (negative : Bool) (hnonempty : whole ≠ [])
    (hwhole : whole.all Char.isDigit) (hfraction : fraction.all Char.isDigit) :
    Numeral.ofText (if negative then '-' :: pointed whole fraction else pointed whole fraction) =
      ⟨negative, whole, fraction, none, []⟩ := by
  have hsign : takeSign (if negative then '-' :: pointed whole fraction
      else pointed whole fraction) = (negative, pointed whole fraction) := by
    cases negative with
    | true => rfl
    | false =>
      obtain ⟨c, w, rfl⟩ := List.exists_cons_of_ne_nil hnonempty
      have hc : c.isDigit := List.all_eq_true.1 hwhole c (List.mem_cons_self ..)
      have hpointed : ∃ t, pointed (c :: w) fraction = c :: t := by
        unfold pointed
        split
        · exact ⟨w, rfl⟩
        · exact ⟨w ++ '.' :: fraction, rfl⟩
      obtain ⟨t, ht⟩ := hpointed
      rw [ht]
      exact takeSign_digit hc t
  unfold Numeral.ofText
  rw [hsign]
  dsimp only
  cases fraction with
  | nil =>
    obtain ⟨htake, hdrop⟩ := Text.span_append hwhole [] rfl
    rw [List.append_nil] at htake hdrop
    simp [pointed, htake, hdrop]
  | cons c f =>
    obtain ⟨htake, hdrop⟩ := Text.span_append hwhole ('.' :: c :: f) rfl
    obtain ⟨htake', hdrop'⟩ := Text.span_append hfraction [] rfl
    rw [List.append_nil] at htake' hdrop'
    simp only [pointed, List.isEmpty_cons, Bool.false_eq_true, if_false, htake, hdrop, htake',
      hdrop']

/-- A number is made of its sign and its magnitude. -/
theorem ofMagnitude_magnitude (x : Number) : ofMagnitude x.isNegative x.magnitude = x := by
  have hlt := x.bits.toNat_lt
  have hbits : (if x.isNegative then 2 ^ 63 + x.magnitude else x.magnitude) = x.bits.toNat := by
    simp only [isNegative, magnitude, decide_eq_true_eq]
    split <;> omega
  rw [ofMagnitude, hbits, UInt64.ofNat_toNat]

/-- The text of a finite number: the sign of a negative one, and the text without it. -/
theorem text_of_isFinite (hx : x.isFinite) :
    x.text = if x.isNegative then '-' :: x.unsignedText else x.unsignedText := by
  have hnan : x.isNaN = false := by
    simp [isNaN, isFinite] at hx ⊢
    omega
  rw [text, hnan, if_neg Bool.false_ne_true]

/-- **A finite number is read back from its text**, sign and all. -/
theorem ofNumeral_text (hx : x.isFinite) : ofNumeral x.text = x := by
  obtain ⟨whole, fraction, htext, hspells⟩ := exists_unsignedText hx
  rw [ofNumeral, text_of_isFinite hx, htext, ofText_pointed _ hspells.nonempty
    hspells.whole_digits hspells.fraction_digits, Numeral.value, ofDecimal]
  simp only [Numeral.power, Int.zero_sub, hspells.value]
  exact ofMagnitude_magnitude x

/-! ## 32-bit integers -/

/-- A sign and digits are read as the integer they make, if that is one of 32 bits. -/
theorem int32?_eq_some {ds : Text} {i : Int32} (negative : Bool) (hnonempty : ds ≠ [])
    (hds : ds.all Char.isDigit)
    (hi : i.toInt = if negative then -(readDigits ds : Int) else readDigits ds) :
    int32? (if negative then '-' :: ds else ds) = some i := by
  have hempty : ds.isEmpty = false := by simpa using hnonempty
  have hrange : -(2 ^ 31) ≤ i.toInt ∧ i.toInt < 2 ^ 31 := ⟨i.le_toInt, i.toInt_lt⟩
  cases negative with
  | true =>
    simp only [if_true] at hi ⊢
    simp only [int32?, hempty, hds, ← hi, hrange, and_self, if_true, Int32.ofInt_toInt]
    rfl
  | false =>
    obtain ⟨c, w, rfl⟩ := List.exists_cons_of_ne_nil hnonempty
    have hc : c ≠ '-' := by
      rintro rfl
      simp at hds
    simp only [Bool.false_eq_true, if_false] at hi ⊢
    unfold int32?
    split
    next negative ds hparts =>
    split at hparts
    · next h => exact absurd (List.cons.inj h).1 hc
    · cases hparts
      simp only [hempty, hds, ← hi, hrange, and_self, if_true, if_false, Bool.false_eq_true,
        Int32.ofInt_toInt]
      rfl

/-- **A 32-bit integer is read back from its text.** -/
theorem int32?_ofInt (i : Int32) : int32? (Text.ofInt i.toInt) = some i := by
  have hspelling : Text.ofInt i.toInt = if decide (i.toInt < 0) then
      '-' :: Text.ofNat i.toInt.natAbs else Text.ofNat i.toInt.natAbs := by
    simp [Text.ofInt]
  rw [hspelling]
  refine int32?_eq_some _ Nat.toDigits_ne_nil (all_isDigit_ofNat _) ?_
  simp only [readDigits_ofNat, decide_eq_true_eq]
  split <;> omega

end Number

end Intension
