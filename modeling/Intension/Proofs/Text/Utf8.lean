import Intension.Text.Utf8

/-!
# Intension.Proofs.Text.Utf8

Reading UTF-8 and writing it are inverse to each other: the bytes of a text are
read as that text (`decode_bytes`), and bytes that are read at all are those of
the text they give (`bytes_of_decode`), so no text has a second encoding.

Both go character by character.  A character takes one to four bytes, and for
each of these there is a lemma that reads them (`decodeFrom_two`, …) and one that
they are what the character is written as (`utf8EncodeChar_two`, …).
-/

namespace Intension.Utf8

/-! ## one byte -/

/-- What a first byte promises, by the number of bytes that follow. -/
theorem lead_eq (b : Nat) : lead b =
    if 0xC2 ≤ b ∧ b ≤ 0xDF then some ⟨1, 0x80, 0xBF, b % 32, 1⟩
    else if 0xE0 ≤ b ∧ b ≤ 0xEF then
      some ⟨2, if b = 0xE0 then 0xA0 else 0x80, if b = 0xED then 0x9F else 0xBF, b % 16, 1⟩
    else if 0xF0 ≤ b ∧ b ≤ 0xF4 then
      some ⟨3, if b = 0xF0 then 0x90 else 0x80, if b = 0xF4 then 0x8F else 0xBF, b % 8, 1⟩
    else none := by
  grind [lead]

/-- Three bytes encode no surrogate and nothing that two could. -/
theorem second_of_three_iff {a b : Nat} :
    ((if a = 0xE0 then 0xA0 else 0x80) ≤ b ∧ b ≤ if a = 0xED then 0x9F else 0xBF) ↔
      (0x80 ≤ b ∧ b ≤ 0xBF) ∧ (a = 0xE0 → 0xA0 ≤ b) ∧ (a = 0xED → b ≤ 0x9F) := by
  grind

/-- Four bytes encode nothing that three could and nothing above the last code point. -/
theorem second_of_four_iff {a b : Nat} :
    ((if a = 0xF0 then 0x90 else 0x80) ≤ b ∧ b ≤ if a = 0xF4 then 0x8F else 0xBF) ↔
      (0x80 ≤ b ∧ b ≤ 0xBF) ∧ (a = 0xF0 → 0x90 ≤ b) ∧ (a = 0xF4 → b ≤ 0x8F) := by
  grind

section

variable {p : Pending} {start : Nat} {done : List Char} {b : UInt8} {bs : List UInt8} {t : Text}

/-- A byte below 0x80 is a character. -/
theorem decodeFrom_ascii (hb : b.toNat < 0x80) : decodeFrom none start done (b :: bs) =
    decodeFrom none (start + 1) (Char.ofNat b.toNat :: done) bs := by
  rw [decodeFrom, if_pos hb]

/-- A lead byte starts a longer character. -/
theorem decodeFrom_lead (hb : ¬b.toNat < 0x80) (hp : lead b.toNat = some p) :
    decodeFrom none start done (b :: bs) = decodeFrom (some p) start done bs := by
  rw [decodeFrom, if_neg hb, hp]

/-- The last byte that is owed completes the character. -/
theorem decodeFrom_last (hb : p.low ≤ b.toNat ∧ b.toNat ≤ p.high) (howed : p.owed = 1) :
    decodeFrom (some p) start done (b :: bs) =
      decodeFrom none (start + p.seen + 1)
        (Char.ofNat (p.value * 64 + b.toNat % 64) :: done) bs := by
  rw [decodeFrom, if_pos hb, if_pos howed]

/-- A byte in the range expected is taken in, with others still owed. -/
theorem decodeFrom_more (hb : p.low ≤ b.toNat ∧ b.toNat ≤ p.high) (howed : p.owed ≠ 1) :
    decodeFrom (some p) start done (b :: bs) =
      decodeFrom (some ⟨p.owed - 1, 0x80, 0xBF, p.value * 64 + b.toNat % 64, p.seen + 1⟩)
        start done bs := by
  rw [decodeFrom, if_pos hb, if_neg howed]

/-- A pending character goes on with a byte in its range. -/
theorem exists_of_decodeFrom_some (h : decodeFrom (some p) start done bs = .ok t) :
    ∃ b rest, bs = b :: rest ∧ p.low ≤ b.toNat ∧ b.toNat ≤ p.high := by
  cases bs with
  | nil => cases h
  | cons b rest =>
    rw [decodeFrom] at h
    split at h
    · next hb => exact ⟨b, rest, rfl, hb⟩
    · cases h

end

/-! ## one character -/

section

variable {a b c d : UInt8} {start : Nat} {done : List Char} {bs : List UInt8} {t : Text}

/-- A character of two bytes, taken in at once. -/
theorem decodeFrom_two (ha : 0xC2 ≤ a.toNat ∧ a.toNat ≤ 0xDF)
    (hb : 0x80 ≤ b.toNat ∧ b.toNat ≤ 0xBF) : decodeFrom none start done (a :: b :: bs) =
      decodeFrom none (start + 2) (Char.ofNat (a.toNat % 32 * 64 + b.toNat % 64) :: done) bs := by
  have hlead : lead a.toNat = some ⟨1, 0x80, 0xBF, a.toNat % 32, 1⟩ := by rw [lead_eq, if_pos ha]
  rw [decodeFrom_lead (by omega) hlead, decodeFrom_last hb rfl]

/-- A character of three bytes, taken in at once. -/
theorem decodeFrom_three (ha : 0xE0 ≤ a.toNat ∧ a.toNat ≤ 0xEF)
    (hb : 0x80 ≤ b.toNat ∧ b.toNat ≤ 0xBF) (hlow : a.toNat = 0xE0 → 0xA0 ≤ b.toNat)
    (hhigh : a.toNat = 0xED → b.toNat ≤ 0x9F) (hc : 0x80 ≤ c.toNat ∧ c.toNat ≤ 0xBF) :
    decodeFrom none start done (a :: b :: c :: bs) = decodeFrom none (start + 3)
      (Char.ofNat ((a.toNat % 16 * 64 + b.toNat % 64) * 64 + c.toNat % 64) :: done) bs := by
  have hlead := lead_eq a.toNat
  rw [if_neg (by omega), if_pos ha] at hlead
  rw [decodeFrom_lead (by omega) hlead,
    decodeFrom_more (second_of_three_iff.2 ⟨hb, hlow, hhigh⟩) (by simp), decodeFrom_last hc rfl]

/-- A character of four bytes, taken in at once. -/
theorem decodeFrom_four (ha : 0xF0 ≤ a.toNat ∧ a.toNat ≤ 0xF4)
    (hb : 0x80 ≤ b.toNat ∧ b.toNat ≤ 0xBF) (hlow : a.toNat = 0xF0 → 0x90 ≤ b.toNat)
    (hhigh : a.toNat = 0xF4 → b.toNat ≤ 0x8F) (hc : 0x80 ≤ c.toNat ∧ c.toNat ≤ 0xBF)
    (hd : 0x80 ≤ d.toNat ∧ d.toNat ≤ 0xBF) :
    decodeFrom none start done (a :: b :: c :: d :: bs) = decodeFrom none (start + 4)
      (Char.ofNat (((a.toNat % 8 * 64 + b.toNat % 64) * 64 + c.toNat % 64) * 64 + d.toNat % 64)
        :: done) bs := by
  have hlead := lead_eq a.toNat
  rw [if_neg (by omega), if_neg (by omega), if_pos ha] at hlead
  rw [decodeFrom_lead (by omega) hlead,
    decodeFrom_more (second_of_four_iff.2 ⟨hb, hlow, hhigh⟩) (by simp),
    decodeFrom_more hc (by simp), decodeFrom_last hd rfl]

end

/-- Reading the encoding of a character gives that character. -/
theorem decodeFrom_char (c : Char) (start : Nat) (done : List Char) (bs : List UInt8) :
    decodeFrom none start done (String.utf8EncodeChar c ++ bs) =
      decodeFrom none (start + c.utf8Size) (c :: done) bs := by
  have hvalid : c.val.toNat < 0xD800 ∨ 0xDFFF < c.val.toNat ∧ c.val.toNat < 0x110000 := c.valid
  have hc : Char.ofNat c.val.toNat = c := Char.ofNat_toNat c
  have hbyte : ∀ n < 256, (UInt8.ofNat n).toNat = n := fun n hn => by
    rw [UInt8.toNat_ofNat', Nat.mod_eq_of_lt hn]
  rw [← String.length_utf8EncodeChar]
  fun_cases String.utf8EncodeChar c
  · next v h1 =>
    have ha := hbyte v (by omega)
    rw [List.singleton_append, decodeFrom_ascii (by omega), ha, hc]
    rfl
  · next v h1 h2 =>
    have ha := hbyte (v / 64 % 32 + 192) (by omega)
    have hb := hbyte (v % 64 + 128) (by omega)
    have hv : (v / 64 % 32 + 192) % 32 * 64 + (v % 64 + 128) % 64 = v := by omega
    rw [List.cons_append, List.singleton_append, decodeFrom_two (by omega) (by omega), ha, hb, hv,
      hc]
    rfl
  · next v h1 h2 h3 =>
    have ha := hbyte (v / 4096 % 16 + 224) (by omega)
    have hb := hbyte (v / 64 % 64 + 128) (by omega)
    have hc' := hbyte (v % 64 + 128) (by omega)
    have hv : ((v / 4096 % 16 + 224) % 16 * 64 + (v / 64 % 64 + 128) % 64) * 64 +
        (v % 64 + 128) % 64 = v := by omega
    rw [List.cons_append, List.cons_append, List.singleton_append,
      decodeFrom_three (by omega) (by omega) (by omega) (by omega) (by omega), ha, hb, hc', hv, hc]
    rfl
  · next v h1 h2 h3 =>
    have ha := hbyte (v / 262144 % 8 + 240) (by omega)
    have hb := hbyte (v / 4096 % 64 + 128) (by omega)
    have hc' := hbyte (v / 64 % 64 + 128) (by omega)
    have hd := hbyte (v % 64 + 128) (by omega)
    have hv : (((v / 262144 % 8 + 240) % 8 * 64 + (v / 4096 % 64 + 128) % 64) * 64 +
        (v / 64 % 64 + 128) % 64) * 64 + (v % 64 + 128) % 64 = v := by omega
    rw [List.cons_append, List.cons_append, List.cons_append, List.singleton_append,
      decodeFrom_four (by omega) (by omega) (by omega) (by omega) (by omega) (by omega),
      ha, hb, hc', hd, hv, hc]
    rfl

theorem toNat_val_ofNat {n : Nat} (h : n.isValidChar) : (Char.ofNat n).val.toNat = n := by
  rw [Char.ofNat, dif_pos h]
  rfl

section

variable {a b c d : UInt8}

theorem utf8EncodeChar_one (ha : a.toNat < 0x80) :
    String.utf8EncodeChar (Char.ofNat a.toNat) = [a] := by
  have hn := toNat_val_ofNat (n := a.toNat) (.inl (by omega))
  simp only [String.utf8EncodeChar, hn]
  rw [if_pos (by omega), UInt8.ofNat_toNat]

/-- The character that two bytes are decoded to is encoded to them. -/
theorem utf8EncodeChar_two (ha : 0xC2 ≤ a.toNat ∧ a.toNat ≤ 0xDF)
    (hb : 0x80 ≤ b.toNat ∧ b.toNat ≤ 0xBF) :
    String.utf8EncodeChar (Char.ofNat (a.toNat % 32 * 64 + b.toNat % 64)) = [a, b] := by
  generalize hv : a.toNat % 32 * 64 + b.toNat % 64 = v
  have hn := toNat_val_ofNat (n := v) (.inl (by omega))
  have ha' : v / 64 % 32 + 192 = a.toNat := by omega
  have hb' : v % 64 + 128 = b.toNat := by omega
  simp only [String.utf8EncodeChar, hn]
  rw [if_neg (by omega), if_pos (by omega), ha', hb', UInt8.ofNat_toNat, UInt8.ofNat_toNat]

/-- The character that three bytes are decoded to is encoded to them. -/
theorem utf8EncodeChar_three (ha : 0xE0 ≤ a.toNat ∧ a.toNat ≤ 0xEF)
    (hb : 0x80 ≤ b.toNat ∧ b.toNat ≤ 0xBF) (hlow : a.toNat = 0xE0 → 0xA0 ≤ b.toNat)
    (hhigh : a.toNat = 0xED → b.toNat ≤ 0x9F) (hc : 0x80 ≤ c.toNat ∧ c.toNat ≤ 0xBF) :
    String.utf8EncodeChar
      (Char.ofNat ((a.toNat % 16 * 64 + b.toNat % 64) * 64 + c.toNat % 64)) = [a, b, c] := by
  generalize hv : (a.toNat % 16 * 64 + b.toNat % 64) * 64 + c.toNat % 64 = v
  have hvalid : v < 0xD800 ∨ 0xDFFF < v ∧ v < 0x110000 := by omega
  have hn := toNat_val_ofNat hvalid
  have ha' : v / 4096 % 16 + 224 = a.toNat := by omega
  have hb' : v / 64 % 64 + 128 = b.toNat := by omega
  have hc' : v % 64 + 128 = c.toNat := by omega
  simp only [String.utf8EncodeChar, hn]
  rw [if_neg (by omega), if_neg (by omega), if_pos (by omega), ha', hb', hc', UInt8.ofNat_toNat,
    UInt8.ofNat_toNat, UInt8.ofNat_toNat]

/-- The character that four bytes are decoded to is encoded to them. -/
theorem utf8EncodeChar_four (ha : 0xF0 ≤ a.toNat ∧ a.toNat ≤ 0xF4)
    (hb : 0x80 ≤ b.toNat ∧ b.toNat ≤ 0xBF) (hlow : a.toNat = 0xF0 → 0x90 ≤ b.toNat)
    (hhigh : a.toNat = 0xF4 → b.toNat ≤ 0x8F) (hc : 0x80 ≤ c.toNat ∧ c.toNat ≤ 0xBF)
    (hd : 0x80 ≤ d.toNat ∧ d.toNat ≤ 0xBF) :
    String.utf8EncodeChar (Char.ofNat
      (((a.toNat % 8 * 64 + b.toNat % 64) * 64 + c.toNat % 64) * 64 + d.toNat % 64)) =
        [a, b, c, d] := by
  generalize hv :
    ((a.toNat % 8 * 64 + b.toNat % 64) * 64 + c.toNat % 64) * 64 + d.toNat % 64 = v
  have hvalid : v < 0xD800 ∨ 0xDFFF < v ∧ v < 0x110000 := by omega
  have hn := toNat_val_ofNat hvalid
  have ha' : v / 262144 % 8 + 240 = a.toNat := by omega
  have hb' : v / 4096 % 64 + 128 = b.toNat := by omega
  have hc' : v / 64 % 64 + 128 = c.toNat := by omega
  have hd' : v % 64 + 128 = d.toNat := by omega
  simp only [String.utf8EncodeChar, hn]
  rw [if_neg (by omega), if_neg (by omega), if_neg (by omega), ha', hb', hc', hd',
    UInt8.ofNat_toNat, UInt8.ofNat_toNat, UInt8.ofNat_toNat, UInt8.ofNat_toNat]

end

/-- What is read first is the encoding of a character. -/
theorem exists_char_of_decodeFrom {a : UInt8} {start : Nat} {done : List Char} {bs : List UInt8}
    {t : Text} (h : decodeFrom none start done (a :: bs) = .ok t) :
    ∃ c rest, a :: bs = String.utf8EncodeChar c ++ rest := by
  by_cases ha : a.toNat < 0x80
  · exact ⟨_, bs, by rw [utf8EncodeChar_one ha]; rfl⟩
  cases hlead : lead a.toNat with
  | none =>
    rw [decodeFrom, if_neg ha, hlead] at h
    cases h
  | some p =>
    rw [decodeFrom_lead ha hlead] at h
    obtain ⟨b, bs, rfl, hb⟩ := exists_of_decodeFrom_some h
    rw [lead_eq] at hlead
    split at hlead
    · next ha2 =>
      cases hlead
      exact ⟨_, bs, by rw [utf8EncodeChar_two ha2 hb]; rfl⟩
    split at hlead
    · next ha3 =>
      cases hlead
      rw [decodeFrom_more hb (by simp)] at h
      obtain ⟨c, bs, rfl, hc⟩ := exists_of_decodeFrom_some h
      obtain ⟨hb, hlow, hhigh⟩ := second_of_three_iff.1 hb
      have henc := utf8EncodeChar_three ha3 hb hlow hhigh hc
      exact ⟨_, bs, by rw [henc]; rfl⟩
    split at hlead
    · next ha4 =>
      cases hlead
      rw [decodeFrom_more hb (by simp)] at h
      obtain ⟨c, bs, rfl, hc⟩ := exists_of_decodeFrom_some h
      rw [decodeFrom_more hc (by simp)] at h
      obtain ⟨d, bs, rfl, hd⟩ := exists_of_decodeFrom_some h
      obtain ⟨hb, hlow, hhigh⟩ := second_of_four_iff.1 hb
      have henc := utf8EncodeChar_four ha4 hb hlow hhigh hc hd
      exact ⟨_, bs, by rw [henc]; rfl⟩
    · cases hlead

/-! ## whole texts -/

/-- A text is decoded from its bytes, by induction on the text. -/
theorem decodeFrom_bytes (t : Text) (start : Nat) (done : List Char) :
    decodeFrom none start done (Text.bytes t) = .ok (done.reverse ++ t) := by
  induction t generalizing start done with
  | nil => rw [List.append_nil]; rfl
  | cons c t ih =>
    have hbytes : Text.bytes (c :: t) = String.utf8EncodeChar c ++ Text.bytes t := rfl
    rw [hbytes, decodeFrom_char, ih, List.reverse_cons, List.append_assoc, List.singleton_append]

/-- **Reading the bytes of a text gives the text.** -/
theorem decode_bytes (t : Text) : decode (Text.bytes t) = .ok t := decodeFrom_bytes t 0 []

/-- Whatever is decoded to a text is the bytes of this text. -/
theorem exists_bytes_of_decodeFrom {start : Nat} {done : List Char} {bs : List UInt8} {t : Text}
    (h : decodeFrom none start done bs = .ok t) :
    ∃ s, bs = Text.bytes s ∧ t = done.reverse ++ s := by
  induction hlength : bs.length using Nat.strongRecOn generalizing start done bs with
  | _ n ih =>
  cases bs with
  | nil =>
    cases h
    exact ⟨[], rfl, (List.append_nil _).symm⟩
  | cons b bs =>
    obtain ⟨c, rest, hrest⟩ := exists_char_of_decodeFrom h
    rw [hrest] at h hlength ⊢
    rw [decodeFrom_char] at h
    have hsize : rest.length < n := by
      have := c.utf8Size_pos
      rw [← hlength, List.length_append, String.length_utf8EncodeChar]
      omega
    obtain ⟨s, rfl, rfl⟩ := ih _ hsize h rfl
    refine ⟨c :: s, rfl, ?_⟩
    rw [List.reverse_cons, List.append_assoc, List.singleton_append]

/-- **Bytes that can be read are those of the text that is read.** -/
theorem bytes_of_decode {bs : List UInt8} {t : Text} (h : decode bs = .ok t) :
    Text.bytes t = bs := by
  obtain ⟨s, rfl, rfl⟩ := exists_bytes_of_decodeFrom h
  rfl

end Intension.Utf8
