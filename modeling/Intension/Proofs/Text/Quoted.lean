import Intension.Text.Basic
import Intension.Text.Quoted

/-!
# Intension.Proofs.Text.Quoted

Literals are read back: each character is escaped as one that a letter stands
for, or stands for itself, and the first quote that is not escaped is the last
character of the literal.  And bytes are read back from their hexadecimal digits.
-/

namespace Intension.Quoted

variable {c : Char}

/-- A character that is escaped is a backslash and a letter that stands for it. -/
theorem escape_cases (c : Char) :
    (escape c = [c] ∧ c ≠ '"' ∧ c ≠ '\\') ∨ ∃ l, escape c = ['\\', l] ∧ unescape? l = some c := by
  unfold escape
  split
  · exact .inr ⟨_, rfl, rfl⟩
  · exact .inr ⟨_, rfl, rfl⟩
  · exact .inr ⟨_, rfl, rfl⟩
  · exact .inr ⟨_, rfl, rfl⟩
  · exact .inr ⟨_, rfl, rfl⟩
  · next hbackslash hquote _ _ _ => exact .inl ⟨rfl, hquote, hbackslash⟩

/-- A character that needs no escape is read as it is. -/
theorem unquote_plain (hquote : c ≠ '"') (hbackslash : c ≠ '\\') (offset : Nat) (done t : Text) :
    unquote offset done (c :: t) = unquote (offset + c.utf8Size) (c :: done) t := by
  rw [unquote]
  · exact hquote
  · exact fun h => absurd h hbackslash
  · exact fun _ _ h => absurd h hbackslash

/-- An escape is read as the character that it stands for. -/
theorem unquote_escaped {l : Char} (h : unescape? l = some c) (offset : Nat) (done t : Text) :
    unquote offset done ('\\' :: l :: t) = unquote (offset + 1 + l.utf8Size) (c :: done) t := by
  rw [unquote, h]

/-- A text that was escaped is read on to the quote after it. -/
theorem unquote_flatMap_escape (offset : Nat) (done t rest : Text) :
    unquote offset done (t.flatMap escape ++ '"' :: rest) =
      .ok (done.reverse ++ t, offset + Text.byteLength (t.flatMap escape) + 1, rest) := by
  induction t generalizing offset done with
  | nil => simp [unquote]
  | cons c t ih =>
    obtain ⟨hc, hquote, hbackslash⟩ | ⟨l, hc, hl⟩ := escape_cases c
    · rw [List.flatMap_cons, hc, List.singleton_append, List.cons_append,
        unquote_plain hquote hbackslash, ih]
      simp [Nat.add_assoc]
    · have hsize : '\\'.utf8Size = 1 := rfl
      rw [List.flatMap_cons, hc, List.cons_append, List.singleton_append, List.cons_append,
        List.cons_append, unquote_escaped hl, ih]
      simp [Nat.add_assoc, hsize]

/-- **A literal is read back as the text it was made from.** -/
theorem unquote_quote (t rest : Text) :
    unquote 1 [] (t.flatMap escape ++ '"' :: rest) =
      .ok (t, Text.byteLength (quote t), rest) := by
  have hsize : '"'.utf8Size = 1 := rfl
  rw [unquote_flatMap_escape, quote]
  simp [hsize, Nat.add_comm]

end Intension.Quoted

namespace Intension.Hex

/-- A digit below sixteen is read back. -/
theorem value?_digit {n : Nat} (h : n < 16) : value? (digit n) = some n := by
  have hall : ∀ m : Fin 16, value? (digit m) = some m.val := by decide
  exact hall ⟨n, h⟩

theorem isDigit_digit {n : Nat} (h : n < 16) : isDigit 16 (digit n) := by
  simp [isDigit, value?_digit h, h]

/-- A digit is one byte. -/
theorem bytes_digit {n : Nat} (h : n < 16) :
    String.utf8EncodeChar (digit n) = [UInt8.ofNat (digit n).toNat] ∧
      Char.ofNat (UInt8.ofNat (digit n).toNat).toNat = digit n := by
  have hall : ∀ m : Fin 16, String.utf8EncodeChar (digit m) = [UInt8.ofNat (digit m).toNat] ∧
      Char.ofNat (UInt8.ofNat (digit m).toNat).toNat = digit m := by decide
  exact hall ⟨n, h⟩

theorem high_lt (b : UInt8) : b.toNat / 16 < 16 := by
  have := b.toNat_lt
  omega

theorem low_lt (b : UInt8) : b.toNat % 16 < 16 := Nat.mod_lt _ (by decide)

/-- Bytes are encoded in hexadecimal digits only. -/
theorem all_isDigit_encode (bs : List UInt8) : (encode bs).all (isDigit 16) := by
  induction bs with
  | nil => rfl
  | cons b bs ih =>
    rw [encode, List.flatMap_cons, List.all_append, ← encode, ih]
    simp [isDigit_digit (high_lt b), isDigit_digit (low_lt b)]

/-- Each byte is written as two, those of its digits. -/
theorem bytes_encode_cons (b : UInt8) (bs : List UInt8) :
    Text.bytes (encode (b :: bs)) = UInt8.ofNat (digit (b.toNat / 16)).toNat ::
      UInt8.ofNat (digit (b.toNat % 16)).toNat :: Text.bytes (encode bs) := by
  simp [encode, Text.bytes, bytes_digit (high_lt b), bytes_digit (low_lt b)]

/-- Encoded bytes are decoded back, by induction on the bytes. -/
theorem decodeFrom_encode (position : Nat) (done bs : List UInt8) :
    decodeFrom position done (Text.bytes (encode bs)) = .ok (done.reverse ++ bs) := by
  induction bs generalizing position done with
  | nil => simp [encode, Text.bytes, decodeFrom]
  | cons b bs ih =>
    have hbyte : UInt8.ofNat (b.toNat / 16 * 16 + b.toNat % 16) = b := by
      rw [Nat.div_add_mod', UInt8.ofNat_toNat]
    rw [bytes_encode_cons, decodeFrom, (bytes_digit (high_lt b)).2, (bytes_digit (low_lt b)).2,
      value?_digit (high_lt b), value?_digit (low_lt b)]
    dsimp only
    rw [hbyte, ih]
    simp

/-- Two digits encode a byte. -/
theorem length_bytes_encode (bs : List UInt8) :
    (Text.bytes (encode bs)).length = 2 * bs.length := by
  induction bs with
  | nil => rfl
  | cons b bs ih =>
    rw [bytes_encode_cons, List.length_cons, List.length_cons, ih, List.length_cons]
    omega

/-- **Bytes are read back from their digits.** -/
theorem decode_encode (bs : List UInt8) : decode (encode bs) = .ok bs := by
  have heven : ¬(Text.bytes (encode bs)).length % 2 = 1 := by
    rw [length_bytes_encode]
    omega
  rw [decode, if_neg heven, decodeFrom_encode]
  rfl

end Intension.Hex
