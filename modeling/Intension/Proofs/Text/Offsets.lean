import Intension.Proofs.Text.Utf8
import Mathlib.Tactic.SplitIfs

/-!
# Intension.Proofs.Text.Offsets

Offsets into a text.  A text may be cut at an offset that lies between two of its
characters or at one of its ends; anywhere else there is nothing to be had from it
(`from?`, `slice?`).  Single bytes may be looked at everywhere: those of ASCII
characters show these characters and the others show none, so what is counted byte
by byte among ASCII characters is counted character by character
(`takeWhile_byteChars`).
-/

namespace Intension.Text

/-! ## cutting at an offset -/

/-- The text from an offset on; `none` past the end or inside a character. -/
def from? : Nat → Text → Option Text
  | 0, t => some t
  | _ + 1, [] => none
  | n + 1, c :: t => if c.utf8Size ≤ n + 1 then from? (n + 1 - c.utf8Size) t else none

/-- The first bytes of a text; `none` if there are fewer or they end inside a character. -/
def upTo? : Nat → Text → Option Text
  | 0, _ => some []
  | _ + 1, [] => none
  | n + 1, c :: t =>
    if c.utf8Size ≤ n + 1 then (upTo? (n + 1 - c.utf8Size) t).map (c :: ·) else none

/-- The text between two offsets. -/
def slice? (start stop : Nat) (t : Text) : Option Text :=
  if start ≤ stop then (t.from? start).bind (upTo? (stop - start)) else none

/-- The offset is not past the end of the text and not inside a character. -/
def OnBoundary (t : Text) (n : Nat) : Prop := (t.from? n).isSome

instance (t : Text) (n : Nat) : Decidable (t.OnBoundary n) :=
  inferInstanceAs (Decidable ((t.from? n).isSome = true))

variable {t rest : Text} {n : Nat}

/-- Past a character, what stands at an offset is found in the rest. -/
theorem from?_cons (n : Nat) (c : Char) (t : Text) :
    from? (c.utf8Size + n) (c :: t) = t.from? n := by
  have hpos := c.utf8Size_pos
  generalize hk : c.utf8Size + n = k
  cases k with
  | zero => omega
  | succ k => rw [from?, if_pos (by omega), ← hk, Nat.add_sub_cancel_left]

/-- Past a character, what stands before an offset is found in the rest. -/
theorem upTo?_cons (n : Nat) (c : Char) (t : Text) :
    upTo? (c.utf8Size + n) (c :: t) = (t.upTo? n).map (c :: ·) := by
  have hpos := c.utf8Size_pos
  generalize hk : c.utf8Size + n = k
  cases k with
  | zero => omega
  | succ k => rw [upTo?, if_pos (by omega), ← hk, Nat.add_sub_cancel_left]

theorem from?_zero (t : Text) : t.from? 0 = some t := by
  cases t <;> rfl

/-- Behind a front stands the rest. -/
theorem from?_append (front rest : Text) : (front ++ rest).from? front.byteLength = some rest := by
  induction front with
  | nil => exact from?_zero rest
  | cons c front ih => rw [byteLength_cons, List.cons_append, from?_cons, ih]

/-- Before a rest stands the front. -/
theorem upTo?_append (front rest : Text) : (front ++ rest).upTo? front.byteLength = some front := by
  induction front with
  | nil => cases rest <;> rfl
  | cons c front ih =>
    rw [byteLength_cons, List.cons_append, upTo?_cons, ih]
    rfl

/-- What is left from an offset on is what comes after as many bytes. -/
theorem from?_eq_some_iff :
    t.from? n = some rest ↔ ∃ front, t = front ++ rest ∧ byteLength front = n := by
  constructor
  · intro h
    fun_induction from? n t with
    | case1 t => exact ⟨[], (Option.some.inj h), rfl⟩
    | case2 => cases h
    | case3 n c t hle ih =>
      obtain ⟨front, rfl, hfront⟩ := ih h
      exact ⟨c :: front, rfl, by rw [byteLength_cons, hfront]; omega⟩
    | case4 => cases h
  · rintro ⟨front, rfl, rfl⟩
    exact from?_append front rest

/-- Past a part of what is left, what comes after it is left. -/
theorem from?_add {s : Text} (h : t.from? n = some (s ++ rest)) :
    t.from? (n + s.byteLength) = some rest := by
  obtain ⟨front, rfl, rfl⟩ := from?_eq_some_iff.1 h
  exact from?_eq_some_iff.2 ⟨front ++ s, (List.append_assoc ..).symm, byteLength_append front s⟩

/-- What is left of what is left. -/
theorem from?_trans {m : Nat} {last : Text} (h : t.from? n = some rest)
    (hrest : rest.from? m = some last) : t.from? (n + m) = some last := by
  obtain ⟨front, rfl, rfl⟩ := from?_eq_some_iff.1 hrest
  exact from?_add h

/-- What stands at an offset may be cut out. -/
theorem slice?_of_from? {s : Text} (h : t.from? n = some (s ++ rest)) :
    t.slice? n (n + s.byteLength) = some s := by
  rw [slice?, if_pos (Nat.le_add_right _ _), h, Option.bind_some, Nat.add_sub_cancel_left,
    upTo?_append]

/-- An offset and the length of what stands there make up the length of the text. -/
theorem byteLength_of_from? (h : t.from? n = some rest) :
    t.byteLength = n + rest.byteLength := by
  obtain ⟨front, rfl, rfl⟩ := from?_eq_some_iff.1 h
  exact byteLength_append front rest

namespace OnBoundary

/-- Where something stands there is a boundary. -/
theorem of_from? (h : t.from? n = some rest) : t.OnBoundary n := by
  rw [OnBoundary, h, Option.isSome_some]

/-- A boundary lies within the text. -/
theorem le (h : t.OnBoundary n) : n ≤ t.byteLength := by
  obtain ⟨rest, hrest⟩ := Option.isSome_iff_exists.1 h
  have := byteLength_of_from? hrest
  omega

theorem zero (t : Text) : t.OnBoundary 0 := of_from? t.from?_zero

theorem byteLength (t : Text) : t.OnBoundary t.byteLength := by
  have h := from?_append t []
  rw [List.append_nil] at h
  exact of_from? h

/-- A boundary of what is left is one of the whole text. -/
theorem add {m : Nat} (h : t.from? n = some rest) (hm : rest.OnBoundary m) :
    t.OnBoundary (n + m) := by
  obtain ⟨last, hlast⟩ := Option.isSome_iff_exists.1 hm
  exact of_from? (from?_trans h hlast)

end OnBoundary

/-! ## single bytes -/

/-- The bytes of a text, each as the character of its value. -/
def byteChars (t : Text) : List Char := t.bytes.map fun b => Char.ofNat b.toNat

/-- The property is one of ASCII characters only. -/
def Ascii (p : Char → Bool) : Prop := ∀ c, p c → c.toNat < 128

theorem Ascii.eq_false {p : Char → Bool} (hp : Ascii p) {c : Char} (hc : ¬ c.toNat < 128) :
    p c = false := Bool.eq_false_iff.2 fun h => hc (hp c h)

theorem byteChars_append (s t : Text) : (s ++ t).byteChars = s.byteChars ++ t.byteChars := by
  rw [byteChars, bytes_append, List.map_append, byteChars, byteChars]

/-- There are as many bytes as the text is long. -/
theorem length_byteChars (t : Text) : t.byteChars.length = t.byteLength := by
  rw [byteChars, List.length_map, length_bytes]

/-- The bytes from a boundary on are those of what stands there. -/
theorem drop_byteChars (h : t.from? n = some rest) : t.byteChars.drop n = rest.byteChars := by
  obtain ⟨front, rfl, rfl⟩ := from?_eq_some_iff.1 h
  rw [byteChars_append, ← length_byteChars, List.drop_left]

theorem byteChars_cons_of_ascii {c : Char} (hc : c.toNat < 128) (t : Text) :
    byteChars (c :: t) = c :: byteChars t := by
  have hv : c.val.toNat ≤ 127 := Nat.le_of_lt_succ hc
  have hencode : String.utf8EncodeChar c = [UInt8.ofNat c.toNat] := by
    rw [String.utf8EncodeChar, if_pos hv]
    rfl
  have hback : Char.ofNat (UInt8.ofNat c.toNat).toNat = c := by
    rw [UInt8.toNat_ofNat', Nat.mod_eq_of_lt (by omega), Char.ofNat_toNat]
  rw [byteChars, bytes, List.flatMap_cons, hencode, List.map_append, List.map_singleton, hback]
  rfl

/-- A character of more than one byte starts with a byte that is no ASCII character. -/
theorem byteChars_cons_of_not_ascii {c : Char} (hc : ¬ c.toNat < 128) (t : Text) :
    ∃ x more, byteChars (c :: t) = x :: more ∧ ¬ x.toNat < 128 := by
  have hv : ¬ c.val.toNat ≤ 127 := fun h => hc (Nat.lt_succ_of_le h)
  obtain ⟨n, more, hencode, hlow, hhigh⟩ : ∃ n more,
      String.utf8EncodeChar c = UInt8.ofNat n :: more ∧ 128 ≤ n ∧ n < 256 := by
    rw [String.utf8EncodeChar, if_neg hv]
    split_ifs
    · exact ⟨_, _, rfl, by omega, by omega⟩
    · exact ⟨_, _, rfl, by omega, by omega⟩
    · exact ⟨_, _, rfl, by omega, by omega⟩
  have hbyte : (UInt8.ofNat n).toNat = n := by
    rw [UInt8.toNat_ofNat', Nat.mod_eq_of_lt hhigh]
  refine ⟨Char.ofNat (UInt8.ofNat n).toNat, more.map (fun b => Char.ofNat b.toNat) ++ byteChars t,
    ?_, ?_⟩
  · rw [byteChars, bytes, List.flatMap_cons, hencode, List.map_append]
    rfl
  · have hn : (Char.ofNat n).toNat = n := Utf8.toNat_val_ofNat (.inl (by omega))
    rw [hbyte, hn]
    omega

/-- ASCII characters in a row are counted by their bytes. -/
theorem takeWhile_byteChars {p : Char → Bool} (hp : Ascii p) (t : Text) :
    t.byteChars.takeWhile p = t.takeWhile p := by
  induction t with
  | nil => rfl
  | cons c t ih =>
    by_cases hc : c.toNat < 128
    · rw [byteChars_cons_of_ascii hc, List.takeWhile_cons, List.takeWhile_cons, ih]
    · obtain ⟨x, more, hx, hxascii⟩ := byteChars_cons_of_not_ascii hc t
      rw [hx, List.takeWhile_cons_of_neg (by simp [hp.eq_false hxascii]),
        List.takeWhile_cons_of_neg (by simp [hp.eq_false hc])]

/-- Whether a byte is a certain ASCII character is whether the character at its place is. -/
theorem any_head?_byteChars {p : Char → Bool} (hp : Ascii p) (t : Text) :
    t.byteChars.head?.any p = t.head?.any p := by
  cases t with
  | nil => rfl
  | cons c t =>
    by_cases hc : c.toNat < 128
    · rw [byteChars_cons_of_ascii hc]
      rfl
    · obtain ⟨x, more, hx, hxascii⟩ := byteChars_cons_of_not_ascii hc t
      rw [hx]
      exact (hp.eq_false hxascii).trans (hp.eq_false hc).symm

/-- The bytes of ASCII characters show all of them. -/
theorem byteChars_of_ascii {p : Char → Bool} (hp : Ascii p) {t : Text} (ht : ∀ c ∈ t, p c) :
    t.byteChars = t := by
  induction t with
  | nil => rfl
  | cons c t ih =>
    obtain ⟨hc, ht⟩ := List.forall_mem_cons.1 ht
    rw [byteChars_cons_of_ascii (hp c hc), ih ht]

/-- ASCII characters are as many as their bytes. -/
theorem byteLength_of_ascii {p : Char → Bool} (hp : Ascii p) {t : Text} (ht : ∀ c ∈ t, p c) :
    t.byteLength = t.length := by
  rw [← length_byteChars, byteChars_of_ascii hp ht]

/-- ASCII characters at the front of a text are as many bytes. -/
theorem from?_length_takeWhile {p : Char → Bool} (hp : Ascii p) (t : Text) :
    t.from? (t.takeWhile p).length = some (t.dropWhile p) := by
  have h := from?_append (t.takeWhile p) (t.dropWhile p)
  rwa [List.takeWhile_append_dropWhile,
    byteLength_of_ascii hp (List.all_eq_true.1 List.all_takeWhile)] at h

end Intension.Text
