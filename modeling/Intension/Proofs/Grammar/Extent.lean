import Intension.Proofs.Grammar.Cutting
import Intension.Proofs.Grammar.Places

/-!
# Intension.Proofs.Grammar.Extent

How far tokens go.  A token is cut as long as it can be, and to tell where that is
a few characters after it are looked at, none of them past a white space.  So a
token ends where it ended if what follows it is put further away or cut short by
white space (`Sooner`), and otherwise reads the same: each cut is described by its
spelling and by how it goes with any such rest (`ends_next`).
-/

namespace Intension

/-! ## what stands before white space -/

/-- What stands in a text before its first white space. -/
def Text.lead (t : Text) : Text := t.takeWhile fun c => !Token.isSpace c

/-- White space or the end comes at least as soon in `t'` as in `t`, and up to there it reads
alike. -/
def Text.Sooner (t' t : Text) : Prop := t'.lead <+: t.lead

/-- A text that begins with white space, if with anything. -/
def Text.Loose (t : Text) : Prop := ∀ c ∈ t.head?, Token.isSpace c

namespace Text

variable {t t' : Text} {c : Char}

theorem lead_cons (hc : Token.isSpace c = false) (t : Text) : lead (c :: t) = c :: t.lead := by
  rw [lead, List.takeWhile_cons_of_pos (by rw [hc]; rfl)]
  rfl

/-- A text whose first character is white space is loose. -/
theorem loose_cons (hc : Token.isSpace c) (t : Text) : Loose (c :: t) := by
  rintro _ ⟨⟩
  exact hc

instance : DecidablePred Loose
  | [] => isTrue fun _ h => nomatch h
  | c :: t => decidable_of_iff (Token.isSpace c) ⟨fun hc => loose_cons hc t, fun h => h c rfl⟩

/-- Nothing stands before the white space that a loose text begins with. -/
theorem Loose.lead_eq_nil (h : t.Loose) : t.lead = [] := by
  cases t with
  | nil => rfl
  | cons c t => exact List.takeWhile_cons_of_neg (by rw [h c rfl]; decide)

/-- A loose text comes to white space sooner than any text. -/
theorem Loose.sooner (h : t'.Loose) (t : Text) : t'.Sooner t := by
  rw [Sooner, h.lead_eq_nil]
  exact List.nil_prefix

theorem Sooner.refl (t : Text) : t.Sooner t := List.prefix_refl _

/-- A character put in front of both texts keeps the one the sooner. -/
theorem Sooner.cons (h : t'.Sooner t) (c : Char) : Sooner (c :: t') (c :: t) := by
  cases hc : Token.isSpace c with
  | true =>
    have hloose : Loose (c :: t') := loose_cons hc t'
    exact hloose.sooner _
  | false =>
    rw [Sooner, lead_cons hc, lead_cons hc]
    exact List.cons_prefix_cons.2 ⟨rfl, h⟩

/-- A text put in front of both keeps the one the sooner. -/
theorem Sooner.append (h : t'.Sooner t) (s : Text) : Sooner (s ++ t') (s ++ t) := by
  induction s with
  | nil => exact h
  | cons c s ih => exact ih.cons c

/-- What comes first there and is no white space comes first here too. -/
theorem Sooner.exists_cons (h : Sooner (c :: t') t) (hc : Token.isSpace c = false) :
    ∃ u, t = c :: u ∧ t'.Sooner u := by
  rw [Sooner, lead_cons hc] at h
  cases t with
  | nil => exact absurd (List.prefix_nil.1 h) (List.cons_ne_nil _ _)
  | cons d u =>
    cases hd : Token.isSpace d with
    | true =>
      rw [(loose_cons hd u).lead_eq_nil] at h
      exact absurd (List.prefix_nil.1 h) (List.cons_ne_nil _ _)
    | false =>
      rw [lead_cons hd] at h
      obtain ⟨rfl, hu⟩ := List.cons_prefix_cons.1 h
      exact ⟨u, rfl, hu⟩

/-- A text that comes to white space no sooner than one with a spaceless front has the same front.
-/
theorem Sooner.exists_append {front : Text} (h : Sooner (front ++ t') t)
    (hfront : ∀ c ∈ front, Token.isSpace c = false) : ∃ u, t = front ++ u ∧ t'.Sooner u := by
  induction front generalizing t with
  | nil => exact ⟨t, rfl, h⟩
  | cons c front ih =>
    obtain ⟨hc, hfront⟩ := List.forall_mem_cons.1 hfront
    obtain ⟨u, rfl, hu⟩ := h.exists_cons hc
    obtain ⟨v, rfl, hv⟩ := ih hu hfront
    exact ⟨v, rfl, hv⟩

end Text

open Text (Sooner)

/-! ## literals -/

/-- A literal ends at its closing quote, whatever follows. -/
theorem Quoted.exists_of_unquote {offset width : Nat} {done t content rest : Text}
    (h : unquote offset done t = .ok (content, width, rest)) :
    ∃ s, t = s ++ rest ∧
      ∀ rest', unquote offset done (s ++ rest') = .ok (content, width, rest') := by
  fun_induction unquote offset done t with
  | case1 => cases h
  | case2 offset done rest' =>
    cases h
    exact ⟨['"'], rfl, fun rest' => by rw [List.singleton_append, unquote]⟩
  | case3 => cases h
  | case4 offset done c rest' d hd ih =>
    obtain ⟨s, rfl, hs⟩ := ih h
    exact ⟨'\\' :: c :: s, rfl, fun rest' => by
      rw [List.cons_append, List.cons_append, unquote_escaped hd, hs]⟩
  | case5 => cases h
  | case6 offset done c rest' hquote hlast hescape ih =>
    obtain ⟨s, rfl, hs⟩ := ih h
    have hbackslash : c ≠ '\\' := by
      rintro rfl
      cases hmore : s ++ rest with
      | nil => exact hlast rfl hmore
      | cons d more => exact hescape d more rfl hmore
    exact ⟨c :: s, rfl, fun rest' => by
      rw [List.cons_append, unquote_plain hquote hbackslash, hs]⟩

/-! ## runs of characters -/

namespace Token

/-- A way to cut a front off a text, which ends where it did as long as what follows comes to white
space no later. -/
structure Munches (cut : Text → Text × Text) : Prop where
  spells : ∀ t, (cut t).1 ++ (cut t).2 = t
  ends : ∀ t rest', Sooner rest' (cut t).2 → cut ((cut t).1 ++ rest') = ((cut t).1, rest')

/-- Two cuts made one after the other end where they did if each of them does. -/
theorem Munches.andThen {f g : Text → Text × Text} (hf : Munches f) (hg : Munches g) :
    Munches fun t => ((f t).1 ++ (g (f t).2).1, (g (f t).2).2) where
  spells t := by
    dsimp only
    rw [List.append_assoc, hg.spells, hf.spells]
  ends t rest' h := by
    have hsooner := h.append (g (f t).2).1
    rw [hg.spells] at hsooner
    dsimp only at h ⊢
    rw [List.append_assoc, hf.ends t _ hsooner, hg.ends _ _ h]

/-- Characters that are no white space are taken together with no more of those that follow now. -/
theorem span_sooner {p : Char → Bool} (hp : ∀ c, p c → isSpace c = false) {t rest' : Text}
    (h : Sooner rest' (t.dropWhile p)) :
    (t.takeWhile p ++ rest').takeWhile p = t.takeWhile p ∧
      (t.takeWhile p ++ rest').dropWhile p = rest' := by
  refine Text.span_append List.all_takeWhile rest' ?_
  cases rest' with
  | nil => rfl
  | cons c more =>
    cases hc : p c with
    | false => simp [hc]
    | true =>
      obtain ⟨u, hu, -⟩ := h.exists_cons (hp c hc)
      have hhead := List.head?_dropWhile_not p t
      rw [hu] at hhead
      simp [hc] at hhead

/-! ## numerals -/

theorem isSpace_of_isDigit : ∀ c : Char, c.isDigit → isSpace c = false :=
  isSpace_eq_false (by decide)

/-- A run of digits ends where it did. -/
theorem munches_digits :
    Munches fun t => (t.takeWhile Char.isDigit, t.dropWhile Char.isDigit) where
  spells t := List.takeWhile_append_dropWhile
  ends t rest' h := by
    obtain ⟨htake, hdrop⟩ := span_sooner isSpace_of_isDigit h
    exact Prod.ext htake hdrop

/-- What begins a part of a numeral, up to its first digit: where it stands, the part is there and
goes on with all digits that follow. -/
structure Opens (cut : Text → Text × Text) (front : Text) : Prop where
  nonempty : front ≠ []
  spaceless : ∀ c ∈ front, isSpace c = false
  cut_append : ∀ t, cut (front ++ t) =
    (front ++ t.takeWhile Char.isDigit, t.dropWhile Char.isDigit)

/-- A part that may be missing ends where its digits end; and if it is missing, then not for want of
what comes after white space. -/
theorem munches_of_opens {cut : Text → Text × Text} (hspells : ∀ t, (cut t).1 ++ (cut t).2 = t)
    (hcases : ∀ t, cut t = ([], t) ∨ ∃ front u, t = front ++ u ∧ Opens cut front) :
    Munches cut where
  spells := hspells
  ends t rest' h := by
    obtain hnone | ⟨front, u, rfl, hfront⟩ := hcases t
    · rw [hnone] at h ⊢
      obtain hnone' | ⟨front, u, rfl, hfront⟩ := hcases rest'
      · exact hnone'
      · -- what begins the part now was there before
        obtain ⟨v, rfl, -⟩ := h.exists_append hfront.spaceless
        rw [hfront.cut_append] at hnone
        exact absurd (List.append_eq_nil_iff.1 (Prod.mk.inj hnone).1).1 hfront.nonempty
    · rw [hfront.cut_append] at h ⊢
      obtain ⟨htake, hdrop⟩ := span_sooner isSpace_of_isDigit h
      dsimp only
      rw [List.append_assoc, hfront.cut_append, htake, hdrop]

/-- A point and a digit open a fraction. -/
theorem opens_fraction {c : Char} (hc : c.isDigit) : Opens cutFraction ['.', c] where
  nonempty := List.cons_ne_nil _ _
  spaceless := by simpa using ⟨rfl, isSpace_of_isDigit c hc⟩
  cut_append t := by
    change cutFraction ('.' :: c :: t) = _
    rw [cutFraction, if_pos hc, List.takeWhile_cons_of_pos hc, List.dropWhile_cons_of_pos hc]
    rfl

/-- A fraction ends where it did. -/
theorem munches_cutFraction : Munches cutFraction := by
  refine munches_of_opens (fun t => (numeric_cutFraction t).1) fun t => ?_
  fun_cases cutFraction t with
  | case1 c t hc => exact .inr ⟨['.', c], t, rfl, opens_fraction hc⟩
  | case2 => exact .inl rfl
  | case3 => exact .inl rfl

/-- A sign before a digit is cut off alone. -/
theorem cutSign_append {sign : Text} (hsign : sign = [] ∨ sign = ['+'] ∨ sign = ['-']) {d : Char}
    (hd : d.isDigit) (t : Text) : cutSign (sign ++ d :: t) = (sign, d :: t) := by
  obtain rfl | rfl | rfl := hsign
  · unfold cutSign
    split
    · next heq => cases heq; cases hd
    · next heq => cases heq; cases hd
    · rfl
  · rfl
  · rfl

/-- The letter, the sign if there is one, and a digit open an exponent. -/
theorem opens_exponent {c d : Char} {sign : Text} (hc : c = 'e' ∨ c = 'E')
    (hsign : sign = [] ∨ sign = ['+'] ∨ sign = ['-']) (hd : d.isDigit) :
    Opens cutExponent (c :: (sign ++ [d])) where
  nonempty := List.cons_ne_nil _ _
  spaceless := by
    have hletter : isSpace c = false := by obtain rfl | rfl := hc <;> rfl
    have hspaceless : ∀ c ∈ sign, isSpace c = false := by
      obtain rfl | rfl | rfl := hsign
      · exact List.forall_mem_nil _
      · exact List.forall_mem_singleton.2 rfl
      · exact List.forall_mem_singleton.2 rfl
    exact List.forall_mem_cons.2 ⟨hletter, List.forall_mem_append.2
      ⟨hspaceless, List.forall_mem_singleton.2 (isSpace_of_isDigit d hd)⟩⟩
  cut_append t := by
    have hletter : (c == 'e' || c == 'E') = true := by obtain rfl | rfl := hc <;> rfl
    rw [List.cons_append, List.append_assoc, List.singleton_append, cutExponent,
      cutSign_append hsign hd]
    simp [hletter, hd]

/-- An exponent ends where it did. -/
theorem munches_cutExponent : Munches cutExponent := by
  refine munches_of_opens (fun t => (numeric_cutExponent t).1) fun t => ?_
  fun_cases cutExponent t with
  | case1 => exact .inl rfl
  | case2 c t sign ds hs digits h =>
    obtain ⟨hletter, hdigits⟩ := Bool.and_eq_true_iff.1 h
    have hc : c = 'e' ∨ c = 'E' := by simpa using hletter
    have hsign : sign = [] ∨ sign = ['+'] ∨ sign = ['-'] := by
      unfold cutSign at hs
      split at hs <;> cases hs <;> simp
    obtain ⟨hspells, -⟩ := numeric_cutSign t
    rw [hs] at hspells
    cases ds with
    | nil => cases hdigits
    | cons d u =>
      cases hd : d.isDigit with
      | false => simp [digits, hd] at hdigits
      | true =>
        refine .inr ⟨c :: (sign ++ [d]), u, ?_, opens_exponent hc hsign hd⟩
        rw [← hspells]
        simp
  | case3 => exact .inl rfl

/-- A numeral ends where it did. -/
theorem munches_cutNumeral : Munches cutNumeral :=
  (munches_digits.andThen munches_cutFraction).andThen munches_cutExponent

/-! ## tokens -/

/-- The cut takes a spelling off the front of a text, and it takes off the same as long as what
follows comes to white space no later. -/
def Ends (cutting : Text → Except (Nat × Fault) Cut) (t : Text) (cut : Cut) : Prop :=
  ∃ s, t = s ++ cut.rest ∧
    ∀ rest', Sooner rest' cut.rest → cutting (s ++ rest') = .ok { cut with rest := rest' }

/-- The digits of bytes end where they did. -/
theorem ends_cutHex {make : List UInt8 → Token} {t : Text} {cut : Cut}
    (h : cutHex make t = .ok cut) : Ends (cutHex make) t cut := by
  have hspace : ∀ c, Hex.isDigit 16 c → isSpace c = false := isSpace_eq_false (by decide)
  unfold cutHex at h
  dsimp only at h
  split at h
  · next bytes hbytes =>
    cases h
    refine ⟨t.takeWhile (Hex.isDigit 16), List.takeWhile_append_dropWhile.symm, fun _ hrest => ?_⟩
    obtain ⟨htake, hdrop⟩ := span_sooner hspace hrest
    rw [cutHex, htake, hdrop, hbytes]
  · cases h

/-- A quoted text ends at its closing quote. -/
theorem ends_cutLiteral {t : Text} {cut : Cut} (h : cutLiteral t = .ok cut) :
    Ends cutLiteral t cut := by
  unfold cutLiteral at h
  split at h
  · next hread =>
    cases h
    obtain ⟨s, rfl, hs⟩ := Quoted.exists_of_unquote hread
    exact ⟨s, rfl, fun rest' _ => by rw [cutLiteral, hs]⟩
  · cases h
  · cases h

/-- An identifier ends where it did. -/
theorem ends_cutIdentifier (c : Char) (t : Text) :
    Ends (fun t => .ok (cutIdentifier c t)) t (cutIdentifier c t) := by
  have hspace : ∀ c, Identifier.isPart c → isSpace c = false := isSpace_eq_false (by decide)
  refine ⟨t.takeWhile Identifier.isPart, List.takeWhile_append_dropWhile.symm, fun _ hrest => ?_⟩
  obtain ⟨htake, hdrop⟩ := span_sooner hspace hrest
  simp only [cutIdentifier, htake, hdrop]

/-- A numeral that starts with a digit keeps it. -/
theorem exists_cutNumeral_cons {c : Char} (hc : c.isDigit) (t : Text) :
    ∃ s, (cutNumeral (c :: t)).1 = c :: s ∧ s ++ (cutNumeral (c :: t)).2 = t := by
  have hspells := munches_cutNumeral.spells (c :: t)
  have hfront : (c :: t).takeWhile Char.isDigit = c :: t.takeWhile Char.isDigit :=
    List.takeWhile_cons_of_pos hc
  obtain ⟨s, hs⟩ : ∃ s, (cutNumeral (c :: t)).1 = c :: s := by
    simp only [cutNumeral, hfront]
    exact ⟨_, rfl⟩
  rw [hs] at hspells
  exact ⟨s, hs, List.tail_eq_of_cons_eq hspells⟩

/-- A number ends where it did. -/
theorem ends_cutNumber {c : Char} (hc : c.isDigit) (t : Text) :
    Ends (fun t => .ok (cutNumber c t)) t (cutNumber c t) := by
  obtain ⟨s, hs, hspells⟩ := exists_cutNumeral_cons hc t
  refine ⟨s, hspells.symm, fun rest' hrest => ?_⟩
  have hends := munches_cutNumeral.ends (c :: t) rest' hrest
  rw [hs, List.cons_append] at hends
  simp only [cutNumber, hends, hs]

/-- A dash is a sign if a digit follows it, and otherwise goes with the dashes that follow it; no
digit comes up that was not there. -/
theorem ends_cutDash {t : Text} {cut : Cut} (h : cutDash t = .ok cut) : Ends cutDash t cut := by
  by_cases hsigned : ∃ c u, c.isDigit ∧ t = c :: u
  · obtain ⟨c, u, hc, rfl⟩ := hsigned
    rw [cutDash_of_isDigit hc] at h
    cases h
    obtain ⟨s, hs, -⟩ := exists_cutNumeral_cons hc u
    refine ⟨(cutNumeral (c :: u)).1, (munches_cutNumeral.spells _).symm, fun rest' hrest => ?_⟩
    have hends := munches_cutNumeral.ends (c :: u) rest' hrest
    rw [hs, List.cons_append] at hends ⊢
    rw [cutDash_of_isDigit hc, hends]
  · have hspace : ∀ c, (c == '-') = true → isSpace c = false := isSpace_eq_false (by decide)
    have hdigit {t' : Text} (ht' : Sooner t' t) : ∀ c ∈ t'.head?, c.isDigit = false := by
      intro c hc
      refine Bool.eq_false_iff.2 fun hc' => hsigned ?_
      cases t' with
      | nil => cases hc
      | cons d u' =>
        cases hc
        obtain ⟨u, hu, -⟩ := ht'.exists_cons (isSpace_of_isDigit c hc')
        exact ⟨c, u, hc', hu⟩
    rw [cutDash_of_not_isDigit (hdigit (.refl t))] at h
    split_ifs at h with hmore
    cases h
    refine ⟨t.takeWhile (· == '-'), List.takeWhile_append_dropWhile.symm, fun _ hrest => ?_⟩
    have hsooner := hrest.append (t.takeWhile (· == '-'))
    rw [List.takeWhile_append_dropWhile] at hsooner
    obtain ⟨htake, hdrop⟩ := span_sooner hspace hrest
    rw [cutDash_of_not_isDigit (hdigit hsooner), htake, hdrop, if_pos hmore]

/-! ## where tokens end -/

/-- **A token ends where it ended** as long as what follows it comes to white space no later. -/
theorem ends_next {c : Char} {t : Text} {cut : Cut} (h : next c t = .ok cut) :
    Ends (next c) t cut := by
  unfold next at h
  split at h
  · next token hpunctuation =>
    cases h
    exact ⟨[], rfl, fun rest' _ => by rw [List.nil_append, next, hpunctuation]⟩
  · next hpunctuation =>
    have hnext : next c = fun t => next c t := rfl
    simp only [hnext, next, hpunctuation]
    split_ifs at h ⊢ with hdash hdigit hquote hhash hat hstart
    · exact ends_cutDash h
    · cases h
      exact ends_cutNumber hdigit t
    · exact ends_cutLiteral h
    · exact ends_cutHex h
    · exact ends_cutHex h
    · cases h
      exact ends_cutIdentifier c t

/-- A token is cut off alike from any text that goes on to white space no later. -/
theorem CutFrom.sooner {token : Token} {s rest rest' : Text} (h : CutFrom token (s ++ rest) rest)
    (hrest : Sooner rest' rest) : CutFrom token (s ++ rest') rest' := by
  obtain ⟨c, more, width, heq, hspace, hnext⟩ := h
  obtain ⟨s', rfl, hends⟩ := ends_next hnext
  obtain rfl : s = c :: s' := List.append_cancel_right (heq.trans (List.cons_append ..).symm)
  exact ⟨c, s' ++ rest', width, rfl, hspace, hends rest' hrest⟩

end Token

end Intension
