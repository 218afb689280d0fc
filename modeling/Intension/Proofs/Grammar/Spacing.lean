import Intension.Proofs.Grammar.Acceptance
import Intension.Proofs.Grammar.Extent

/-!
# Intension.Proofs.Grammar.Spacing

White space between tokens.  Two texts are `Respaced` if they have one sequence of
tokens, each cut from where it stands in the first text, with any white space before,
between and after them, but with some between two tokens that have some in the first
text.  The tokens of the second text are then the same (`Respaced.lexes`), and as all
that is read depends on the tokens alone, the places of faults aside, so is what
the texts spell.
-/

namespace Intension

open Text (Sooner Loose)

/-- White space only. -/
def Text.Blank (w : Text) : Prop := ∀ c ∈ w, Token.isSpace c

instance : DecidablePred Text.Blank :=
  fun w => decidable_of_iff (w.all Token.isSpace) List.all_eq_true

/-- The second text is the first one with other white space around its tokens.  If some stands
between two tokens of the first, some does in the second. -/
inductive Respaced : Text → Text → Prop where
  | blank {w v : Text} (hw : w.Blank) (hv : v.Blank) : Respaced w v
  | token {w v s rest rest' : Text} {token : Token} (hw : w.Blank) (hv : v.Blank)
      (cut : Token.CutFrom token (s ++ rest) rest) (apart : Loose rest → Loose rest')
      (more : Respaced rest rest') : Respaced (w ++ (s ++ rest)) (v ++ (s ++ rest'))

/-- Two readings give the same, or fail with the same fault, if perhaps in different places. -/
def ReadAlike {α : Type} (x y : Except ParseError α) : Prop :=
  x.mapError ParseError.fault = y.mapError ParseError.fault

/-! ## the tokens of respaced texts -/

namespace Text

theorem blank_nil : Blank [] := fun _ h => nomatch h

/-- One more white space character in front leaves a text blank. -/
theorem Blank.cons {c : Char} {w : Text} (hc : Token.isSpace c) (hw : w.Blank) : Blank (c :: w) :=
  List.forall_mem_cons.2 ⟨hc, hw⟩

/-- Any text is loose after white space. -/
theorem Blank.loose_append {w : Text} (hw : w.Blank) (h : w ≠ []) (t : Text) : Loose (w ++ t) := by
  obtain ⟨c, w, rfl⟩ := List.exists_cons_of_ne_nil h
  exact loose_cons (hw c (List.mem_cons_self ..)) (w ++ t)

/-- A blank text begins with white space, if with anything. -/
theorem Blank.loose {w : Text} (hw : w.Blank) : Loose w :=
  fun c hc => hw c (List.mem_of_mem_head? hc)

end Text

/-- White space gives no token. -/
theorem lexes_blank {w : Text} (hw : w.Blank) (rest : Text) : Lexes w [] rest := by
  induction w with
  | nil => exact lexes_nil rest
  | cons c w ih =>
    obtain ⟨hc, hw⟩ := List.forall_mem_cons.1 hw
    intro offset done
    obtain ⟨offset', lexemes, hlexemes, heq⟩ := ih hw (offset + 1) done
    refine ⟨offset', lexemes, hlexemes, ?_⟩
    rw [List.cons_append, Lexeme.ofTextFrom, if_pos hc, heq]

namespace Respaced

variable {t t' : Text}

/-- White space that stands in front of both texts changes nothing. -/
theorem cons_space {c : Char} (hc : Token.isSpace c) (h : Respaced t t') :
    Respaced (c :: t) (c :: t') := by
  cases h with
  | blank hw hv => exact .blank (hw.cons hc) (hv.cons hc)
  | token hw hv cut apart more => exact .token (hw.cons hc) (hv.cons hc) cut apart more

/-- A text that is cut into tokens is made of them and white space. -/
theorem of_ofTextFrom {offset : Nat} {done lexemes : List Lexeme}
    (h : Lexeme.ofTextFrom offset done t = .ok lexemes) : Respaced t t := by
  fun_induction Lexeme.ofTextFrom offset done t with
  | case1 => exact .blank Text.blank_nil Text.blank_nil
  | case2 offset done c t hspace ih => exact (ih h).cons_space hspace
  | case3 => cases h
  | case4 offset done c t hspace cut hnext _ ih =>
    obtain ⟨s, hs, -⟩ := Token.ends_next hnext
    have hcut : Token.CutFrom cut.token ((c :: s) ++ cut.rest) cut.rest :=
      ⟨c, t, cut.width, congrArg (c :: ·) hs.symm, Bool.eq_false_iff.2 hspace, hnext⟩
    have hrespaced := Respaced.token Text.blank_nil Text.blank_nil hcut id (ih h)
    rw [hs]
    exact hrespaced

/-- White space is not further away in the respaced text if it starts with some where the other one
does. -/
theorem sooner (h : Respaced t t') (apart : Loose t → Loose t') : Sooner t' t := by
  induction h with
  | blank _ hv => exact hv.loose.sooner _
  | @token w v s rest rest' _ hw hv _ hrest _ ih =>
    by_cases hloose : Loose (v ++ (s ++ rest'))
    · exact hloose.sooner _
    · -- no white space stands before the token, neither in the one text nor in the other
      obtain rfl : w = [] :=
        Classical.byContradiction fun hne => hloose (apart (hw.loose_append hne _))
      obtain rfl : v = [] :=
        Classical.byContradiction fun hne => hloose (hv.loose_append hne _)
      exact (ih hrest).append s

/-- **Respaced texts have the same tokens.** -/
theorem lexes (h : Respaced t t') : ∃ tokens, Lexes t tokens [] ∧ Lexes t' tokens [] := by
  induction h with
  | blank hw hv => exact ⟨[], lexes_blank hw [], lexes_blank hv []⟩
  | @token w v s rest rest' token hw hv cut apart more ih =>
    obtain ⟨tokens, hrest, hrest'⟩ := ih
    have hlexes {r u : Text} (hcut : Token.CutFrom token (s ++ r) r) (hu : u.Blank)
        (hr : Lexes r tokens []) : Lexes (u ++ (s ++ r)) (token :: tokens) [] := by
      rw [← List.append_nil r] at hcut
      exact (lexes_blank hu _).append (hcut.lexes.append hr)
    exact ⟨token :: tokens, hlexes cut hw hrest, hlexes (cut.sooner (more.sooner apart)) hv hrest'⟩

end Respaced

/-! ## reading the same tokens -/

namespace ReadAlike

variable {α β : Type}

theorem refl (x : Except ParseError α) : ReadAlike x x := rfl

theorem error (offset offset' : Nat) (fault : ParseFault) :
    ReadAlike (.error ⟨offset, fault⟩ : Except ParseError α) (.error ⟨offset', fault⟩) := rfl

/-- Two readings that agree go on alike. -/
theorem bind {x y : Except ParseError α} {f g : α → Except ParseError β} (h : ReadAlike x y)
    (hfg : ∀ a, ReadAlike (f a) (g a)) : ReadAlike (x >>= f) (y >>= g) := by
  cases x with
  | error e =>
    cases y with
    | error e' => exact congrArg Except.error (Except.error.inj h)
    | ok => cases h
  | ok a =>
    cases y with
    | error => cases h
    | ok b =>
      obtain rfl : a = b := Except.ok.inj h
      exact hfg a

/-- What is made of the result is alike. -/
theorem map {x y : Except ParseError α} (h : ReadAlike x y) (f : α → β) :
    ReadAlike (x.map f) (y.map f) := by
  cases x with
  | error e =>
    cases y with
    | error e' => exact congrArg Except.error (Except.error.inj h)
    | ok => cases h
  | ok a =>
    cases y with
    | error => cases h
    | ok b =>
      obtain rfl : a = b := Except.ok.inj h
      rfl

end ReadAlike

namespace Grammar

/-- Where tokens stand and how long the text is matters to the places of faults only. -/
theorem run_alike (angledOnly : Bool) (limits : Limits) (length length' : Nat)
    {lexemes lexemes' : List Lexeme} (h : lexemes.map Lexeme.token = lexemes'.map Lexeme.token)
    (progress : Progress) : ReadAlike (run angledOnly limits length progress lexemes)
      (run angledOnly limits length' progress lexemes') := by
  induction lexemes generalizing lexemes' progress with
  | nil =>
    obtain rfl := List.map_eq_nil_iff.1 h.symm
    cases progress with
    | within stack => exact .error ..
    | finished p => exact .refl _
  | cons l rest ih =>
    obtain ⟨l', rest', rfl, hl, hrest⟩ := List.map_eq_cons_iff.1 h.symm
    rw [run, run, hl, startsWithColon_eq, startsWithColon_eq, hrest]
    cases step angledOnly limits l.token (colonFirst (rest.map Lexeme.token)) progress with
    | error fault => exact .error ..
    | ok next => exact ih hrest.symm next

/-- A key is read alike from the same token in two places. -/
theorem ofLexeme_alike {l l' : Lexeme} (h : l'.token = l.token) :
    ReadAlike (Dimension.ofLexeme l) (Dimension.ofLexeme l') := by
  rw [Dimension.ofLexeme, Dimension.ofLexeme, h]
  cases Dimension.ofToken l.token with
  | error fault => exact .error ..
  | ok d => exact .refl _

/-- A path is read alike from the same tokens in other places. -/
theorem readPath_alike (length length' : Nat) {lexemes lexemes' : List Lexeme}
    (h : lexemes.map Lexeme.token = lexemes'.map Lexeme.token) :
    ReadAlike (readPath length lexemes) (readPath length' lexemes') := by
  fun_induction readPath length lexemes generalizing lexemes' with
  | case1 =>
    obtain rfl := List.map_eq_nil_iff.1 h.symm
    exact .refl _
  | case2 l =>
    obtain ⟨l', rfl, hl⟩ := List.map_eq_singleton_iff.1 h.symm
    exact (ofLexeme_alike hl).bind fun d => .refl _
  | case3 l colon rest ih =>
    obtain ⟨l', lexemes', rfl, hl, h'⟩ := List.map_eq_cons_iff.1 h.symm
    obtain ⟨colon', rest', rfl, hcolon, hrest⟩ := List.map_eq_cons_iff.1 h'
    have hempty : rest'.isEmpty = rest.isEmpty := by
      rw [← List.isEmpty_map, hrest, List.isEmpty_map]
    rw [readPath, hcolon, hempty]
    refine (ofLexeme_alike hl).bind fun d => ?_
    dsimp only
    by_cases hother : colon.token ≠ .colon
    · rw [if_pos hother, if_pos hother]
      exact .error ..
    · rw [if_neg hother, if_neg hother]
      cases rest.isEmpty with
      | true => exact .error ..
      | false => exact (ih hrest.symm).bind fun _ => .refl _

end Grammar

/-- **Texts with the same tokens are read alike**, whatever they are read as. -/
theorem parse_alike {t t' : Text} {lexemes lexemes' : List Lexeme}
    (h : Lexeme.ofText t = .ok lexemes) (h' : Lexeme.ofText t' = .ok lexemes')
    (htokens : lexemes.map Lexeme.token = lexemes'.map Lexeme.token) :
    (∀ limits, ReadAlike (Context.parse limits t) (Context.parse limits t')) ∧
    (∀ limits, ReadAlike (Patch.parse limits t) (Patch.parse limits t')) ∧
    ReadAlike (Dimension.parse t) (Dimension.parse t') ∧
    ReadAlike (Path.parse t) (Path.parse t') := by
  have hpatch (angledOnly : Bool) (limits : Limits) : ReadAlike
      (Grammar.readPatch angledOnly limits t) (Grammar.readPatch angledOnly limits t') := by
    rw [Grammar.readPatch, Grammar.readPatch, h, h']
    exact Grammar.run_alike angledOnly limits _ _ htokens _
  refine ⟨fun limits => (hpatch true limits).map _, hpatch false, ?_, ?_⟩
  · rw [Dimension.parse, Dimension.parse, h, h']
    match lexemes, htokens with
    | [], htokens =>
      obtain rfl := List.map_eq_nil_iff.1 htokens.symm
      exact .refl _
    | [l], htokens =>
      obtain ⟨l', rfl, hl⟩ := List.map_eq_singleton_iff.1 htokens.symm
      exact Grammar.ofLexeme_alike hl
    | l :: extra :: rest, htokens =>
      obtain ⟨l', lexemes', rfl, -, hmore⟩ := List.map_eq_cons_iff.1 htokens.symm
      obtain ⟨extra', rest', rfl, hextra, -⟩ := List.map_eq_cons_iff.1 hmore
      dsimp only [bind, Except.bind]
      rw [hextra]
      exact .error ..
  · rw [Path.parse, Path.parse, h, h']
    exact Grammar.readPath_alike _ _ htokens

/-- **White space between tokens means nothing.**  A text that is cut into tokens is made of them
and white space; any other white space before, between and after them, where some stays wherever it
stood between two tokens, leaves the tokens as they are, and what is read is the same, or the fault
is. -/
theorem alike_of_respaced {t : Text} {lexemes : List Lexeme} (h : Lexeme.ofText t = .ok lexemes) :
    Respaced t t ∧ ∀ t', Respaced t t' →
      (∃ lexemes', Lexeme.ofText t' = .ok lexemes' ∧
        lexemes'.map Lexeme.token = lexemes.map Lexeme.token) ∧
      (∀ limits, ReadAlike (Context.parse limits t) (Context.parse limits t')) ∧
      (∀ limits, ReadAlike (Patch.parse limits t) (Patch.parse limits t')) ∧
      ReadAlike (Dimension.parse t) (Dimension.parse t') ∧
      ReadAlike (Path.parse t) (Path.parse t') := by
  refine ⟨.of_ofTextFrom h, fun t' ht' => ?_⟩
  obtain ⟨tokens, hlexes, hlexes'⟩ := ht'.lexes
  obtain ⟨same, hsame, htokens⟩ := hlexes.exists_ofText
  obtain ⟨lexemes', hlexemes', htokens'⟩ := hlexes'.exists_ofText
  obtain rfl : same = lexemes := Except.ok.inj (hsame.symm.trans h)
  exact ⟨⟨lexemes', hlexemes', htokens'.trans htokens.symm⟩,
    parse_alike h hlexemes' (htokens.trans htokens'.symm)⟩

/-- A path with white space in a literal, before a colon and nowhere else, and then around all its
tokens. -/
theorem alike_of_respaced_path :
    let t := "\"a b\":-1 :e".toList
    let t' := " \"a b\"\t:\n-1\r\n: e ".toList
    Respaced t t' ∧ (Path.parse t).toOption.map Path.text = some "\"a b\":-1:e".toList ∧
      ReadAlike (Path.parse t) (Path.parse t') := by
  intro t t'
  have hend : Respaced [] [' '] := .blank (by decide) (by decide)
  have hname : Respaced ['e'] " e ".toList :=
    .token (w := []) (v := [' ']) (s := ['e']) (by decide) (by decide)
      ⟨'e', _, _, rfl, rfl, rfl⟩ (by decide) hend
  have hcolon : Respaced " :e".toList "\r\n: e ".toList :=
    .token (w := [' ']) (v := ['\r', '\n']) (s := [':']) (by decide) (by decide)
      ⟨':', _, _, rfl, rfl, rfl⟩ (by decide) hname
  have hinteger : Respaced "-1 :e".toList "\n-1\r\n: e ".toList :=
    .token (w := []) (v := ['\n']) (s := ['-', '1']) (by decide) (by decide)
      ⟨'-', _, _, rfl, rfl, rfl⟩ (by decide) hcolon
  have hcolon : Respaced ":-1 :e".toList "\t:\n-1\r\n: e ".toList :=
    .token (w := []) (v := ['\t']) (s := [':']) (by decide) (by decide)
      ⟨':', _, _, rfl, rfl, rfl⟩ (by decide) hinteger
  have hrespaced : Respaced t t' :=
    .token (w := []) (v := [' ']) (s := "\"a b\"".toList) (by decide) (by decide)
      ⟨'"', _, _, rfl, rfl, rfl⟩ (by decide) hcolon
  obtain ⟨tokens, hlexes, -⟩ := hrespaced.lexes
  obtain ⟨lexemes, hlexemes, -⟩ := hlexes.exists_ofText
  obtain ⟨-, hsame⟩ := alike_of_respaced hlexemes
  obtain ⟨-, -, -, -, hpath⟩ := hsame t' hrespaced
  exact ⟨hrespaced, by decide +kernel, hpath⟩

end Intension
