import Intension.Proofs.Binary.Within
import Intension.Proofs.Grammar.Stability

/-!
# Intension.Proofs.Grammar.Bounds

What a text may grow to.  The machine that reads a text counts its levels below the
root and looks at no other limit, so a tree that was read is no larger than the
literals that spell it: a name is one that stands before a colon, and a payload one
that stands elsewhere.  If all of these keep to the limits (`Text.LiteralsFit`), then
so does what is read, and it is written under the same limits (`parse_bounded`).
-/

namespace Intension

/-! ## literals -/

/-- The bytes that a token holds as a name or as a payload, if it can be one. -/
def Token.literalLength : Token → Nat
  | .identifier t => Text.byteLength t
  | .literal t => Text.byteLength t
  | .binary bytes => bytes.length
  | .bound bytes => bytes.length
  | _ => 0

/-- A value read from a token is no longer than the literal of the token. -/
theorem Scalar.payloadLength_of_ofToken? {token : Token} {v : Scalar}
    (h : Scalar.ofToken? token = some v) : v.payloadLength = token.literalLength := by
  cases token <;> cases h <;> rfl

/-- A name read from a token is no longer than the literal of the token. -/
theorem Dimension.nameLength_of_ofToken {token : Token} {d : Dimension}
    (h : Dimension.ofToken token = .ok d) : d.nameLength = token.literalLength := by
  cases token with
  | numeral spelling =>
    rw [Dimension.ofToken] at h
    split at h <;> cases h
    rfl
  | _ => cases h <;> rfl

namespace Grammar

variable {limits : Limits}

/-- No literal among tokens is above its limit: before a colon that of names, and elsewhere that
of payloads. -/
def LiteralsFit (limits : Limits) : List Token → Prop
  | [] => True
  | token :: rest =>
    token.literalLength ≤
      (if colonFirst rest then limits.maxDimensionBytes else limits.maxPayloadBytes) ∧
    LiteralsFit limits rest

instance LiteralsFit.decidable (limits : Limits) :
    ∀ tokens, Decidable (LiteralsFit limits tokens)
  | [] => isTrue trivial
  | _ :: rest =>
    have := LiteralsFit.decidable limits rest
    inferInstanceAs (Decidable (_ ∧ _))

/-- Tokens that fit the limits still fit when the front is cut off. -/
theorem LiteralsFit.of_append {front rest : List Token} (h : LiteralsFit limits (front ++ rest)) :
    LiteralsFit limits rest := by
  induction front with
  | nil => exact h
  | cons token front ih => exact ih h.2

/-! ## literals of derivations -/

/-- The literals of a term are among those of its body, and no colon follows a base. -/
theorem LiteralsFit.of_mem {terms : List Term} {rest : List Token}
    (h : LiteralsFit limits (joined terms ++ rest)) (hrest : colonFirst rest = false) {t : Term}
    (ht : t ∈ terms) :
    ∃ after, colonFirst after = false ∧ LiteralsFit limits (t.tokens ++ after) := by
  induction terms with
  | nil => cases ht
  | cons u more ih =>
    by_cases hmore : more = []
    · subst hmore
      obtain rfl := List.mem_singleton.1 ht
      exact ⟨rest, hrest, h⟩
    · rw [joined_cons u hmore, List.append_assoc, List.cons_append] at h
      obtain rfl | ht := List.mem_cons.1 ht
      · exact ⟨_, rfl, h⟩
      · exact ih h.of_append.2 ht

/-- Each child of a node comes from one of its child terms. -/
theorem exists_mem_of_mem_entries {terms : List Term} {e : Dimension × Patch}
    (h : e ∈ entries terms) : ∃ spelled n, Term.child spelled e.1 n ∈ terms ∧ n.patch = e.2 := by
  induction terms with
  | nil => simp [entries] at h
  | cons t terms ih =>
    have hrest (h : e ∈ entries terms) :
        ∃ spelled n, Term.child spelled e.1 n ∈ t :: terms ∧ n.patch = e.2 := by
      obtain ⟨spelled, n, hmem, hn⟩ := ih h
      exact ⟨spelled, n, List.mem_cons_of_mem t hmem, hn⟩
    cases t with
    | marker count => exact hrest (by simpa [entries] using h)
    | base spelled v => exact hrest (by simpa [entries] using h)
    | child spelled d n =>
      rw [entries] at h
      obtain rfl | h := List.mem_cons.1 h
      · exact ⟨spelled, n, List.mem_cons_self .., rfl⟩
      · exact hrest h

/-- Each base value of a node comes from one of its base terms. -/
theorem exists_mem_of_mem_bases {terms : List Term} {v : Scalar} (h : v ∈ bases terms) :
    ∃ spelled, Term.base spelled v ∈ terms := by
  obtain ⟨t, ht, hv⟩ := List.mem_filterMap.1 h
  cases t with
  | marker count => cases hv
  | base spelled w =>
    obtain rfl : w = v := Option.some.inj hv
    exact ⟨spelled, ht⟩
  | child spelled d n => cases hv

/-- **What a derivation spells is within the limits if its literals are.** -/
theorem within_patch {n : Node} (h : n.WellFormed) {rest : List Token}
    (hfit : LiteralsFit limits (n.tokens ++ rest)) : n.patch.Within limits := by
  induction h generalizing rest with
  | @node angled terms fits inner ih =>
    rw [Node.tokens, List.cons_append, List.append_assoc] at hfit
    have hterm {t : Term} (ht : t ∈ terms) :
        ∃ after, colonFirst after = false ∧ LiteralsFit limits (t.tokens ++ after) :=
      hfit.2.of_mem (colonFirst_closing angled rest) ht
    -- each child is spelled by a term, whose literals are its name and those of a node
    have hchild : ∀ e ∈ placed (entries terms),
        e.1.nameLength ≤ limits.maxDimensionBytes ∧ e.2.Within limits := by
      intro e he
      obtain he | he := Keyed.mem_foldl_insert he
      · obtain ⟨spelled, n, hmem, hn⟩ := exists_mem_of_mem_entries he
        obtain ⟨after, -, hname, hnode⟩ := hterm hmem
        rw [← hn, Dimension.nameLength_of_ofToken (fits.denotes _ hmem)]
        exact ⟨hname, ih n (List.mem_filterMap.2 ⟨_, hmem, rfl⟩) hnode.2⟩
      · cases he
    refine .intro (fun v hv => ?_) (fun e he => (hchild e he).1) fun e he => (hchild e he).2
    obtain ⟨spelled, hmem⟩ := exists_mem_of_mem_bases (List.mem_of_head? hv)
    obtain ⟨after, hafter, hfit⟩ := hterm hmem
    rw [Term.tokens, List.singleton_append] at hfit
    have hpayload := hfit.1
    rw [hafter, if_neg Bool.false_ne_true] at hpayload
    rwa [Scalar.payloadLength_of_ofToken? (fits.denotes _ hmem)]

end Grammar

/-! ## whole texts -/

/-- No literal of a text is above its limit. -/
def Text.LiteralsFit (limits : Limits) (t : Text) : Prop :=
  ∀ lexemes ∈ (Lexeme.ofText t).toOption, Grammar.LiteralsFit limits (lexemes.map (·.token))

instance (limits : Limits) (t : Text) : Decidable (t.LiteralsFit limits) :=
  inferInstanceAs (Decidable (∀ lexemes ∈ (Lexeme.ofText t).toOption,
    Grammar.LiteralsFit limits (lexemes.map (·.token))))

variable {limits bounds : Limits} {t : Text}

/-- Whatever bounds the literals of a text bounds the patch that is read from it. -/
theorem Patch.within_parse {p : Patch} (h : Patch.parse limits t = .ok p)
    (hfit : t.LiteralsFit bounds) : p.Within bounds := by
  obtain ⟨lexemes, n, hlexemes, hn, rfl⟩ := Grammar.readPatch_eq_ok_iff.1 h
  have hliterals : Grammar.LiteralsFit bounds (n.tokens ++ []) := by
    rw [List.append_nil, hn.tokens]
    exact hfit lexemes (by rw [hlexemes]; rfl)
  exact (Grammar.within_patch hn.wellFormed hliterals).normalize false

/-- A context read from a text whose literals fit the limits is within the limits. -/
theorem Context.within_parse {c : Context} (h : Context.parse limits t = .ok c)
    (hfit : t.LiteralsFit bounds) : c.Within bounds :=
  Patch.within_ofContext.1 (Patch.within_parse (Patch.parse_of_context h) hfit)

/-- A context read from a text is no deeper than the limits allow. -/
theorem Context.levels_parse {c : Context} (h : Context.parse limits t = .ok c) :
    c.levels ≤ max 1 limits.maxDepth := by
  rw [← Patch.levels_ofContext]
  exact Patch.levels_parse (Patch.parse_of_context h)

/-- **What is read from a text is bounded**: it has no more levels than are allowed, the root
aside, and if no literal of the text is above its limit, then no payload and no name in it is.
Then none of the limits keeps it from being written. -/
theorem Grammar.parse_bounded (limits : Limits) (t : Text) :
    (∀ c, Context.parse limits t = .ok c → c.levels ≤ max 1 limits.maxDepth ∧
      (t.LiteralsFit limits → c.Within limits ∧
        (0 < limits.maxDepth → ∀ fault, c.encode limits = .error fault →
          ∃ field n, fault = .overflows field n))) ∧
    (∀ p, Patch.parse limits t = .ok p → p.levels ≤ max 1 limits.maxDepth ∧
      (t.LiteralsFit limits → p.Within limits ∧
        (0 < limits.maxDepth → ∀ fault, p.encode limits = .error fault →
          ∃ field n, fault = .overflows field n))) := by
  constructor
  · intro c hc
    have hlevels := Context.levels_parse hc
    refine ⟨hlevels, fun hfit => ?_⟩
    have hwithin := Context.within_parse hc hfit
    exact ⟨hwithin, fun hdepth fault =>
      hwithin.overflows_of_encode (hlevels.trans (Nat.max_le.2 ⟨hdepth, Nat.le_refl _⟩))⟩
  · intro p hp
    have hlevels := Patch.levels_parse hp
    refine ⟨hlevels, fun hfit => ?_⟩
    have hwithin := Patch.within_parse hp hfit
    exact ⟨hwithin, fun hdepth fault =>
      hwithin.overflows_of_encode (hlevels.trans (Nat.max_le.2 ⟨hdepth, Nat.le_refl _⟩))⟩

/-- Names, payloads and levels that are just at their limits. -/
theorem Grammar.parse_bounded_at_limits :
    (∃ c, Context.parse ⟨3, 2, 0, 2⟩ "<1:<@010203>+ab:<\"xyz\">>".toList = .ok c ∧
      c.levels ≤ 2 ∧ c.Within ⟨3, 2, 0, 2⟩ ∧ ∀ fault, c.encode ⟨3, 2, 0, 2⟩ = .error fault →
        ∃ field n, fault = .overflows field n) ∧
    (∃ p, Patch.parse ⟨3, 2, 0, 2⟩ "[--+\"a\":[#010203]+ab:<xyz>]".toList = .ok p ∧
      p.levels ≤ 2 ∧ p.Within ⟨3, 2, 0, 2⟩ ∧ ∀ fault, p.encode ⟨3, 2, 0, 2⟩ = .error fault →
        ∃ field n, fault = .overflows field n) := by
  have hcontext : (Context.parse ⟨3, 2, 0, 2⟩ "<1:<@010203>+ab:<\"xyz\">>".toList).toOption.any
      fun _ => true := by decide +kernel
  have hpatch : (Patch.parse ⟨3, 2, 0, 2⟩ "[--+\"a\":[#010203]+ab:<xyz>]".toList).toOption.any
      fun _ => true := by decide +kernel
  obtain ⟨c, hc, -⟩ := exists_of_any_toOption hcontext
  obtain ⟨p, hp, -⟩ := exists_of_any_toOption hpatch
  obtain ⟨hclevels, hcrest⟩ := (parse_bounded _ _).1 c hc
  obtain ⟨hplevels, hprest⟩ := (parse_bounded _ _).2 p hp
  obtain ⟨hcwithin, hcencode⟩ := hcrest (by decide +kernel)
  obtain ⟨hpwithin, hpencode⟩ := hprest (by decide +kernel)
  exact ⟨⟨c, hc, hclevels, hcwithin, hcencode (by decide)⟩,
    ⟨p, hp, hplevels, hpwithin, hpencode (by decide)⟩⟩

/-- Literals above their limits are read, and so is a root where no level is allowed.  None of
them is written. -/
theorem Grammar.parse_unbounded_of_literals :
    (∃ c, Context.parse { Limits.standard with maxPayloadBytes := 3 } "<\"aaaa\">".toList = .ok c ∧
      c.encode { Limits.standard with maxPayloadBytes := 3 } =
        .error (.exceeds .payloadLength 4 3)) ∧
    (∃ p, Patch.parse { Limits.standard with maxDimensionBytes := 3 } "[aaaa:[~]]".toList = .ok p ∧
      p.encode { Limits.standard with maxDimensionBytes := 3 } =
        .error (.exceeds .dimensionLength 4 3)) ∧
    (∃ c, Context.parse { Limits.standard with maxDepth := 0 } "<>".toList = .ok c ∧
      c.encode { Limits.standard with maxDepth := 0 } = .error (.tooDeep 0)) := by
  have hpayload : (Context.parse { Limits.standard with maxPayloadBytes := 3 }
      "<\"aaaa\">".toList).toOption.any fun c =>
        c.encode { Limits.standard with maxPayloadBytes := 3 } =
          .error (.exceeds .payloadLength 4 3) := by decide +kernel
  have hname : (Patch.parse { Limits.standard with maxDimensionBytes := 3 }
      "[aaaa:[~]]".toList).toOption.any fun p =>
        p.encode { Limits.standard with maxDimensionBytes := 3 } =
          .error (.exceeds .dimensionLength 4 3) := by decide +kernel
  have hroot : (Context.parse { Limits.standard with maxDepth := 0 } "<>".toList).toOption.any
      fun c => c.encode { Limits.standard with maxDepth := 0 } = .error (.tooDeep 0) := by
    decide +kernel
  obtain ⟨c, hc, hcencode⟩ := exists_of_any_toOption hpayload
  obtain ⟨p, hp, hpencode⟩ := exists_of_any_toOption hname
  obtain ⟨r, hr, hrencode⟩ := exists_of_any_toOption hroot
  exact ⟨⟨c, hc, of_decide_eq_true hcencode⟩, ⟨p, hp, of_decide_eq_true hpencode⟩,
    ⟨r, hr, of_decide_eq_true hrencode⟩⟩

end Intension
