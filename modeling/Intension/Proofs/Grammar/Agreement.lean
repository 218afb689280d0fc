import Intension.Proofs.Grammar.Acceptance

/-!
# Intension.Proofs.Grammar.Agreement

The machine that reads the text form accepts exactly the derivations.  Each of its
steps keeps the open nodes derivations begun (`Reads`), and the last one ends a
derivation; that derivations are accepted is known, so both agree on every text
(`readPatch_eq_ok_iff`).
-/

namespace Intension.Grammar

variable {angled : Bool} {stage : Stage} {terms : List Term} {d : Dimension} {n : Node}

/-! ## what is accepted is a derivation -/

/-- The tokens between the opening of a node and where it stands, by its stage and the terms
that have been read. -/
inductive Spelled : Stage → List Term → List Token → Prop
  | opened : Spelled .opened [] []
  | afterTerm {terms : List Term} (h : terms ≠ []) : Spelled .afterTerm terms (joined terms)
  | afterPlus {terms : List Term} (h : terms ≠ []) : Spelled .afterPlus terms (lead terms)
  | beforeColon {terms : List Term} {spelled : Token} {d : Dimension}
      (hd : Dimension.ofToken spelled = .ok d) (hnew : ∀ e ∈ dims terms, (e == d) = false) :
      Spelled (.beforeColon d) terms (lead terms ++ [spelled])
  | beforeNode {terms : List Term} {spelled : Token} {d : Dimension}
      (hd : Dimension.ofToken spelled = .ok d) (hnew : ∀ e ∈ dims terms, (e == d) = false) :
      Spelled (.beforeNode d) terms (lead terms ++ [spelled, .colon])

/-- What terms of a node `below` others may be: such that the node is well-formed, and not
too deep. -/
structure Grown (limits : Limits) (below : Nat) (angled : Bool) (terms : List Term) : Prop where
  fits : Fits angled terms
  inner : ∀ n ∈ nodes terms, n.WellFormed
  level : below + 1 ≤ max 1 limits.maxDepth
  deep : ∀ n ∈ nodes terms, below + 1 + n.depth ≤ max 1 limits.maxDepth

/-- Whether a node may be opened where the machine stands. -/
def Allows (angledOnly : Bool) (stack : List Frame) (angled : Bool) : Prop :=
  match stack with
  | [] => angledOnly → angled
  | f :: _ => (∃ d, f.stage = .beforeNode d) ∧ (f.angled → angled)

/-- The open nodes are what the tokens up to now spell. -/
inductive Reads (angledOnly : Bool) (limits : Limits) : List Frame → List Token → Prop
  | nil : Reads angledOnly limits [] []
  | cons {stack : List Frame} {before after : List Token} {angled : Bool} {stage : Stage}
      {terms : List Term} (below : Reads angledOnly limits stack before)
      (allows : Allows angledOnly stack angled) (grown : Grown limits stack.length angled terms)
      (spelled : Spelled stage terms after) :
      Reads angledOnly limits (.of angled stage terms :: stack) (before ++ opening angled :: after)

/-- A colon comes next where the machine waits for one. -/
def Awaited (stack : List Frame) (rest : List Token) : Prop :=
  ∀ f ∈ stack.head?, ∀ d, f.stage = .beforeColon d → colonFirst rest

/-- Where the machine stands after `before` when `rest` is still to come. -/
def Progress.Reads (angledOnly : Bool) (limits : Limits) (before rest : List Token) :
    Progress → Prop
  | .within stack => Grammar.Reads angledOnly limits stack before ∧ Awaited stack rest
  | .finished p => ∃ n, Derives angledOnly limits n before ∧ p = n.patch.normalize false

section

variable {angledOnly : Bool} {limits : Limits} {stack : List Frame} {before after rest : List Token}
  {token : Token}

/-- A frame that has just been opened has gathered nothing, which breaks no rule. -/
theorem grown_nil {below : Nat} (h : below + 1 ≤ max 1 limits.maxDepth) (angled : Bool) :
    Grown limits below angled [] :=
  ⟨fits_nil angled, by simp [nodes], h, by simp [nodes]⟩

/-- A term of one token makes a node grow. -/
theorem Grown.append_leaf {below : Nat} {t : Term} (h : Grown limits below angled terms)
    (hadmits : Admits angled terms t) (ht : t.node? = none) :
    Grown limits below angled (terms ++ [t]) := by
  have hnodes : nodes (terms ++ [t]) = nodes terms := by
    rw [nodes_append_singleton, ht, Option.toList_none, List.append_nil]
  exact ⟨fits_append_singleton.2 ⟨h.fits, hadmits⟩, hnodes ▸ h.inner, h.level, hnodes ▸ h.deep⟩

/-- A child makes a node grow. -/
theorem Grown.append_child {below : Nat} {spelled : Token} (h : Grown limits below angled terms)
    (hadmits : Admits angled terms (.child spelled d n)) (hn : n.WellFormed)
    (hdepth : below + 1 + n.depth ≤ max 1 limits.maxDepth) :
    Grown limits below angled (terms ++ [.child spelled d n]) := by
  have hnodes : nodes (terms ++ [.child spelled d n]) = nodes terms ++ [n] :=
    nodes_append_singleton ..
  refine ⟨fits_append_singleton.2 ⟨h.fits, hadmits⟩, ?_, h.level, ?_⟩
  · rw [hnodes, List.forall_mem_append, List.forall_mem_singleton]
    exact ⟨h.inner, hn⟩
  · rw [hnodes, List.forall_mem_append, List.forall_mem_singleton]
    exact ⟨h.deep, hdepth⟩

/-- A node that has grown is well-formed and not too deep. -/
theorem Grown.node {below : Nat} (h : Grown limits below angled terms) :
    (Node.node angled terms).WellFormed ∧
      below + (Node.node angled terms).depth ≤ max 1 limits.maxDepth := by
  refine ⟨.node h.fits h.inner, ?_⟩
  have hle : deepest terms ≤ max 1 limits.maxDepth - (below + 1) :=
    deepest_le_iff.2 fun n hn => by
      have := h.deep n hn
      omega
  have := h.level
  rw [Node.depth]
  omega

/-- Where a term is awaited, the tokens read so far end in the bracket or in a plus. -/
theorem Spelled.of_awaits (h : Spelled stage terms after) (hstage : stage.Awaits) :
    after = lead terms := by
  cases h with
  | opened => rfl
  | afterPlus => rfl
  | _ => cases hstage

/-- Where the frame may close, the tokens read so far are the terms joined by plus signs. -/
theorem Spelled.of_closes (h : Spelled stage terms after) (hstage : stage.Closes) :
    after = joined terms := by
  cases h with
  | opened => rw [joined]
  | afterTerm => rfl
  | _ => cases hstage

/-- A frame not waiting for a colon asks nothing of the token that follows. -/
theorem awaited_of_ne {f : Frame} (h : ∀ d, f.stage ≠ .beforeColon d) :
    Awaited (f :: stack) rest := by
  rintro _ ⟨⟩ d hd
  exact absurd hd (h d)

/-- A child is read to its end. -/
theorem Reads.addChild {f : Frame} (h : Reads angledOnly limits (f :: stack) before)
    (hn : n.WellFormed) (hdepth : (f :: stack).length + n.depth ≤ max 1 limits.maxDepth)
    (hallows : Allows angledOnly (f :: stack) n.angled) :
    Reads angledOnly limits (f.addChild n.patch :: stack) (before ++ n.tokens) := by
  cases h with
  | @cons _ before _ angled stage terms below allows grown spelled =>
    obtain ⟨⟨d, hd⟩, hangled⟩ := hallows
    obtain rfl : stage = .beforeNode d := hd
    cases spelled with
    | @beforeNode _ spelled _ hd hnew =>
      have hadmits : Admits angled terms (.child spelled d n) := ⟨hnew, hangled, hd⟩
      have hchild : Reads angledOnly limits
          (.of angled .afterTerm (terms ++ [.child spelled d n]) :: stack)
          (before ++ opening angled :: joined (terms ++ [.child spelled d n])) :=
        .cons below allows (grown.append_child hadmits hn hdepth) (.afterTerm (by simp))
      rw [Frame.addChild_of spelled]
      simpa [joined_append_singleton, Term.tokens] using hchild

/-- The start of a node is read. -/
theorem Reads.openNode (below : Reads angledOnly limits stack before)
    (allows : Allows angledOnly stack angled)
    (hlevel : stack.length + 1 ≤ max 1 limits.maxDepth) :
    (Progress.within (.of angled .opened [] :: stack)).Reads angledOnly limits
      (before ++ [opening angled]) rest :=
  ⟨.cons below allows (grown_nil hlevel angled) .opened, awaited_of_ne fun d h => by cases h⟩

/-- The end of a node is read. -/
theorem Reads.close (below : Reads angledOnly limits stack before)
    (allows : Allows angledOnly stack angled) (grown : Grown limits stack.length angled terms)
    (spelled : Spelled stage terms after) (hstage : stage.Closes) :
    (close (.of angled stage terms) stack).Reads angledOnly limits
      (before ++ opening angled :: after ++ [closing angled]) rest := by
  have htokens : opening angled :: after ++ [closing angled] = (Node.node angled terms).tokens := by
    rw [spelled.of_closes hstage, Node.tokens, List.cons_append]
  obtain ⟨hn, hdepth⟩ := grown.node
  rw [List.append_assoc, htokens]
  cases stack with
  | nil =>
    cases below
    rw [List.length_nil, Nat.zero_add] at hdepth
    exact ⟨_, ⟨rfl, hn, allows, hdepth⟩, rfl⟩
  | cons f stack =>
    have hparent := below.addChild hn hdepth allows
    rw [← Frame.patch_of] at hparent
    refine ⟨hparent, awaited_of_ne fun d h => ?_⟩
    rw [Frame.addChild] at h
    split at h <;> cases h

/-- A token brings a term or the dimension of one. -/
theorem Reads.addTerm (below : Reads angledOnly limits stack before)
    (allows : Allows angledOnly stack angled) (grown : Grown limits stack.length angled terms)
    (spelled : Spelled stage terms after) (hstage : stage.Awaits) {f : Frame}
    (hf : (Frame.of angled stage terms).addTerm token (colonFirst rest) = .ok f) :
    (Progress.within (f :: stack)).Reads angledOnly limits
      (before ++ opening angled :: after ++ [token]) rest := by
  rw [spelled.of_awaits hstage, List.append_assoc, List.cons_append]
  obtain ⟨t, hadmits, htokens, ht, rfl⟩ | ⟨hcolon, d, hnew, hd, rfl⟩ := Frame.addTerm_of hf
  · refine ⟨?_, awaited_of_ne fun d h => by cases h⟩
    rw [← htokens, ← joined_append_singleton]
    exact .cons below allows (grown.append_leaf hadmits ht) (.afterTerm (by simp))
  · refine ⟨.cons below allows grown (.beforeColon hd hnew), ?_⟩
    rintro _ ⟨⟩ _ _
    exact hcolon

/-- A token that opens the text is an opening bracket of a kind the mode allows. -/
theorem opens_eq_ok {angledOnly : Bool} {f : Frame} (h : opens angledOnly token = .ok f) :
    ∃ angled : Bool, (angledOnly → angled) ∧ token = opening angled ∧
      f = .of angled .opened [] := by
  unfold opens at h
  split at h
  · exact ⟨true, fun _ => rfl, rfl, (Except.ok.inj h).symm⟩
  · split_ifs at h with hangled
    exact ⟨false, by simp [hangled], rfl, (Except.ok.inj h).symm⟩
  · cases h

/-- After a term, the only way on but closing is a plus. -/
theorem stepWithin_of_past {beforeColon : Bool} {next : Progress} (htoken : token ≠ closing angled)
    (h : stepWithin limits token beforeColon (.of angled .afterTerm terms) stack = .ok next) :
    token = .plus ∧ next = .within (.of angled .afterPlus terms :: stack) := by
  by_cases hplus : token = .plus
  · subst hplus
    exact ⟨rfl, (Except.ok.inj h).symm⟩
  · have hcloser : token ≠ (Frame.of angled .afterTerm terms).closer := htoken
    have hstage : (Frame.of angled .afterTerm terms).stage = .afterTerm := rfl
    simp only [stepWithin, hstage, if_neg hplus, if_neg hcloser] at h
    split at h <;> cases h

/-- Past a term a token ends the node, or leads to one more term. -/
theorem Reads.pastTerm {next : Progress} (below : Reads angledOnly limits stack before)
    (allows : Allows angledOnly stack angled) (grown : Grown limits stack.length angled terms)
    (hterms : terms ≠ [])
    (hstep : stepWithin limits token (colonFirst rest) (.of angled .afterTerm terms) stack =
      .ok next) :
    next.Reads angledOnly limits (before ++ opening angled :: joined terms ++ [token]) rest := by
  by_cases htoken : token = closing angled
  · subst htoken
    rw [stepWithin_of_closes Stage.closes_afterTerm] at hstep
    cases hstep
    exact below.close allows grown (.afterTerm hterms) Stage.closes_afterTerm
  · obtain ⟨rfl, rfl⟩ := stepWithin_of_past htoken hstep
    refine ⟨?_, awaited_of_ne fun d h => by cases h⟩
    have hlead : joined terms ++ [.plus] = lead terms := by simp [lead, hterms]
    rw [List.append_assoc, List.cons_append, hlead]
    exact .cons below allows grown (.afterPlus hterms)

/-- One token inside a node. -/
theorem Reads.stepWithin {f : Frame} {next : Progress}
    (h : Reads angledOnly limits (f :: stack) before)
    (hawaited : Awaited (f :: stack) (token :: rest))
    (hstep : stepWithin limits token (colonFirst rest) f stack = .ok next) :
    next.Reads angledOnly limits (before ++ [token]) rest := by
  have hreads := h
  cases h with
  | @cons _ before after angled stage terms below allows grown spelled =>
    -- where a term is awaited, and no end was read
    have hterm (hstage : stage.Awaits)
        (hadd : ((Frame.of angled stage terms).addTerm token (colonFirst rest)).map
          (fun f => Progress.within (f :: stack)) = .ok next) :
        next.Reads angledOnly limits (before ++ opening angled :: after ++ [token]) rest := by
      obtain ⟨g, hg, rfl⟩ := exists_of_map_eq_ok hadd
      exact below.addTerm allows grown spelled hstage hg
    cases spelled with
    | opened =>
      by_cases htoken : token = closing angled
      · subst htoken
        rw [stepWithin_of_closes Stage.closes_opened] at hstep
        cases hstep
        exact below.close allows grown .opened Stage.closes_opened
      · rw [stepWithin_of_awaits Stage.awaits_opened htoken] at hstep
        exact hterm Stage.awaits_opened hstep
    | afterPlus hterms =>
      by_cases htoken : token = closing angled
      · have hmissing : Grammar.stepWithin limits token (colonFirst rest)
            (.of angled .afterPlus terms) stack = .error .missingTerm := if_pos htoken
        rw [hmissing] at hstep
        cases hstep
      · rw [stepWithin_of_awaits Stage.awaits_afterPlus htoken] at hstep
        exact hterm Stage.awaits_afterPlus hstep
    | afterTerm hterms => exact below.pastTerm allows grown hterms hstep
    | @beforeColon _ spelled d hd hnew =>
      -- the machine does not look at this token: it was a colon when it looked ahead
      obtain rfl : token = .colon := by
        have hcolon := hawaited _ rfl d rfl
        simpa [colonFirst] using hcolon
      cases hstep
      refine ⟨?_, awaited_of_ne fun d h => by cases h⟩
      rw [List.append_assoc, List.cons_append, List.append_assoc]
      exact .cons below allows grown (.beforeNode hd hnew)
    | @beforeNode _ spelled d hd hnew =>
      obtain ⟨g, hg, hstep⟩ := exists_of_bind_eq_ok hstep
      split at hstep
      · cases hstep
      · next hroom =>
        cases hstep
        obtain ⟨inner, hangled, rfl, rfl⟩ := opens_eq_ok hg
        refine hreads.openNode ⟨⟨d, rfl⟩, hangled⟩ ?_
        rw [List.length_cons]
        omega

/-- **One token keeps what was read a derivation begun.** -/
theorem Progress.Reads.step {progress next : Progress}
    (h : progress.Reads angledOnly limits before (token :: rest))
    (hstep : step angledOnly limits token (colonFirst rest) progress = .ok next) :
    next.Reads angledOnly limits (before ++ [token]) rest := by
  cases progress with
  | finished p => cases hstep
  | within stack =>
    obtain ⟨hreads, hawaited⟩ := h
    cases stack with
    | cons f stack => exact hreads.stepWithin hawaited hstep
    | nil =>
      cases hreads
      obtain ⟨f, hf, rfl⟩ := exists_of_map_eq_ok hstep
      obtain ⟨angled, hangled, rfl, rfl⟩ := opens_eq_ok hf
      exact Reads.nil.openNode hangled (Nat.le_max_left ..)

/-- **What is accepted is a derivation.** -/
theorem Progress.Reads.accepts {progress : Progress} {p : Patch}
    (h : progress.Reads angledOnly limits before rest)
    (hp : accepts angledOnly limits progress rest = some p) :
    ∃ n, Derives angledOnly limits n (before ++ rest) ∧ p = n.patch.normalize false := by
  induction rest generalizing progress before with
  | nil =>
    cases progress with
    | within stack => cases hp
    | finished q =>
      obtain rfl : q = p := Option.some.inj hp
      rw [List.append_nil]
      exact h
  | cons token rest ih =>
    rw [Grammar.accepts] at hp
    split at hp
    · next next hnext =>
      rw [List.append_cons]
      exact ih (h.step hnext) hp
    · cases hp

/-- The machine accepts the derivations and no other tokens. -/
theorem accepts_eq_some_iff {tokens : List Token} {p : Patch} :
    accepts angledOnly limits (.within []) tokens = some p ↔
      ∃ n, Derives angledOnly limits n tokens ∧ p = n.patch.normalize false := by
  constructor
  · intro hp
    have hstart : (Progress.within []).Reads angledOnly limits [] tokens :=
      ⟨.nil, fun _ h => nomatch h⟩
    exact hstart.accepts hp
  · rintro ⟨n, ⟨rfl, hn, hangled, hdepth⟩, rfl⟩
    exact accepts_tokens hn hangled hdepth

end

/-! ## whole texts -/

/-- The parser accepts a text exactly if its tokens derive from the grammar, and returns the
normalized patch of the derivation. -/
theorem readPatch_eq_ok_iff {angledOnly : Bool} {limits : Limits} {t : Text} {p : Patch} :
    readPatch angledOnly limits t = .ok p ↔
      ∃ lexemes n, Lexeme.ofText t = .ok lexemes ∧
        Derives angledOnly limits n (lexemes.map (·.token)) ∧ p = n.patch.normalize false := by
  constructor
  · intro h
    obtain ⟨lexemes, hlexemes, hrun⟩ := exists_of_bind_eq_ok h
    obtain ⟨n, hn, hp⟩ := accepts_eq_some_iff.1 (run_eq_ok_iff.1 hrun)
    exact ⟨lexemes, n, hlexemes, hn, hp⟩
  · rintro ⟨lexemes, n, hlexemes, hn, hp⟩
    rw [readPatch, hlexemes]
    exact run_eq_ok_iff.2 (accepts_eq_some_iff.2 ⟨n, hn, hp⟩)

/-- **A text is read exactly if its tokens derive from the grammar**, a context if they do with
angle brackets at the root; a patch that is read is the normal form of what the derivation
spells, and a context what such a patch makes of the empty one. -/
theorem parse_eq_ok_iff (limits : Limits) (t : Text) :
    (∀ p, Patch.parse limits t = .ok p ↔
      ∃ lexemes n, Lexeme.ofText t = .ok lexemes ∧
        Derives false limits n (lexemes.map (·.token)) ∧ p = n.patch.normalize false) ∧
    (∀ c, Context.parse limits t = .ok c ↔
      ∃ lexemes n, Lexeme.ofText t = .ok lexemes ∧
        Derives true limits n (lexemes.map (·.token)) ∧
        c = Context.ofPatch (n.patch.normalize false)) := by
  refine ⟨fun p => readPatch_eq_ok_iff, fun c => ?_⟩
  constructor
  · intro h
    obtain ⟨p, hp, rfl⟩ := exists_of_map_eq_ok h
    obtain ⟨lexemes, n, hlexemes, hn, rfl⟩ := readPatch_eq_ok_iff.1 hp
    exact ⟨lexemes, n, hlexemes, hn, rfl⟩
  · rintro ⟨lexemes, n, hlexemes, hn, rfl⟩
    rw [Context.parse, readPatch_eq_ok_iff.2 ⟨lexemes, n, hlexemes, hn, rfl⟩]
    rfl

end Intension.Grammar
