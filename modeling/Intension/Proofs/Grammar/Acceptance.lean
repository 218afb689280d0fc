import Intension.Proofs.Grammar.Derivation

/-!
# Intension.Proofs.Grammar.Acceptance

The machine that reads the text form accepts the derivations.  What a frame holds
is a function of the terms read so far (`Frame.of`), and a derivation is followed
by recursion: each of its parts takes the machine from one such frame to the next
(`accepts_tokens`).
-/

namespace Intension.Grammar

/-! ## the machine on tokens -/

/-- Whether a colon is the first of some tokens. -/
def colonFirst (tokens : List Token) : Bool := tokens.head? == some .colon

/-- The patch that tokens spell from where the machine stands. -/
def accepts (angledOnly : Bool) (limits : Limits) : Progress → List Token → Option Patch
  | .finished p, [] => some p
  | .within _, [] => none
  | progress, token :: rest =>
    match step angledOnly limits token (colonFirst rest) progress with
    | .ok next => accepts angledOnly limits next rest
    | .error _ => none

/-- The look ahead of the parser sees only the token, not its place. -/
theorem startsWithColon_eq (lexemes : List Lexeme) :
    startsWithColon lexemes = colonFirst (lexemes.map (·.token)) := by
  cases lexemes with
  | nil => rfl
  | cons l rest =>
    obtain ⟨token, offset⟩ := l
    cases token <;> rfl

/-- Where tokens stand and how long the text is matters to errors only. -/
theorem run_eq_ok_iff {angledOnly : Bool} {limits : Limits} {length : Nat} {progress : Progress}
    {lexemes : List Lexeme} {p : Patch} :
    run angledOnly limits length progress lexemes = .ok p ↔
      accepts angledOnly limits progress (lexemes.map (·.token)) = some p := by
  induction lexemes generalizing progress with
  | nil =>
    cases progress with
    | within stack => simp [run, accepts]
    | finished q => simp [run, accepts]
  | cons l rest ih =>
    rw [run, List.map_cons, accepts, startsWithColon_eq]
    cases step angledOnly limits l.token (colonFirst (rest.map (·.token))) progress with
    | error fault => simp
    | ok next => exact ih

/-- Reading on after one step of the parser. -/
theorem accepts_cons {angledOnly : Bool} {limits : Limits} {token : Token} {rest : List Token}
    {progress next : Progress}
    (h : step angledOnly limits token (colonFirst rest) progress = .ok next) :
    accepts angledOnly limits progress (token :: rest) = accepts angledOnly limits next rest := by
  rw [accepts, h]

/-! ## frames and what they have read -/

/-- The frame of a node of which some terms have been read. -/
def Frame.of (angled : Bool) (stage : Stage) (terms : List Term) : Frame where
  angled := angled
  stage := stage
  base := (bases terms).head?
  clearsBase := baseMark angled terms
  clearsDims := dimsMark angled terms
  marked := !(markers terms).isEmpty
  children := placed (entries terms)

variable {angled : Bool} {stage : Stage} {terms : List Term} {d : Dimension} {n : Node}

/-- The patch an open frame has gathered is that of the terms it has read. -/
theorem Frame.patch_of : (Frame.of angled stage terms).patch = (Node.node angled terms).patch := by
  rw [Frame.patch, Node.patch]
  rfl

/-- A child is added like a term. -/
theorem Frame.addChild_of (spelled : Token) :
    (Frame.of angled (.beforeNode d) terms).addChild n.patch =
      .of angled .afterTerm (terms ++ [.child spelled d n]) := by
  simp [Frame.addChild, Frame.of, baseMark, dimsMark, placed, entries_append, entries,
    bases_append_singleton, markers_append_singleton, Term.base?, Term.marker?]

/-- Dashes the grammar allows here are taken into the frame as a marker. -/
theorem Frame.addTerm_marker {count : Nat} (h : Admits angled terms (.marker count))
    (beforeColon : Bool) : (Frame.of angled stage terms).addTerm (.dashes count) beforeColon =
      .ok (.of angled .afterTerm (terms ++ [.marker count])) := by
  obtain ⟨rfl, hmarkers⟩ := h
  simp [Frame.addTerm, Frame.of, hmarkers, baseMark, dimsMark, entries_append, entries,
    bases_append_singleton, markers_append_singleton, Term.base?, Term.marker?]

/-- A literal the grammar allows here, with no colon after it, is taken in as the base value. -/
theorem Frame.addTerm_base {spelled : Token} {v : Scalar}
    (h : Admits angled terms (.base spelled v)) :
    (Frame.of angled stage terms).addTerm spelled false =
      .ok (.of angled .afterTerm (terms ++ [.base spelled v])) := by
  obtain ⟨hbases, hv⟩ := h
  have hframe : Frame.of angled .afterTerm (terms ++ [.base spelled v]) =
      { Frame.of angled stage terms with base := some v, stage := .afterTerm } := by
    simp [Frame.of, hbases, baseMark, dimsMark, entries_append, entries, bases_append_singleton,
      markers_append_singleton, Term.base?, Term.marker?]
  have hbase : (Frame.of angled stage terms).base = none := by simp [Frame.of, hbases]
  unfold Frame.addTerm
  split
  · cases hv
  · simp [hv, hbase, hframe]

/-- A literal with a colon after it, the key of an allowed child, makes the frame wait for the
colon. -/
theorem Frame.addTerm_child {spelled : Token} (h : Admits angled terms (.child spelled d n)) :
    (Frame.of angled stage terms).addTerm spelled true =
      .ok (.of angled (.beforeColon d) terms) := by
  obtain ⟨hdims, -, hd⟩ := h
  have hnew : Keyed.contains d (Frame.of angled stage terms).children = false := by
    rw [Bool.eq_false_iff, ne_eq, Frame.of, contains_placed]
    simpa using hdims
  unfold Frame.addTerm
  split
  · cases hd
  · simp only [hd, hnew]
    rfl

/-- What a token may add to a node on its own: a marker, a base, or the dimension of a child. -/
theorem Frame.addTerm_of {token : Token} {beforeColon : Bool} {f : Frame}
    (h : (Frame.of angled stage terms).addTerm token beforeColon = .ok f) :
    (∃ t, Admits angled terms t ∧ t.tokens = [token] ∧ t.node? = none ∧
        f = .of angled .afterTerm (terms ++ [t])) ∨
      beforeColon ∧ ∃ d, (∀ e ∈ dims terms, (e == d) = false) ∧ Dimension.ofToken token = .ok d ∧
        f = .of angled (.beforeColon d) terms := by
  have hadd := h
  unfold Frame.addTerm at h
  split at h
  · next count =>
    split_ifs at h with hangled hmarked
    have hadmits : Admits angled terms (.marker count) := by
      simp [Frame.of] at hangled hmarked
      exact ⟨hangled, hmarked⟩
    rw [Frame.addTerm_marker hadmits] at hadd
    exact .inl ⟨_, hadmits, by rw [Term.tokens], rfl, (Except.ok.inj hadd).symm⟩
  · cases beforeColon with
    | true =>
      rw [if_pos rfl] at h
      split at h
      · cases h
      · next d hd =>
        split_ifs at h with hcontains
        refine .inr ⟨rfl, d, ?_, hd, (Except.ok.inj h).symm⟩
        rw [Frame.of, contains_placed] at hcontains
        simpa using hcontains
    | false =>
      rw [if_neg Bool.false_ne_true] at h
      split at h
      · cases h
      · next v hv =>
        split_ifs at h with hbase
        have hadmits : Admits angled terms (.base token v) := ⟨by simpa [Frame.of] using hbase, hv⟩
        rw [Frame.addTerm_base hadmits] at hadd
        exact .inl ⟨_, hadmits, by rw [Term.tokens], rfl, (Except.ok.inj hadd).symm⟩

/-! ## derivations are accepted -/

section

variable {angledOnly : Bool} {limits : Limits} {stack : List Frame} {rest : List Token}

/-- Whether a term may come next. -/
def Stage.Awaits : Stage → Prop
  | .opened | .afterPlus => True
  | _ => False

/-- Whether the node may end. -/
def Stage.Closes : Stage → Prop
  | .opened | .afterTerm => True
  | _ => False

theorem Stage.awaits_opened : Stage.Awaits .opened := trivial

theorem Stage.awaits_afterPlus : Stage.Awaits .afterPlus := trivial

theorem Stage.closes_opened : Stage.Closes .opened := trivial

theorem Stage.closes_afterTerm : Stage.Closes .afterTerm := trivial

/-- Where a term is awaited, any token but the closing bracket is taken as the start of a term. -/
theorem stepWithin_of_awaits (hstage : stage.Awaits) {token : Token}
    (htoken : token ≠ closing angled) (beforeColon : Bool) :
    stepWithin limits token beforeColon (.of angled stage terms) stack =
      ((Frame.of angled stage terms).addTerm token beforeColon).map
        fun f => .within (f :: stack) := by
  cases stage with
  | opened => exact if_neg htoken
  | afterPlus => exact if_neg htoken
  | _ => cases hstage

/-- Where the frame may close, its closing bracket closes it. -/
theorem stepWithin_of_closes (hstage : stage.Closes) (beforeColon : Bool) :
    stepWithin limits (closing angled) beforeColon (.of angled stage terms) stack =
      .ok (close (.of angled stage terms) stack) := by
  have hplus : closing angled ≠ .plus := by cases angled <;> decide
  cases stage with
  | opened => exact if_pos rfl
  | afterTerm => exact (if_neg hplus).trans (if_pos rfl)
  | _ => cases hstage

/-- No base is spelled like the end of a node. -/
theorem ofToken?_closing (angled : Bool) : Scalar.ofToken? (closing angled) = none := by
  cases angled <;> rfl

/-- No dimension is spelled like the end of a node. -/
theorem ofToken_closing (angled : Bool) (d : Dimension) :
    Dimension.ofToken (closing angled) ≠ .ok d := by
  cases angled <;> exact nofun

/-- Reading over a marker of the derivation. -/
theorem accepts_marker {count : Nat} (h : Admits angled terms (.marker count))
    (hstage : stage.Awaits) :
    accepts angledOnly limits (.within (.of angled stage terms :: stack)) (.dashes count :: rest) =
      accepts angledOnly limits
        (.within (.of angled .afterTerm (terms ++ [.marker count]) :: stack)) rest := by
  have hne : Token.dashes count ≠ closing angled := by cases angled <;> exact nofun
  refine accepts_cons ?_
  rw [step, stepWithin_of_awaits hstage hne, Frame.addTerm_marker h]
  rfl

/-- Reading over a base value of the derivation. -/
theorem accepts_base {spelled : Token} {v : Scalar} (h : Admits angled terms (.base spelled v))
    (hstage : stage.Awaits) (hrest : colonFirst rest = false) :
    accepts angledOnly limits (.within (.of angled stage terms :: stack)) (spelled :: rest) =
      accepts angledOnly limits
        (.within (.of angled .afterTerm (terms ++ [.base spelled v]) :: stack)) rest := by
  have hne : spelled ≠ closing angled := by
    rintro rfl
    exact nomatch (ofToken?_closing angled).symm.trans h.2
  refine accepts_cons ?_
  rw [step, stepWithin_of_awaits hstage hne, hrest, Frame.addTerm_base h]
  rfl

/-- Reading over the key of a child and its colon. -/
theorem accepts_key {spelled : Token} (h : Admits angled terms (.child spelled d n))
    (hstage : stage.Awaits) :
    accepts angledOnly limits (.within (.of angled stage terms :: stack))
        (spelled :: .colon :: rest) =
      accepts angledOnly limits (.within (.of angled (.beforeNode d) terms :: stack)) rest := by
  have hne : spelled ≠ closing angled := by
    rintro rfl
    exact ofToken_closing angled d h.2.2
  have hkey : step angledOnly limits spelled true (.within (.of angled stage terms :: stack)) =
      .ok (.within (.of angled (.beforeColon d) terms :: stack)) := by
    rw [step, stepWithin_of_awaits hstage hne, Frame.addTerm_child h]
    rfl
  exact (accepts_cons hkey).trans (accepts_cons rfl)

/-- Reading over the plus between two terms. -/
theorem accepts_plus :
    accepts angledOnly limits (.within (.of angled .afterTerm terms :: stack)) (.plus :: rest) =
      accepts angledOnly limits (.within (.of angled .afterPlus terms :: stack)) rest :=
  accepts_cons rfl

/-- The opening bracket of an allowed kind opens an empty frame. -/
theorem opens_opening {angledOnly angled : Bool} (h : angledOnly → angled) :
    opens angledOnly (opening angled) = .ok (.of angled .opened []) := by
  cases angled with
  | true => rfl
  | false =>
    have : angledOnly = false := by simpa using h
    rw [this]
    rfl

/-- Reading over the opening bracket of a child pushes an empty frame, while the depth allows it. -/
theorem accepts_opening {inner : Bool} (hangled : angled → inner)
    (hdepth : stack.length + 2 ≤ max 1 limits.maxDepth) :
    accepts angledOnly limits (.within (.of angled (.beforeNode d) terms :: stack))
        (opening inner :: rest) =
      accepts angledOnly limits
        (.within (.of inner .opened [] :: .of angled (.beforeNode d) terms :: stack)) rest := by
  have hroom : ¬limits.maxDepth ≤ stack.length + 1 := by omega
  refine accepts_cons ?_
  have hopens : opens (Frame.of angled (.beforeNode d) terms).angled (opening inner) =
    .ok (.of inner .opened []) := opens_opening hangled
  simp only [step, stepWithin, Frame.of] at hopens ⊢
  rw [hopens]
  simp [hroom]

/-- Reading over the closing bracket of a child adds the finished child to the frame around it. -/
theorem accepts_closing (hstage : stage.Closes) {inner : Bool} {innerTerms : List Term}
    (spelled : Token) :
    accepts angledOnly limits
        (.within (.of inner stage innerTerms :: .of angled (.beforeNode d) terms :: stack))
        (closing inner :: rest) =
      accepts angledOnly limits (.within (.of angled .afterTerm
        (terms ++ [.child spelled d (.node inner innerTerms)]) :: stack)) rest := by
  refine accepts_cons ?_
  rw [step, stepWithin_of_closes hstage, close, Frame.patch_of, Frame.addChild_of spelled]

/-- The closing bracket of the outermost node ends the text with its normalized patch. -/
theorem accepts_last (hstage : stage.Closes) :
    accepts angledOnly limits (.within [.of angled stage terms]) [closing angled] =
      some ((Node.node angled terms).patch.normalize false) := by
  have hlast : step angledOnly limits (closing angled) (colonFirst [])
      (.within [.of angled stage terms]) =
      .ok (.finished ((Node.node angled terms).patch.normalize false)) := by
    rw [step, stepWithin_of_closes hstage, close, Frame.patch_of]
  rw [accepts_cons hlast, accepts]

/-- A body that may stand somewhere may stand there up to any of its terms. -/
theorem Fits.of_append {more : List Term} (h : Fits angled (terms ++ more)) :
    Fits angled terms := by
  induction more generalizing terms with
  | nil => rwa [List.append_nil] at h
  | cons t more ih =>
    rw [List.append_cons] at h
    exact (fits_append_singleton.1 (ih h)).1

theorem colonFirst_closing (angled : Bool) (rest : List Token) :
    colonFirst (closing angled :: rest) = false := by
  cases angled <;> rfl

mutual

/-- A node that may stand below a dimension is read as its child. -/
theorem accepts_child : ∀ (n : Node), n.WellFormed → ∀ {stack : List Frame} {angled : Bool}
    {done : List Term} {rest : List Token}, (angled → n.angled) →
    stack.length + 1 + n.depth ≤ max 1 limits.maxDepth → ∀ (spelled : Token) (d : Dimension),
    accepts angledOnly limits (.within (.of angled (.beforeNode d) done :: stack))
        (n.tokens ++ rest) =
      accepts angledOnly limits
        (.within (.of angled .afterTerm (done ++ [.child spelled d n]) :: stack)) rest
  | .node inner terms, hn, stack, angled, done, rest, hangled, hdepth, spelled, d => by
    obtain ⟨hfits, hinner⟩ := hn
    have hangled : angled → inner := hangled
    rw [Node.depth] at hdepth
    rw [Node.tokens, List.cons_append, List.append_assoc, accepts_opening hangled (by omega)]
    have hclosing := colonFirst_closing inner rest
    by_cases hterms : terms = []
    · subst hterms
      rw [joined]
      exact accepts_closing Stage.closes_opened spelled
    · have hdeep : ∀ n ∈ nodes terms, (Frame.of angled (.beforeNode d) done :: stack).length + 1 +
          n.depth ≤ max 1 limits.maxDepth := by
        intro n hmem
        have hle := deepest_le_iff.1 (Nat.le_refl (deepest terms)) n hmem
        rw [List.length_cons]
        omega
      have hbody : accepts angledOnly limits
          (.within (.of inner .opened [] :: .of angled (.beforeNode d) done :: stack))
          (joined terms ++ closing inner :: rest) = accepts angledOnly limits
          (.within (.of inner .afterTerm terms :: .of angled (.beforeNode d) done :: stack))
          (closing inner :: rest) :=
        accepts_terms terms hterms hfits hinner hdeep trivial hclosing
      exact hbody.trans (accepts_closing Stage.closes_afterTerm spelled)

/-- One term of a derivation: its tokens are read and the frame has gathered it, by induction on the
term. -/
theorem accepts_term : ∀ (t : Term) {angled : Bool} {done : List Term} {stage : Stage}
    {stack : List Frame} {rest : List Token}, Admits angled done t →
    (∀ n ∈ nodes [t], n.WellFormed) →
    (∀ n ∈ nodes [t], stack.length + 1 + n.depth ≤ max 1 limits.maxDepth) →
    stage.Awaits → colonFirst rest = false →
    accepts angledOnly limits (.within (.of angled stage done :: stack)) (t.tokens ++ rest) =
      accepts angledOnly limits (.within (.of angled .afterTerm (done ++ [t]) :: stack)) rest
  | .marker count, _, _, _, _, _, hadmits, _, _, hstage, _ => by
    rw [Term.tokens]
    exact accepts_marker hadmits hstage
  | .base spelled v, _, _, _, _, _, hadmits, _, _, hstage, hrest => by
    rw [Term.tokens]
    exact accepts_base hadmits hstage hrest
  | .child spelled d n, _, _, _, _, _, hadmits, hinner, hdepth, hstage, _ => by
    have hmem : n ∈ nodes [.child spelled d n] := List.mem_singleton_self n
    rw [Term.tokens, List.cons_append, List.cons_append, accepts_key hadmits hstage]
    exact accepts_child n (hinner n hmem) hadmits.2.1 (hdepth n hmem) spelled d

/-- A body takes the machine from where a term may come to the end of its last term. -/
theorem accepts_terms : ∀ (terms : List Term), terms ≠ [] → ∀ {angled : Bool} {done : List Term}
    {stage : Stage} {stack : List Frame} {rest : List Token}, Fits angled (done ++ terms) →
    (∀ n ∈ nodes terms, n.WellFormed) →
    (∀ n ∈ nodes terms, stack.length + 1 + n.depth ≤ max 1 limits.maxDepth) → stage.Awaits →
    colonFirst rest = false →
    accepts angledOnly limits (.within (.of angled stage done :: stack)) (joined terms ++ rest) =
      accepts angledOnly limits (.within (.of angled .afterTerm (done ++ terms) :: stack)) rest
  | [], hne, _, _, _, _, _, _, _, _, _, _ => absurd rfl hne
  | t :: more, _, angled, done, stage, stack, rest, hfits, hinner, hdepth, hstage, hrest => by
    rw [List.append_cons] at hfits ⊢
    have hadmits : Admits angled done t := (fits_append_singleton.1 hfits.of_append).2
    have hnodes : nodes (t :: more) = nodes [t] ++ nodes more := List.filterMap_append (l := [t])
    rw [hnodes, List.forall_mem_append] at hinner hdepth
    by_cases hmore : more = []
    · subst hmore
      rw [joined, List.append_nil]
      exact accepts_term t hadmits hinner.1 hdepth.1 hstage hrest
    · rw [joined_cons t hmore, List.append_assoc,
        accepts_term t hadmits hinner.1 hdepth.1 hstage (by rfl), List.cons_append, accepts_plus]
      exact accepts_terms more hmore hfits hinner.2 hdepth.2 trivial hrest

end

/-- **Every derivation is accepted**, and read as the normal form of what it spells. -/
theorem accepts_tokens {n : Node} (hn : n.WellFormed) (hangled : angledOnly → n.angled)
    (hdepth : n.depth ≤ max 1 limits.maxDepth) :
    accepts angledOnly limits (.within []) n.tokens = some (n.patch.normalize false) := by
  obtain ⟨hfits, hinner⟩ := hn
  rename_i angled terms
  have hangled : angledOnly → angled := hangled
  have hopen : step angledOnly limits (opening angled)
      (colonFirst (joined terms ++ [closing angled])) (.within []) =
      .ok (.within [.of angled .opened []]) := by
    rw [step, opens_opening hangled]
    rfl
  rw [Node.depth] at hdepth
  rw [Node.tokens, accepts_cons hopen]
  by_cases hterms : terms = []
  · subst hterms
    rw [joined]
    exact accepts_last Stage.closes_opened
  · have hdeep : ∀ n ∈ nodes terms, ([] : List Frame).length + 1 + n.depth ≤
        max 1 limits.maxDepth := by
      intro n hmem
      have hle := deepest_le_iff.1 (Nat.le_refl (deepest terms)) n hmem
      rw [List.length_nil]
      omega
    have hbody : accepts angledOnly limits (.within [.of angled .opened []])
        (joined terms ++ [closing angled]) =
        accepts angledOnly limits (.within [.of angled .afterTerm terms]) [closing angled] :=
      accepts_terms terms hterms hfits hinner hdeep trivial (colonFirst_closing angled [])
    exact hbody.trans (accepts_last Stage.closes_afterTerm)

end

end Intension.Grammar
