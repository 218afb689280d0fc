import Intension.Proofs.Built
import Intension.Proofs.Context.Spelling
import Intension.Proofs.Grammar.Spelling

/-!
# Intension.Proofs.Grammar.RoundTrip

The round trip of texts.  A patch built as a whole is in normal form as its texts
spell it, so nothing of it is lost in reading either of them; a context is read as
the patch that makes it of the empty one.
-/

namespace Intension

namespace Patch

/-- **A patch built as a whole is read back from either text**, but for what equality and
text do not show. -/
theorem Built.parse_spelling {limits : Limits} {p : Patch} (hp : p.Built)
    (hnumbers : p.HasLiterals) (hlevels : p.levels ≤ max 1 limits.maxDepth) (short : Bool) :
    Patch.parse limits (p.spelling short) = .ok p.respelled := by
  have hread : Grammar.readPatch false limits (p.spelling short) =
      .ok (p.respelled.normalize false) :=
    Grammar.readPatch_spelling hp.ordered hnumbers hlevels fun h => nomatch h
  rw [Patch.parse, hread, hp.pruned.normalize_respelled]

/-- Nothing that shows is lost on the way. -/
theorem Built.exists_parse_spelling {limits : Limits} {p : Patch} (hp : p.Built)
    (hnumbers : p.HasLiterals) (hlevels : p.levels ≤ max 1 limits.maxDepth) (short : Bool) :
    ∃ q, Patch.parse limits (p.spelling short) = .ok q ∧ q == p ∧ q.text = p.text :=
  ⟨p.respelled, hp.parse_spelling hnumbers hlevels short, p.respelled_beq, p.text_respelled⟩

/-- **Both texts of a patch built as a whole are read back**: as a patch equal to it and of the
same text, if its numbers are finite and it is not too deep. -/
theorem parse_texts {limits : Limits} {p : Patch} (hp : p.Built) (hnumbers : p.HasLiterals)
    (hlevels : p.levels ≤ limits.maxDepth) :
    (∃ q, Patch.parse limits p.text = .ok q ∧ q == p ∧ q.text = p.text) ∧
    (∃ q, Patch.parse limits p.shortText = .ok q ∧ q == p ∧ q.text = p.text) :=
  have hroom : p.levels ≤ max 1 limits.maxDepth := hlevels.trans (Nat.le_max_right ..)
  ⟨hp.exists_parse_spelling hnumbers hroom false, hp.exists_parse_spelling hnumbers hroom true⟩

/-- Below marks at the root one child lacks a mark and another has all of them, so that only the
latter is angled in the short text. -/
theorem parse_texts_of_mixed_marks :
    (∃ q, Patch.parse ⟨0, 0, 0, 3⟩ "[---+5:[--]+x:[---+3:[---+^]]]".toList = .ok q ∧
      q == (clearAll.setBaseAt [.name ['x'] false, .integer 3] .omega).resetClearBaseAt
        [.integer 5] ∧
      q.text = "[---+5:[--]+x:[---+3:[---+^]]]".toList) ∧
    (∃ q, Patch.parse ⟨0, 0, 0, 3⟩ "[---+5:[--]+x:<3:<^>>]".toList = .ok q ∧
      q == (clearAll.setBaseAt [.name ['x'] false, .integer 3] .omega).resetClearBaseAt
        [.integer 5] ∧
      q.text = "[---+5:[--]+x:[---+3:[---+^]]]".toList) := by
  have hp : ((clearAll.setBaseAt [.name ['x'] false, .integer 3] .omega).resetClearBaseAt
      [.integer 5]).Built := (Built.clearAll.setBaseAt _ _).resetClearBaseAt _
  have hleaf : HasLiterals ⟨some .omega, [], true, true, 1, 2⟩ :=
    .intro (fun _ h => Option.some.inj h ▸ trivial) nofun
  have hx : HasLiterals
      ⟨none, [(.integer 3, ⟨some .omega, [], true, true, 1, 2⟩)], true, true, 1, 4⟩ :=
    .intro nofun (List.forall_mem_singleton.2 hleaf)
  have hfive : HasLiterals ⟨none, [], false, true, 0, 1⟩ := .intro nofun nofun
  have hroot : HasLiterals ⟨none, [(.integer 5, ⟨none, [], false, true, 0, 1⟩),
      (.name ['x'] false,
        ⟨none, [(.integer 3, ⟨some .omega, [], true, true, 1, 2⟩)], true, true, 1, 4⟩)],
      true, true, 1, 7⟩ :=
    .intro nofun (List.forall_mem_cons.2 ⟨hfive, List.forall_mem_singleton.2 hx⟩)
  exact parse_texts hp hroot (by decide)

end Patch

namespace Context

/-- A context with literals, within the depth of the limits, is read from its text as its
respelling. -/
theorem Reachable.parse_text_eq {limits : Limits} {c : Context} (hc : c.Reachable)
    (hnumbers : c.HasLiterals) (hlevels : c.levels ≤ max 1 limits.maxDepth) :
    Context.parse limits c.text = .ok c.respelled := by
  have hbuilt : (Patch.ofContext c).Built := .ofContext hc
  have hdepth : (Patch.ofContext c).levels ≤ max 1 limits.maxDepth := by
    rwa [Patch.levels_ofContext]
  have hangled : (Grammar.Node.ofPatch true (Patch.ofContext c)).angled := by
    rw [← Grammar.isAngled_spelling, Patch.spelling_ofContext, Patch.isAngled_text]
  rw [Context.parse, ← Patch.spelling_ofContext,
    Grammar.readPatch_spelling hbuilt.ordered (Patch.hasLiterals_ofContext hnumbers) hdepth
      fun _ => hangled, hbuilt.pruned.normalize_respelled, Patch.respelled_ofContext]
  exact congrArg Except.ok (ofPatch_ofContext hc.valid.respelled)

/-- Nothing that shows is lost on the way. -/
theorem Reachable.exists_parse_text {limits : Limits} {c : Context} (hc : c.Reachable)
    (hnumbers : c.HasLiterals) (hlevels : c.levels ≤ max 1 limits.maxDepth) :
    ∃ c', Context.parse limits c.text = .ok c' ∧ c' == c ∧ c'.text = c.text := by
  refine ⟨c.respelled, hc.parse_text_eq hnumbers hlevels, hc.valid.respelled_beq, ?_⟩
  rw [← Patch.spelling_ofContext, ← Patch.respelled_ofContext, Patch.spelling_respelled,
    Patch.spelling_ofContext]

/-- **The text of a context is read back**: as a context equal to it and of the same text, if its
numbers are finite and it is not too deep. -/
theorem parse_text {limits : Limits} {c : Context} (hc : c.Reachable) (hnumbers : c.HasLiterals)
    (hlevels : c.levels ≤ limits.maxDepth) :
    ∃ c', Context.parse limits c.text = .ok c' ∧ c' == c ∧ c'.text = c.text :=
  hc.exists_parse_text hnumbers (hlevels.trans (Nat.le_max_right ..))

/-- A negative number, a negative dimension, a name and a string that must be quoted. -/
theorem parse_text_of_quoted_name :
    ∃ c', Context.parse ⟨0, 0, 0, 3⟩ "<-1.5+\"a b\":<-7:<\"\\\"\\\\\\n\">>>".toList = .ok c' ∧
      c' == (empty.setBaseAt [] (.number ⟨0xBFF8000000000000⟩)).setBaseAt
        [.name ['a', ' ', 'b'] false, .integer (-7)] (.string ['"', '\\', '\n']) ∧
      c'.text = "<-1.5+\"a b\":<-7:<\"\\\"\\\\\\n\">>>".toList := by
  have hc : ((empty.setBaseAt [] (.number ⟨0xBFF8000000000000⟩)).setBaseAt
      [.name ['a', ' ', 'b'] false, .integer (-7)] (.string ['"', '\\', '\n'])).Reachable :=
    (Reachable.empty.setBaseAt [] _).setBaseAt _ _
  have hleaf : HasLiterals ⟨some (.string ['"', '\\', '\n']), [], 1⟩ :=
    .intro (fun _ h => Option.some.inj h ▸ trivial) nofun
  have hbelow : HasLiterals
      ⟨none, [(.integer (-7), ⟨some (.string ['"', '\\', '\n']), [], 1⟩)], 1⟩ :=
    .intro nofun (List.forall_mem_singleton.2 hleaf)
  have hroot : HasLiterals ⟨some (.number ⟨0xBFF8000000000000⟩), [(.name ['a', ' ', 'b'] false,
      ⟨none, [(.integer (-7), ⟨some (.string ['"', '\\', '\n']), [], 1⟩)], 1⟩)], 2⟩ :=
    .intro (fun _ h => Option.some.inj h ▸ rfl) (List.forall_mem_singleton.2 hbelow)
  exact parse_text hc hroot (by decide)

end Context

end Intension
