import Intension.Grammar.Reading
import Intension.Proofs.Patch.Effect

/-!
# Intension.Proofs.Grammar.Shape

What is read from a text has the right shape: the machine keeps the children
of every open node sorted (`Progress.Ordered`), so the patch that it ends with
is ordered, and a context read through a patch is of the shape of contexts.
-/

namespace Intension.Grammar

/-! ## results of parts -/

section

variable {ε α β : Type} {x : Except ε α} {b : β}

/-- A mapped result comes from a result. -/
theorem exists_of_map_eq_ok {f : α → β} (h : x.map f = .ok b) : ∃ a, x = .ok a ∧ f a = b := by
  cases x with
  | error e => cases h
  | ok a => exact ⟨a, rfl, Except.ok.inj h⟩

/-- Two steps in a row that succeed have both succeeded. -/
theorem exists_of_bind_eq_ok {f : α → Except ε β} (h : x >>= f = .ok b) :
    ∃ a, x = .ok a ∧ f a = .ok b := by
  cases x with
  | error e => cases h
  | ok a => exact ⟨a, rfl, h⟩

/-- A result with some property that can be decided. -/
theorem exists_of_any_toOption {x : Except ε α} {p : α → Bool} (h : x.toOption.any p) :
    ∃ a, x = .ok a ∧ p a := by
  cases x with
  | error e => cases h
  | ok a => exact ⟨a, rfl, h⟩

end

/-! ## one token after the other -/

/-- The children read so far are sorted, here and below. -/
def Frame.Ordered (f : Frame) : Prop :=
  Keyed.Sorted f.children ∧ ∀ e ∈ f.children, e.2.Ordered

/-- All open nodes are ordered, or the patch that was read is. -/
def Progress.Ordered : Progress → Prop
  | .within stack => ∀ f ∈ stack, f.Ordered
  | .finished p => p.Ordered

/-- A frame that has just been opened has its keys in order. -/
theorem Frame.ordered_start (angled : Bool) : (start angled).Ordered :=
  ⟨Keyed.sorted_nil, fun _ he => nomatch he⟩

/-- The patch a frame in order has gathered is in order. -/
theorem Frame.Ordered.patch {f : Frame} (h : f.Ordered) : f.patch.Ordered :=
  Patch.ordered_node h.1 h.2

/-- A child with its keys in order keeps the frame around it in order. -/
theorem Frame.Ordered.addChild {f : Frame} (h : f.Ordered) {child : Patch}
    (hchild : child.Ordered) : (f.addChild child).Ordered := by
  rw [Frame.addChild]
  split
  · refine ⟨h.1.insert _ _, fun e he => ?_⟩
    obtain rfl | he := Keyed.mem_insert he
    · exact hchild
    · exact h.2 e he
  · exact h

/-- A term of one token brings no child. -/
theorem Frame.children_addTerm {f g : Frame} {token : Token} {beforeColon : Bool}
    (h : f.addTerm token beforeColon = .ok g) : g.children = f.children := by
  unfold Frame.addTerm at h
  repeat' split at h
  all_goals first | cases h; rfl | cases h

/-- Closing a frame keeps the machine in order. -/
theorem ordered_close {f : Frame} (hf : f.Ordered) {stack : List Frame}
    (hstack : ∀ g ∈ stack, g.Ordered) : (close f stack).Ordered := by
  cases stack with
  | nil => exact hf.patch.normalize false
  | cons parent stack =>
    obtain ⟨hparent, hstack⟩ := List.forall_mem_cons.1 hstack
    exact List.forall_mem_cons.2 ⟨hparent.addChild hf.patch, hstack⟩

/-- The frame an opening bracket starts with is in order. -/
theorem ordered_opens {angledOnly : Bool} {token : Token} {f : Frame}
    (h : opens angledOnly token = .ok f) : f.Ordered := by
  unfold opens at h
  repeat' split at h
  all_goals first | cases h; exact Frame.ordered_start _ | cases h

/-- A frame with other marks or another stage is as ordered as before. -/
theorem Frame.Ordered.of_children_eq {f g : Frame} (h : f.Ordered)
    (hg : g.children = f.children) : g.Ordered := by
  rw [Frame.Ordered, hg]
  exact h

/-- One step of the machine inside a node keeps it in order. -/
theorem ordered_stepWithin {limits : Limits} {token : Token} {beforeColon : Bool} {f : Frame}
    {stack : List Frame} {next : Progress} (hf : f.Ordered) (hstack : ∀ g ∈ stack, g.Ordered)
    (h : stepWithin limits token beforeColon f stack = .ok next) : next.Ordered := by
  have hterm : (f.addTerm token beforeColon).map (fun f => Progress.within (f :: stack)) =
      .ok next → next.Ordered := by
    intro h
    obtain ⟨g, hg, rfl⟩ := exists_of_map_eq_ok h
    exact List.forall_mem_cons.2 ⟨hf.of_children_eq (Frame.children_addTerm hg), hstack⟩
  unfold stepWithin at h
  split at h
  case h_1 =>
    cases h
    exact List.forall_mem_cons.2 ⟨hf, hstack⟩
  case h_2 =>
    obtain ⟨child, hchild, h⟩ := exists_of_bind_eq_ok h
    split at h
    · cases h
    · cases h
      exact List.forall_mem_cons.2
        ⟨ordered_opens hchild, List.forall_mem_cons.2 ⟨hf, hstack⟩⟩
  case h_3 =>
    split at h
    · cases h
      exact List.forall_mem_cons.2 ⟨hf, hstack⟩
    · split at h
      · cases h
        exact ordered_close hf hstack
      · split at h <;> cases h
  case h_4 =>
    split at h
    · cases h
      exact ordered_close hf hstack
    · exact hterm h
  case h_5 =>
    split at h
    · cases h
    · exact hterm h

/-- **One token keeps what was read ordered.** -/
theorem ordered_step {angledOnly : Bool} {limits : Limits} {token : Token} {beforeColon : Bool}
    {progress next : Progress} (hp : progress.Ordered)
    (h : step angledOnly limits token beforeColon progress = .ok next) : next.Ordered := by
  cases progress with
  | finished p => cases h
  | within stack =>
    cases stack with
    | cons f stack =>
      obtain ⟨hf, hstack⟩ := List.forall_mem_cons.1 hp
      exact ordered_stepWithin hf hstack h
    | nil =>
      obtain ⟨f, hf, rfl⟩ := exists_of_map_eq_ok h
      exact List.forall_mem_cons.2 ⟨ordered_opens hf, fun _ hg => nomatch hg⟩

/-- A run of the machine that starts in order ends in a patch in order. -/
theorem ordered_run {angledOnly : Bool} {limits : Limits} {length : Nat} {progress : Progress}
    {lexemes : List Lexeme} {p : Patch} (hp : progress.Ordered)
    (h : run angledOnly limits length progress lexemes = .ok p) : p.Ordered := by
  induction lexemes generalizing progress with
  | nil =>
    cases progress with
    | finished q =>
      cases h
      exact hp
    | within stack => cases h
  | cons l lexemes ih =>
    rw [run] at h
    cases hnext : step angledOnly limits l.token (startsWithColon lexemes) progress with
    | error fault =>
      rw [hnext] at h
      cases h
    | ok next =>
      rw [hnext] at h
      exact ih (ordered_step hp hnext) h

/-- A patch that is read has its keys in order, in both modes. -/
theorem ordered_readPatch {angledOnly : Bool} {limits : Limits} {t : Text} {p : Patch}
    (h : readPatch angledOnly limits t = .ok p) : p.Ordered := by
  obtain ⟨lexemes, _, h⟩ := exists_of_bind_eq_ok h
  have hstart : (Progress.within []).Ordered := fun _ hg => nomatch hg
  exact ordered_run hstart h

end Intension.Grammar

namespace Intension

/-- A patch that is parsed has its keys in order. -/
theorem Patch.ordered_parse {limits : Limits} {t : Text} {p : Patch}
    (h : Patch.parse limits t = .ok p) : p.Ordered :=
  Grammar.ordered_readPatch h

/-- A context that is parsed keeps the rules of its representation. -/
theorem Context.valid_parse {limits : Limits} {t : Text} {c : Context}
    (h : Context.parse limits t = .ok c) : c.Valid := by
  obtain ⟨p, hp, rfl⟩ := Grammar.exists_of_map_eq_ok h
  exact valid_empty.apply (Grammar.ordered_readPatch hp)

end Intension
