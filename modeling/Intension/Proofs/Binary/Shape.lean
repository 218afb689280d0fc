import Intension.Binary.Reader
import Intension.Proofs.Patch.Effect

/-!
# Intension.Proofs.Binary.Shape

What is read from bytes has the right shape.  A context is refused where its
children are out of order or empty or its counts are wrong, so one that is read
is of the shape of contexts; the children of a patch are put in their places as
they come, so a patch is ordered.

Readers are followed by what holds of all they return (`Read.Returns`), action
by action.
-/

namespace Intension.Binary

namespace Read

/-! ## what a reader returns -/

/-- All that a reader can return has a property. -/
def Returns (r : Reader α) (P : α → Prop) : Prop := ∀ s v s', r.run s = .ok v s' → P v

theorem returns_any (r : Reader α) : Returns r fun _ => True := fun _ _ _ _ => trivial

/-- A reader of nothing returns what it is given. -/
theorem returns_pure {P : α → Prop} {v : α} (h : P v) : Returns (pure v) P := by
  intro s w s' hrun
  cases hrun
  exact h

/-- A reader that fails returns nothing. -/
theorem returns_fail (offset : Nat) (fault : ReadFault) (P : α → Prop) :
    Returns (fail offset fault) P := fun _ _ _ h => nomatch h

/-- What holds of all that the first action returns may be used for the second. -/
theorem Returns.bind {r : Reader α} {P : α → Prop} {f : α → Reader β} {Q : β → Prop}
    (hr : Returns r P) (hf : ∀ v, P v → Returns (f v) Q) : Returns (r >>= f) Q := by
  intro s w s'' h
  change (EStateM.bind r f) s = _ at h
  rw [EStateM.bind] at h
  cases hrun : r s with
  | error e s' =>
    rw [hrun] at h
    cases h
  | ok v s' =>
    rw [hrun] at h
    exact hf v (hr s v s' hrun) s' w s'' h

/-- What was read before does not matter. -/
theorem returns_after (r : Reader α) {f : α → Reader β} {Q : β → Prop}
    (hf : ∀ v, Returns (f v) Q) : Returns (r >>= f) Q := (returns_any r).bind fun v _ => hf v

/-- After a check its condition does not hold. -/
theorem returns_unless {condition : Prop} [Decidable condition] {offset : Nat} {fault : ReadFault}
    {next : Unit → Reader α} {Q : α → Prop} (h : ¬condition → Returns (next ()) Q) :
    Returns (if condition then fail offset fault >>= next else next ()) Q := by
  split
  · exact (returns_fail offset fault fun _ => False).bind fun _ hfalse => hfalse.elim
  · next hcondition => exact h hcondition

/-! ## contexts -/

/-- The children of a context come in ascending order after the one before them, and none
is empty. -/
theorem returns_contexts (σ : Setting) {readChild : Reader Context}
    (hread : Returns readChild Context.Valid) (n : Nat) (last : Option Dimension) :
    Returns (contexts σ readChild n last) fun l =>
      (∀ d ∈ last, ∀ e ∈ l, compare d e.1 = .lt) ∧ Keyed.Sorted l ∧
        (∀ e ∈ l, e.2.isEmpty = false) ∧ ∀ e ∈ l, e.2.Valid := by
  induction n generalizing last with
  | zero =>
    exact returns_pure ⟨fun _ _ => List.forall_mem_nil _, Keyed.sorted_nil,
      List.forall_mem_nil _, List.forall_mem_nil _⟩
  | succ n ih =>
    rw [contexts]
    refine returns_after _ fun start => returns_after _ fun d => returns_unless fun hlast => ?_
    refine returns_after _ fun childStart => hread.bind fun c hc => returns_unless fun hne => ?_
    refine (ih (some d)).bind fun l hl => returns_pure ?_
    obtain ⟨hd, hsorted, hnonempty, hinner⟩ := hl
    have hd : ∀ e ∈ l, compare d e.1 = .lt := hd d rfl
    refine ⟨fun k hk => ?_, Keyed.sorted_cons.2 ⟨hd, hsorted⟩,
      List.forall_mem_cons.2 ⟨Bool.eq_false_iff.2 hne, hnonempty⟩,
      List.forall_mem_cons.2 ⟨hc, hinner⟩⟩
    obtain rfl : last = some k := hk
    have hkd : compare k d = .lt := by simpa using hlast
    exact List.forall_mem_cons.2 ⟨hkd, fun e he => Std.TransCmp.lt_trans hkd (hd e he)⟩

/-- A context that is read at some level is of the right shape, since its order and its count are
checked. -/
theorem returns_contextWithin (σ : Setting) (room : Nat) :
    Returns (contextWithin σ room) Context.Valid := by
  induction room with
  | zero =>
    rw [contextWithin]
    exact returns_after _ fun _ => returns_after _ fun _ => returns_fail _ _ _
  | succ room ih =>
    rw [contextWithin]
    refine returns_after _ fun _ => returns_after _ fun _ => returns_after _ fun _ =>
      returns_after _ fun value => returns_after _ fun n => ?_
    refine (returns_contexts σ ih n none).bind fun l ⟨_, hsorted, hnonempty, hinner⟩ => ?_
    refine returns_unless fun _ => returns_after _ fun _ => returns_pure ?_
    exact .intro hsorted rfl hnonempty hinner

/-- **A context that is read is of the right shape**. -/
theorem returns_context (σ : Setting) : Returns (context σ) Context.Valid :=
  returns_after _ fun _ => returns_contextWithin σ _

/-! ## patches -/

/-- Children that are read are put in order. -/
theorem returns_patches (σ : Setting) {readChild : Reader Patch}
    (hread : Returns readChild Patch.Ordered) (n : Nat) {done : List (Dimension × Patch)}
    (hsorted : Keyed.Sorted done) (hinner : ∀ e ∈ done, e.2.Ordered) :
    Returns (patches σ readChild n done) fun l => Keyed.Sorted l ∧ ∀ e ∈ l, e.2.Ordered := by
  induction n generalizing done with
  | zero => exact returns_pure ⟨hsorted, hinner⟩
  | succ n ih =>
    rw [patches]
    refine returns_after _ fun start => returns_after _ fun d => hread.bind fun p hp => ?_
    refine returns_unless fun _ => ih (hsorted.insert d p) fun e he => ?_
    obtain rfl | he := Keyed.mem_insert he
    · exact hp
    · exact hinner e he

/-- A patch that is read at some level is ordered. -/
theorem returns_patchWithin (σ : Setting) (room : Nat) :
    Returns (patchWithin σ room) Patch.Ordered := by
  induction room with
  | zero =>
    rw [patchWithin]
    exact returns_after _ fun _ => returns_after _ fun _ => returns_fail _ _ _
  | succ room ih =>
    rw [patchWithin]
    refine returns_after _ fun _ => returns_after _ fun _ => returns_after _ fun _ =>
      returns_unless fun _ => ?_
    refine returns_after _ fun _ => returns_after _ fun _ => returns_after _ fun _ =>
      returns_after _ fun _ => returns_after _ fun value => returns_after _ fun n => ?_
    refine (returns_patches σ ih n Keyed.sorted_nil (List.forall_mem_nil _)).bind fun l hl => ?_
    refine returns_unless fun _ => returns_unless fun _ => returns_after _ fun _ =>
      returns_pure ?_
    exact Patch.ordered_node hl.1 hl.2

/-- **A patch that is read is ordered**. -/
theorem returns_patch (σ : Setting) : Returns (patch σ) Patch.Ordered :=
  returns_after _ fun _ => (returns_patchWithin σ _).bind fun _ hp =>
    returns_pure (hp.normalize false)

end Read

end Intension.Binary
