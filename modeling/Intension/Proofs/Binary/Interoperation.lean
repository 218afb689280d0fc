import Intension.Proofs.Binary.PatchRoundTrip

/-!
# Intension.Proofs.Binary.Interoperation

Writers and readers under limits of their own.  Whether some bytes are read under
certain limits does not depend on the limits they were written under: they are read
just if what they stand for could be written under the limits of the reader.  That
goes for every limit, also where a length or the number of levels is exactly at it,
since each check of a writer meets the same check of the reader (`Concur`).
-/

namespace Intension.Binary

variable {α : Type} {limits : Limits} {σ : Setting}

/-- A writer that refuses ends in an error. -/
theorem encode_of_refuses {w : Writer} (h : Refuses w limits.maxDepth) :
    ∃ fault, encode limits w = .error fault := by
  obtain ⟨fault, s, hrun⟩ := h #[]
  exact ⟨fault, by rw [encode, Output.start, hrun]⟩

/-- A reader that rejects all of the input ends in an error. -/
theorem decode_of_rejects {r : Reader α} {bs : List UInt8}
    (h : Rejects r σ.limits.maxDepth bs) : ∃ e, decode σ r bs = .error e := by
  obtain ⟨e, s, hrun⟩ := h.bind (fun v => do Read.finish; return v) [] 0 []
  rw [List.append_nil, List.append_nil] at hrun
  exact ⟨e, by rw [decode, Input.start, hrun]⟩

/-- What was written under some limits is read under others just if it can be written under them. -/
theorem Concur.decode_iff {w w' : Writer} {r : Reader α} {left' room' : Nat} {v : α}
    (h : Concur w w' r limits.maxDepth left' σ.limits.maxDepth room' v) {bs : List UInt8}
    (hbs : encode limits w = .ok bs) :
    (∃ u, decode σ r bs = .ok u) ↔ ∃ bs', encode σ.limits w' = .ok bs' := by
  obtain ⟨s, hrun, rfl⟩ := run_of_encode hbs
  obtain ⟨out, rfl, hboth⟩ := h _ _ hrun
  rw [toList_empty_append]
  obtain ⟨hemits, htakes⟩ | ⟨hrefuses, hrejects⟩ := hboth
  · exact iff_of_true ⟨v, decode_of_takes htakes⟩ ⟨out, encode_of_emits hemits⟩
  · obtain ⟨fault, hfault⟩ := encode_of_refuses hrefuses
    obtain ⟨e, he⟩ := decode_of_rejects hrejects
    refine iff_of_false ?_ ?_
    · rintro ⟨u, hu⟩
      rw [he] at hu
      cases hu
    · rintro ⟨bs', hbs'⟩
      rw [hfault] at hbs'
      cases hbs'

/-- Of the values that can be had, what is written under some limits is read under a setting just
if the value can be written under the limits of the setting. -/
def Interoperate (limits : Limits) (σ : Setting) (Had : α → Prop) (write : Limits → α → Writer)
    (read : Reader α) : Prop :=
  ∀ v bs, Had v → encode limits (write limits v) = .ok bs →
    ((∃ u, decode σ read bs = .ok u) ↔ ∃ bs', encode σ.limits (write σ.limits v) = .ok bs')

/-- **A writer refuses what a reader rejects**, and nothing else: for contexts, patches and paths,
under any limits of the one that wrote and any of the one that reads. -/
theorem interoperate (limits : Limits) (σ : Setting) :
    Interoperate limits σ Context.Reachable Write.context (Read.context σ) ∧
    Interoperate limits σ Patch.Reachable Write.patch (Read.patch σ) ∧
    Interoperate limits σ (fun _ => True) Write.path (Read.path σ) :=
  ⟨fun _ _ hc => (concur_context hc.valid).decode_iff,
    fun _ _ hp => (concur_patch hp.exact).decode_iff,
    fun p _ _ => (concur_path p).decode_iff⟩

/-- A name of two bytes that leads to a string of three is read where the limits are just these,
and two levels, and under none that are lower by one. -/
theorem interoperate_at_limits :
    let c := Context.empty.setBaseAt [.name "ab".toList false] (.string "xyz".toList)
    ∃ bs, c.encode .standard = .ok bs ∧
      (∃ u, Context.decode ⟨⟨3, 2, 0, 2⟩, none⟩ bs = .ok u) ∧
      ∀ limits ∈ [⟨2, 2, 0, 2⟩, ⟨3, 1, 0, 2⟩, ⟨3, 2, 0, 1⟩],
        ¬∃ u, Context.decode ⟨limits, none⟩ bs = .ok u := by
  intro c
  have hc : c.Reachable := .setBaseAt .empty _ _
  have hiff (bs) (hbs : c.encode .standard = .ok bs) (limits : Limits) :
      (∃ u, Context.decode ⟨limits, none⟩ bs = .ok u) ↔ ∃ bs', c.encode limits = .ok bs' :=
    (interoperate .standard ⟨limits, none⟩).1 c bs hc hbs
  refine ⟨_, rfl, (hiff _ rfl _).2 ⟨_, rfl⟩, fun limits hlimits => ?_⟩
  rw [hiff _ rfl]
  simp only [List.mem_cons, List.not_mem_nil, or_false] at hlimits
  obtain rfl | rfl | rfl := hlimits <;> exact nofun

end Intension.Binary
