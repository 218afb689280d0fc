import Intension.Proofs.Patch.Composition

/-!
# Intension.Proofs.Patch.Pruned

Patches without redundant children (`Patch.Pruned`).  A child is redundant or
not by the region that it stands in, so the property is one of a patch in a
region.  Normal form has it in any region, each edit keeps it, and so does
composition: what an edit leaves of a child is stored only if it is not
redundant there.
-/

namespace Intension.Patch

/-- No child is redundant at any depth; `forced` tells whether the patch stands in a clearing
region. -/
inductive Pruned : Bool → Patch → Prop
  | intro {forced : Bool} {p : Patch}
      (kept : ∀ e ∈ p.children, e.2.isRedundant (p.clearsDims || forced) = false)
      (inner : ∀ e ∈ p.children, Pruned (p.clearsDims || forced) e.2) : Pruned forced p

namespace Pruned

variable {forced : Bool} {p k : Patch}

/-- No child of a pruned patch is redundant. -/
theorem kept (h : p.Pruned forced) :
    ∀ e ∈ p.children, e.2.isRedundant (p.clearsDims || forced) = false := by cases h; assumption

/-- The children of a pruned patch are pruned. -/
theorem inner (h : p.Pruned forced) : ∀ e ∈ p.children, e.2.Pruned (p.clearsDims || forced) := by
  cases h; assumption

/-- A stored child of a pruned patch is pruned and not redundant. -/
theorem child? {d : Dimension} (h : p.Pruned forced) (hk : p.child? d = some k) :
    k.isRedundant (p.clearsDims || forced) = false ∧ k.Pruned (p.clearsDims || forced) := by
  obtain ⟨e, -, hmem⟩ := Keyed.mem_of_get? hk
  exact ⟨h.kept _ hmem, h.inner _ hmem⟩

/-- The base and the mark to clear it do not bear on what is redundant. -/
theorem of_children_eq (h : p.Pruned forced) (hchildren : k.children = p.children)
    (hclears : k.clearsDims = p.clearsDims) : k.Pruned forced := by
  refine .intro ?_ ?_ <;> rw [hchildren, hclears]
  · exact h.kept
  · exact h.inner

end Pruned

/-- A patch that does nothing is pruned in any region. -/
theorem pruned_absent (forced clearing : Bool) : (absent clearing).Pruned forced := by
  have hchildren : (absent clearing).children = [] := by cases clearing <;> rfl
  refine .intro ?_ ?_ <;> rw [hchildren] <;> exact nofun

/-- An ordered patch is pruned if what it finds along each dimension is. -/
theorem pruned_of_child? {forced clearing : Bool} {p : Patch} (hp : p.Ordered)
    (hclearing : clearing = (p.clearsDims || forced))
    (h : ∀ d k, p.child? d = some k → k.isRedundant clearing = false ∧ k.Pruned clearing) :
    p.Pruned forced := by
  subst hclearing
  exact .intro (fun e he => (h _ _ (hp.sorted.get?_of_mem he)).1)
    fun e he => (h _ _ (hp.sorted.get?_of_mem he)).2

/-! ## normal form -/

/-- Normalizing leaves no redundant child. -/
theorem isRedundant_of_mem_normalizeChildren {clearing : Bool} {l : List (Dimension × Patch)}
    {e : Dimension × Patch} (h : e ∈ normalizeChildren clearing l) :
    e.2.isRedundant clearing = false := by
  induction l with
  | nil => cases h
  | cons k l ih =>
    rw [normalizeChildren_cons] at h
    split at h
    · exact ih h
    · next hkept =>
      obtain rfl | h := List.mem_cons.1 h
      · exact Bool.eq_false_iff.2 hkept
      · exact ih h

/-- **Normal form is pruned.** -/
theorem pruned_normalize (forced : Bool) (p : Patch) : (p.normalize forced).Pruned forced := by
  induction p using children_induction generalizing forced with
  | step p ih =>
    rw [normalize_eq]
    refine .intro (fun e he => isRedundant_of_mem_normalizeChildren he) fun e he => ?_
    obtain ⟨k, hk, rfl⟩ := mem_normalizeChildren he
    exact ih k hk _

/-- Normalizing leaves children alone that are normalized and not redundant. -/
theorem normalizeChildren_eq_self {clearing : Bool} {l : List (Dimension × Patch)}
    (hkept : ∀ e ∈ l, e.2.isRedundant clearing = false)
    (hinner : ∀ e ∈ l, e.2.normalize clearing = e.2) : normalizeChildren clearing l = l := by
  induction l with
  | nil => rfl
  | cons e l ih =>
    obtain ⟨he, hkept⟩ := List.forall_mem_cons.1 hkept
    obtain ⟨heq, hinner⟩ := List.forall_mem_cons.1 hinner
    rw [normalizeChildren_cons, heq, he, if_neg Bool.false_ne_true, ih hkept hinner]

/-! ## edits -/

namespace Pruned

variable {forced clearing : Bool} {p k : Patch}

/-- Editing a child of a pruned patch keeps it pruned, if the new child is. -/
theorem withChild (h : p.Pruned forced) (hclearing : clearing = (p.clearsDims || forced))
    {d : Dimension} {start : Bool} {f : Patch → Patch}
    (hf : (f ((p.child? d).getD (absent start))).Pruned clearing) :
    (p.withChild d start clearing f).Pruned forced := by
  subst hclearing
  have hstored : ∀ k ∈ (f ((p.child? d).getD (absent start))).stored (p.clearsDims || forced),
      k.isRedundant (p.clearsDims || forced) = false ∧ k.Pruned (p.clearsDims || forced) := by
    intro k hk
    rw [stored] at hk
    split at hk
    · cases hk
    · next hkept =>
      cases hk
      exact ⟨Bool.eq_false_iff.2 hkept, hf⟩
  have hall : ∀ e ∈ (p.withChild d start (p.clearsDims || forced) f).children,
      e.2.isRedundant (p.clearsDims || forced) = false ∧ e.2.Pruned (p.clearsDims || forced) := by
    rw [children_withChild]
    exact Keyed.forall_mem_store (fun e he => ⟨h.kept e he, h.inner e he⟩) hstored
  refine .intro ?_ ?_ <;> rw [clearsDims_withChild]
  · exact fun e he => (hall e he).1
  · exact fun e he => (hall e he).2

/-- A child of a pruned patch, or what stands for one not stored, is pruned. -/
theorem getD_child? (h : p.Pruned forced) (d : Dimension) (start : Bool) :
    ((p.child? d).getD (absent start)).Pruned (p.clearsDims || forced) := by
  cases hk : p.child? d with
  | none => exact pruned_absent _ start
  | some k => exact (h.child? hk).2

/-- Editing a node of a pruned patch keeps it pruned, if the new node is. -/
theorem editAt {f : Bool → Patch → Patch}
    (hf : ∀ forced (k : Patch), k.Ordered → k.Pruned forced → (f forced k).Pruned forced)
    (hp : p.Ordered) (h : p.Pruned forced) (path : Path) :
    (p.editAt f forced path).Pruned forced := by
  induction path generalizing p forced with
  | nil => exact hf forced p hp h
  | cons d path ih => exact h.withChild rfl (ih (hp.getD_child? d _) (h.getD_child? d _))

/-- An edit that leaves the children and the mark to clear dimensions alone. -/
theorem editAt_of_children_eq (f : Patch → Patch) (hchildren : ∀ k, (f k).children = k.children)
    (hclears : ∀ k, (f k).clearsDims = k.clearsDims) (hp : p.Ordered) (h : p.Pruned forced)
    (path : Path) : (p.editAt (fun _ k => f k) forced path).Pruned forced :=
  h.editAt (fun _ k _ hk => hk.of_children_eq (hchildren k) (hclears k)) hp path

/-- Marking the children of a node as cleared, or no longer so, prunes what becomes redundant. -/
theorem setDimsMark (h : p.Pruned forced) (mark : Bool) :
    (p.setDimsMark mark forced).Pruned forced := by
  rw [Patch.setDimsMark]
  split
  · exact h
  · exact pruned_normalize forced _

/-- Replacing a child prunes what is redundant in it. -/
theorem withDim (h : p.Pruned false) (d : Dimension) (k : Patch) :
    (Patch.withDim d k p).Pruned false :=
  h.withChild (Bool.or_false _).symm (pruned_normalize _ _)

/-! ## composition -/

/-- **A composed patch is pruned** where the first one is, whatever the second one holds. -/
theorem composeInto {q : Patch} (hq : q.Ordered) (pForced qForced : Bool) (hp : p.Ordered)
    (h : p.Pruned pForced) :
    (Patch.composeInto q pForced qForced p).Pruned (pForced || qForced) := by
  induction hq generalizing pForced qForced p with
  | @intro q sorted inner ih =>
    have hordered := Ordered.composeInto (.intro sorted inner) pForced qForced hp
    refine pruned_of_child? hordered (clears_composeInto q pForced qForced p).symm fun d k hk => ?_
    rw [composeInto_eq, child?_composeChildren sorted, child?_composeHead, Keyed.contains] at hk
    cases hget : Keyed.get? d q.children with
    | none =>
      -- the child was there before, so it is none that `q` drops
      cases hqClears : q.clearsDims || qForced with
      | true => simp [hget, hqClears] at hk
      | false =>
        rw [Bool.or_false]
        exact h.child? (by simpa [hget, hqClears] using hk)
    | some m =>
      simp only [hget, Option.elim_some, Option.isSome_some, Bool.not_true, Bool.and_false,
        Bool.false_eq_true, if_false] at hk
      obtain ⟨e, -, he⟩ := Keyed.mem_of_get? hget
      rw [stored] at hk
      split at hk
      · cases hk
      · next hkept =>
        cases hk
        exact ⟨Bool.eq_false_iff.2 hkept,
          ih _ he _ _ (hp.getD_child? d _) (h.getD_child? d _)⟩

end Pruned

/-! ## the patch of a context -/

/-- A stored child of a context is kept in its patch. -/
theorem isRedundant_ofContext {c : Context} (hc : c.Valid) (hnonempty : c.isEmpty = false)
    (clearing : Bool) : (ofContext c).isRedundant clearing = false := by
  refine Bool.eq_false_iff.2 fun hredundant => ?_
  obtain ⟨hhead, hchildren⟩ := isRedundant_iff.1 hredundant
  rw [ofContext_eq, ofContexts_eq] at hchildren
  have hbase : c.base = none := by
    have h := congrArg Head.base hhead
    rw [ofContext_eq] at h
    cases clearing <;> exact h
  have hcount : c.baseCount = 0 := by
    rw [hc.count, hbase, List.map_eq_nil_iff.1 hchildren]
    rfl
  rw [Context.isEmpty_iff.2 hcount] at hnonempty
  cases hnonempty

/-- The patch of a context is pruned in any region. -/
theorem pruned_ofContext {c : Context} (hc : c.Valid) (forced : Bool) :
    (ofContext c).Pruned forced := by
  induction hc generalizing forced with
  | @intro c _ _ nonempty inner ih =>
    have hall : ∀ e ∈ (ofContext c).children, ∃ k ∈ c.children, e = (k.1, ofContext k.2) := by
      rw [ofContext_eq, ofContexts_eq]
      exact fun e he => (List.mem_map.1 he).imp fun _ hk => ⟨hk.1, hk.2.symm⟩
    refine .intro (fun e he => ?_) fun e he => ?_
    · obtain ⟨k, hk, rfl⟩ := hall e he
      exact isRedundant_ofContext (inner k hk) (nonempty k hk) _
    · obtain ⟨k, hk, rfl⟩ := hall e he
      exact ih k hk _

end Intension.Patch
