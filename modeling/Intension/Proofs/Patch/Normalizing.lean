import Intension.Proofs.Patch.Tidy

/-!
# Intension.Proofs.Patch.Normalizing

What normal form is for.  A patch is read as a tree in which children may be
redundant at any depth, and some only become so once their own children are gone;
`normalize` drops them all, from the leaves upwards.  Nothing of this shows: in its
region the normal form changes every context as the tree did, since both say the
same at every path (`headAt_normalize`).

All that is asked of the tree is that its children are sorted, as those are that
parsing and decoding put together (`Grammar.Frame.Ordered.patch`,
`Binary.Read.returns_patchWithin`); its counts may be anything.
-/

namespace Intension.Patch

variable {p : Patch}

/-- **In its region a normal form acts like the patch that it was made of.** -/
theorem Ordered.mergeInto_normalize (hp : p.Ordered) (forced : Bool) {c : Context}
    (hc : c.Valid) : (p.normalize forced).mergeInto forced c == p.mergeInto forced c := by
  have hnormal : (p.normalize forced).Ordered := hp.normalize forced
  refine (Context.beq_iff_baseAt (hnormal.valid_mergeInto forced hc)
    (hp.valid_mergeInto forced hc)).2 fun q => ?_
  rw [baseAt_mergeInto hnormal forced hc, baseAt_mergeInto hp forced hc, headAt_normalize hp]
  exact BEq.rfl

/-- Where nothing is redundant and all counts are exact, there is nothing left to do. -/
theorem Exact.normalize_eq_self (h : p.Exact) {forced : Bool} (hpruned : p.Pruned forced) :
    p.normalize forced = p := by
  induction h generalizing forced with
  | @intro p sorted bases blanks inner ih =>
    have hchildren : normalizeChildren (p.clearsDims || forced) p.children = p.children :=
      normalizeChildren_eq_self hpruned.kept fun e he => ih e he (hpruned.inner e he)
    rw [normalize_eq, hchildren]
    exact Exact.node_eq (.intro sorted bases blanks inner)

/-- **Normal form keeps the meaning** of every patch, in a clearing region and outside: each
context is changed as before, nothing redundant is left at any depth, all counts are exact, and
there is nothing to do a second time. -/
theorem normalize_sound (hp : p.Ordered) (forced : Bool) :
    (∀ c : Context, c.Reachable →
      (p.normalize forced).mergeInto forced c == p.mergeInto forced c) ∧
    (p.normalize forced).TidyIn forced ∧
    (p.normalize forced).normalize forced = p.normalize forced := by
  have hexact : (p.normalize forced).Exact := exact_normalize (hp.normalize forced)
  have hpruned : (p.normalize forced).Pruned forced := pruned_normalize forced p
  exact ⟨fun c hc => hp.mergeInto_normalize forced hc.valid, hexact.tidyIn hpruned,
    hexact.normalize_eq_self hpruned⟩

/-- The tree of `[1:[--+2:[---+3:[---]]+4:[]]+5:[6:[]]]`.  At `1:2` and at `5` a child is redundant
only after its own child is gone; the one at `1:4` keeps a base that its region would drop. -/
def cascade : Patch :=
  node none false false
    [(.integer 1, node none false true
      [(.integer 2, node none true true [(.integer 3, clearAll)]), (.integer 4, noop)]),
     (.integer 5, node none false false [(.integer 6, noop)])]

theorem ordered_cascade : cascade.Ordered := by
  have hone {q : Patch} (base clearsBase clearsDims) (d : Dimension) (hq : q.Ordered) :
      (node base clearsBase clearsDims [(d, q)]).Ordered :=
    ordered_node (List.pairwise_singleton _ _) (List.forall_mem_singleton.2 hq)
  have htwo {q r : Patch} (clearsDims) {d e : Dimension} (hlt : compare d e = .lt)
      (hq : q.Ordered) (hr : r.Ordered) :
      (node none false clearsDims [(d, q), (e, r)]).Ordered :=
    ordered_node (List.pairwise_pair.2 hlt)
      (List.forall_mem_cons.2 ⟨hq, List.forall_mem_singleton.2 hr⟩)
  exact htwo false (by decide)
    (htwo true (by decide) (hone none true true _ ordered_clearAll) ordered_noop)
    (hone none false false _ ordered_noop)

/-- Of the six nodes below the first one two are left, the second one `[]` in a clearing region. -/
theorem normalize_sound_of_cascade :
    let c := ((Context.empty.setBaseAt [.integer 1, .integer 2] .alpha).setBaseAt
      [.integer 1, .integer 4] .omega).setBaseAt [.integer 5, .integer 6] .alpha
    cascade.normalize false =
        node none false false [(.integer 1, node none false true [(.integer 4, noop)])] ∧
      ((cascade.normalize false).mergeInto false c == cascade.mergeInto false c) ∧
      ((cascade.normalize true).mergeInto true c == cascade.mergeInto true c) ∧
      (c.baseCount, (cascade.mergeInto false c).baseCount, (cascade.mergeInto true c).baseCount) =
        (3, 2, 2) ∧
      (cascade.normalize false).TidyIn false ∧ (cascade.normalize true).TidyIn true := by
  intro c
  have hc : c.Reachable := ((Context.Reachable.empty.setBaseAt _ _).setBaseAt _ _).setBaseAt _ _
  obtain ⟨hfalse, hfalseTidy, -⟩ := normalize_sound ordered_cascade false
  obtain ⟨htrue, htrueTidy, -⟩ := normalize_sound ordered_cascade true
  exact ⟨rfl, hfalse c hc, htrue c hc, by decide +kernel, hfalseTidy, htrueTidy⟩

end Intension.Patch
