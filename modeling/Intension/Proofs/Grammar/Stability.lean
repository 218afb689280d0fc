import Intension.Proofs.Context.Counting
import Intension.Proofs.Grammar.RoundTrip
import Intension.Proofs.Patch.Tidy

/-!
# Intension.Proofs.Grammar.Stability

Whatever text is read, the text of what was read is read as the same again.  What a
derivation spells has no more levels than the derivation, and putting it in normal
form adds none, so it is not too deep to be read back (`Patch.levels_parse`).  A
text all in angle brackets spells a patch that clears at every node, and such a
patch is one of a context (`Patch.Exact.exists_ofContext`).

Only a number may spoil this: a literal too large for any finite number is read as
an infinity, and that has no literal.
-/

namespace Intension

/-! ## finite numbers

Whether all numbers are finite is told node by node, so it can be computed. -/

namespace Context

/-- A context has literals exactly if the base values at all its nodes have. -/
theorem hasLiterals_iff {c : Context} :
    c.HasLiterals ↔ ∀ n ∈ c.nodes, ∀ v ∈ n.2.base, v.HasLiteral := by
  refine lists_nodes.forall_mem_iff (Q := fun k => ∀ v ∈ k.base, v.HasLiteral) fun k => ?_
  constructor
  · rintro ⟨base, inner⟩
    exact ⟨base, inner⟩
  · rintro ⟨base, inner⟩
    exact .intro base inner

instance (c : Context) : Decidable c.HasLiterals := decidable_of_iff' _ hasLiterals_iff

end Context

namespace Patch

/-- A patch has literals exactly if the base values at all its nodes have. -/
theorem hasLiterals_iff {p : Patch} :
    p.HasLiterals ↔ ∀ n ∈ p.nodes, ∀ v ∈ n.2.base, v.HasLiteral := by
  refine lists_nodes.forall_mem_iff (Q := fun k => ∀ v ∈ k.base, v.HasLiteral) fun k => ?_
  constructor
  · rintro ⟨base, inner⟩
    exact ⟨base, inner⟩
  · rintro ⟨base, inner⟩
    exact .intro base inner

instance (p : Patch) : Decidable p.HasLiterals := decidable_of_iff' _ hasLiterals_iff

/-! ## levels of normal forms -/

/-- Normalizing makes a patch no deeper. -/
theorem levels_normalize_le (forced : Bool) (p : Patch) :
    (p.normalize forced).levels ≤ p.levels := by
  induction p using children_induction generalizing forced with
  | step p ih =>
    rw [normalize_eq, node, levels_eq, levels_eq]
    refine Nat.succ_le_succ (levelsBelow_le_iff.2 fun e he => ?_)
    obtain ⟨k, hk, rfl⟩ := mem_normalizeChildren he
    exact (ih k hk _).trans (levels_le_levelsBelow hk)

/-! ## patches that clear everywhere -/

/-- Every node clears its base and its dimensions, so nothing is left of what the patch meets. -/
inductive Absolute : Patch → Prop
  | intro {p : Patch} (base : p.clearsBase) (dims : p.clearsDims)
      (inner : ∀ e ∈ p.children, Absolute e.2) : Absolute p

/-- A patch that clears everything still does when it is normalized. -/
theorem Absolute.normalize {p : Patch} (h : p.Absolute) (forced : Bool) :
    (p.normalize forced).Absolute := by
  induction h generalizing forced with
  | @intro p base dims inner ih =>
    rw [normalize_eq]
    refine .intro base dims fun e he => ?_
    obtain ⟨k, hk, rfl⟩ := mem_normalizeChildren he
    exact ih k hk _

/-- **A patch that clears everywhere is one of a context**, if it is in normal form. -/
theorem Exact.exists_ofContext {p : Patch} {forced : Bool} (h : p.Exact) (hclears : p.Absolute)
    (hpruned : p.Pruned forced) : ∃ c : Context, c.Valid ∧ ofContext c = p := by
  induction h generalizing forced with
  | @intro p sorted bases blanks inner ih =>
    obtain ⟨hbase, hdims, habsolute⟩ := hclears
    have hchild : ∀ e ∈ p.children, ∃ c : Context,
        c.Valid ∧ c.isEmpty = false ∧ ofContext c = e.2 := by
      intro e he
      obtain ⟨c, hc, heq⟩ := ih e he (habsolute e he) (hpruned.inner e he)
      refine ⟨c, hc, Bool.eq_false_iff.2 fun hempty => ?_, heq⟩
      -- the patch of the empty context would be redundant here
      have hkept := hpruned.kept e he
      rw [← heq, hc.eq_empty hempty, hdims] at hkept
      cases hkept
    choose! f hf using hchild
    let children := p.children.map fun e => (e.1, f e)
    refine ⟨⟨p.base, children, p.base.toList.length + Context.totalBases children⟩,
      .intro ?_ rfl ?_ ?_, ?_⟩
    · exact List.pairwise_map.2 sorted
    · exact List.forall_mem_map.2 fun e he => (hf e he).2.1
    · exact List.forall_mem_map.2 fun e he => (hf e he).1
    · have hsame : ∀ e ∈ p.children, (e.1, ofContext (f e)) = id e :=
        fun e he => Prod.ext rfl (hf e he).2.2
      have hmap : (p.children.map fun e => (e.1, ofContext (f e))) = p.children := by
        rw [List.map_congr_left hsame, List.map_id]
      have hnode := Exact.node_eq (.intro sorted bases blanks inner)
      rw [hbase, hdims] at hnode
      rw [ofContext_eq, ofContexts_eq, List.map_map]
      exact (congrArg (node p.base true true) hmap).trans hnode

end Patch

namespace Grammar

/-! ## what derivations spell -/

variable {terms : List Term} {n : Node}

/-- The patches of the children are those of the nodes among the terms. -/
theorem map_entries (terms : List Term) :
    (entries terms).map (·.2) = (nodes terms).map Node.patch := by
  induction terms with
  | nil => rw [entries]; rfl
  | cons t terms ih =>
    cases t with
    | marker => rw [entries]; exact ih
    | base => rw [entries]; exact ih
    | child k d n => rw [entries, List.map_cons, ih]; rfl

/-- Each child of the patch is spelled by a node of the body. -/
theorem forall_mem_placed {P : Patch → Prop} (h : ∀ n ∈ nodes terms, P n.patch) :
    ∀ e ∈ placed (entries terms), P e.2 := by
  intro e he
  obtain he | he := Keyed.mem_foldl_insert he
  · have hmem : e.2 ∈ (nodes terms).map Node.patch :=
      map_entries terms ▸ List.mem_map_of_mem (f := (·.2)) he
    exact List.forall_mem_map.2 h e.2 hmem
  · cases he

/-- **A patch has no more levels than the derivation that spells it.** -/
theorem levels_patch (h : n.WellFormed) : n.patch.levels ≤ n.depth := by
  induction h with
  | @node angled terms fits inner ih =>
    rw [Node.patch, Patch.node, Patch.levels_eq, Node.depth]
    refine Nat.succ_le_succ (Patch.levelsBelow_le_iff.2 ?_)
    have hdeepest := deepest_le_iff.1 (Nat.le_refl (deepest terms))
    exact forall_mem_placed (P := (Patch.levels · ≤ deepest terms))
      fun n hn => (ih n hn).trans (hdeepest n hn)

/-- In angle brackets every node clears. -/
theorem absolute_patch (h : n.WellFormed) : n.angled → n.patch.Absolute := by
  induction h with
  | @node angled terms fits inner ih =>
    intro hangled
    obtain rfl : angled = true := hangled
    have hmarkers : markers terms = [] := List.eq_nil_of_length_eq_zero (Nat.le_zero.1 fits.markers)
    have hmarks : baseMark true terms = true ∧ dimsMark true terms = true := by
      rw [baseMark, dimsMark, hmarkers]
      exact ⟨rfl, rfl⟩
    rw [Node.patch, hmarks.1, hmarks.2]
    exact .intro rfl rfl (forall_mem_placed fun n hn => ih n hn (fits.nodes rfl n hn))

end Grammar

variable {limits : Limits} {t : Text}

/-- **What is read is not too deep to be read again.** -/
theorem Patch.levels_parse {p : Patch} (h : Patch.parse limits t = .ok p) :
    p.levels ≤ max 1 limits.maxDepth := by
  obtain ⟨_, n, -, hn, rfl⟩ := Grammar.readPatch_eq_ok_iff.1 h
  exact (levels_normalize_le false n.patch).trans
    ((Grammar.levels_patch hn.wellFormed).trans hn.depth)

/-- **The text of a context is that of a patch too**: of the one that makes the context of the
empty one. -/
theorem Patch.parse_of_context {c : Context} (h : Context.parse limits t = .ok c) :
    Patch.parse limits t = .ok (Patch.ofContext c) := by
  obtain ⟨p, hp, rfl⟩ := Grammar.exists_of_map_eq_ok h
  obtain ⟨lexemes, n, hlexemes, hn, rfl⟩ := Grammar.readPatch_eq_ok_iff.1 hp
  have hparse : Patch.parse limits t = .ok (n.patch.normalize false) :=
    Grammar.readPatch_eq_ok_iff.2 ⟨lexemes, n, hlexemes,
      ⟨hn.tokens, hn.wellFormed, nofun, hn.depth⟩, rfl⟩
  have hclears : (n.patch.normalize false).Absolute :=
    (Grammar.absolute_patch hn.wellFormed (hn.angled rfl)).normalize false
  obtain ⟨c, hc, heq⟩ := (exact_parse hparse).exists_ofContext hclears (pruned_parse hparse)
  rw [hparse, ← heq, Context.ofPatch_ofContext hc]

/-! ## reading again -/

/-- **Texts are stable once they were read**: if a text is read as a context or a patch, of finite
numbers, then each text of what was read is read as the same, and it stays as it is. -/
theorem Grammar.parse_stable (limits : Limits) (t : Text) :
    (∀ c, Context.parse limits t = .ok c → c.HasLiterals →
      ∃ c', Context.parse limits c.text = .ok c' ∧ c' == c ∧ c'.text = c.text) ∧
    (∀ p, Patch.parse limits t = .ok p → p.HasLiterals →
      (∃ q, Patch.parse limits p.text = .ok q ∧ q == p ∧ q.text = p.text) ∧
      (∃ q, Patch.parse limits p.shortText = .ok q ∧ q == p ∧ q.text = p.text)) := by
  constructor
  · intro c hc hnumbers
    have hlevels : c.levels ≤ max 1 limits.maxDepth := by
      rw [← Patch.levels_ofContext]
      exact Patch.levels_parse (Patch.parse_of_context hc)
    exact Context.Reachable.exists_parse_text (.parse hc) hnumbers hlevels
  · intro p hp hnumbers
    have hbuilt : p.Built := .parse hp
    have hlevels := Patch.levels_parse hp
    exact ⟨hbuilt.exists_parse_spelling hnumbers hlevels false,
      hbuilt.exists_parse_spelling hnumbers hlevels true⟩

/-- A number spelled at length, and children that are redundant where they stand: none of it is
left in the texts of what is read. -/
theorem Grammar.parse_stable_of_untidy :
    (∃ c, Context.parse ⟨0, 0, 0, 2⟩ "<007.50e0+\"a\":<>+b:<x>>".toList = .ok c ∧
      c.text = "<7.5+b:<\"x\">>".toList ∧
      ∃ c', Context.parse ⟨0, 0, 0, 2⟩ c.text = .ok c' ∧ c' == c ∧ c'.text = c.text) ∧
    (∃ p, Patch.parse ⟨0, 0, 0, 2⟩ "[--+\"a\":[---]+b:<007.50e0>]".toList = .ok p ∧
      p.text = "[--+b:[---+7.5]]".toList ∧ p.shortText = "[--+b:<7.5>]".toList ∧
      (∃ q, Patch.parse ⟨0, 0, 0, 2⟩ p.text = .ok q ∧ q == p ∧ q.text = p.text) ∧
      (∃ q, Patch.parse ⟨0, 0, 0, 2⟩ p.shortText = .ok q ∧ q == p ∧ q.text = p.text)) := by
  have hcontext : (Context.parse ⟨0, 0, 0, 2⟩ "<007.50e0+\"a\":<>+b:<x>>".toList).toOption.any
      fun c => c.HasLiterals ∧ c.text = "<7.5+b:<\"x\">>".toList := by decide +kernel
  have hpatch : (Patch.parse ⟨0, 0, 0, 2⟩ "[--+\"a\":[---]+b:<007.50e0>]".toList).toOption.any
      fun p => p.HasLiterals ∧ p.text = "[--+b:[---+7.5]]".toList ∧
        p.shortText = "[--+b:<7.5>]".toList := by decide +kernel
  obtain ⟨c, hc, hcontext⟩ := exists_of_any_toOption hcontext
  obtain ⟨p, hp, hpatch⟩ := exists_of_any_toOption hpatch
  obtain ⟨hcnumbers, hctext⟩ := of_decide_eq_true hcontext
  obtain ⟨hpnumbers, hptext, hpshort⟩ := of_decide_eq_true hpatch
  exact ⟨⟨c, hc, hctext, (parse_stable _ _).1 c hc hcnumbers⟩,
    ⟨p, hp, hptext, hpshort, (parse_stable _ _).2 p hp hpnumbers⟩⟩

/-- A literal beyond the range of numbers is read as an infinity, and the text of that as a
string. -/
theorem Grammar.parse_unstable_of_infinity :
    ∃ c, Context.parse ⟨0, 0, 0, 1⟩ "<1e999>".toList = .ok c ∧ c.text = "<inf>".toList ∧
      ∃ c', Context.parse ⟨0, 0, 0, 1⟩ c.text = .ok c' ∧ c'.text ≠ c.text := by
  have hread : (Context.parse ⟨0, 0, 0, 1⟩ "<1e999>".toList).toOption.any
      fun c => c.text = "<inf>".toList := by decide +kernel
  have hagain : (Context.parse ⟨0, 0, 0, 1⟩ "<inf>".toList).toOption.any
      fun c' => c'.text ≠ "<inf>".toList := by decide +kernel
  obtain ⟨c, hc, htext⟩ := exists_of_any_toOption hread
  obtain ⟨c', hc', htext'⟩ := exists_of_any_toOption hagain
  have htext : c.text = "<inf>".toList := of_decide_eq_true htext
  exact ⟨c, hc, htext, c', htext ▸ hc', htext ▸ of_decide_eq_true htext'⟩

end Intension
