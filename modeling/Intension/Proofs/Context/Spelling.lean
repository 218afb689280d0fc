import Intension.Proofs.Patch.Spelling

/-!
# Intension.Proofs.Context.Spelling

Contexts as their texts spell them.  The text of a context is the short text of
the patch that makes it of the empty one (`spelling_ofContext`), and what the
texts of patches tell and leave out they tell and leave out of contexts too.
-/

namespace Intension

namespace Context

/-! ## what texts spell -/

/-- Every number in a context is finite. -/
inductive HasLiterals : Context → Prop
  | intro {c : Context} (base : ∀ v ∈ c.base, v.HasLiteral)
      (inner : ∀ e ∈ c.children, HasLiterals e.2) : HasLiterals c

mutual

/-- The levels of nodes of a context. -/
def levels : Context → Nat
  | ⟨_, children, _⟩ => levelsBelow children + 1

/-- The levels of nodes among children. -/
def levelsBelow : List (Dimension × Context) → Nat
  | [] => 0
  | (_, c) :: rest => max (levels c) (levelsBelow rest)

end

mutual

/-- The context as it is read back: its bound values without their objects, and its names quoted
that must be. -/
def respelled : Context → Context
  | ⟨base, children, count⟩ =>
    ⟨base.map (Scalar.repacked none), respelledChildren children, count⟩

/-- Children as they are read back. -/
def respelledChildren : List (Dimension × Context) → List (Dimension × Context)
  | [] => []
  | (d, c) :: rest => (d.respelled, respelled c) :: respelledChildren rest

end

/-- A context has one level more than the deepest of its children. -/
theorem levels_eq (c : Context) : c.levels = levelsBelow c.children + 1 := by
  cases c
  rw [levels]

/-- The levels below a node are bounded exactly if those of each child are. -/
theorem levelsBelow_le_iff {children : List (Dimension × Context)} {k : Nat} :
    levelsBelow children ≤ k ↔ ∀ e ∈ children, e.2.levels ≤ k := by
  induction children with
  | nil => simp [levelsBelow]
  | cons e children ih => rw [levelsBelow, Nat.max_le, ih, List.forall_mem_cons]

/-- Writing children back to text respells each key and each child. -/
theorem respelledChildren_eq (children : List (Dimension × Context)) :
    respelledChildren children = children.map fun e => (e.1.respelled, e.2.respelled) := by
  induction children with
  | nil => rw [respelledChildren, List.map_nil]
  | cons e children ih => rw [respelledChildren, ih, List.map_cons]

/-- Writing a context back to text respells its base value, its keys and its children, and leaves
its count. -/
theorem respelled_eq (c : Context) : c.respelled = ⟨c.base.map (Scalar.repacked none),
    c.children.map fun e => (e.1.respelled, e.2.respelled), c.baseCount⟩ := by
  cases c
  rw [respelled, respelledChildren_eq]

/-- Other scalars and dimensions at every node leave a context of the same shape, and an equal
one. -/
theorem Valid.relabelled {ρ : Relabelling} {f : Context → Context}
    (hf : ∀ c, f c = ⟨c.base.map ρ.scalar, c.children.map fun e => (ρ.dimension e.1, f e.2),
      c.baseCount⟩) {c : Context} (hc : c.Valid) : (f c).Valid ∧ f c == c := by
  induction hc with
  | @intro c sorted count nonempty inner ih =>
    have hc : c.Valid := .intro sorted count nonempty inner
    have hcounts (k : Context) : (f k).baseCount = k.baseCount := by rw [hf]
    have hvalid : (f c).Valid := by
      rw [hf]
      refine .intro ?_ ?_ ?_ (List.forall_mem_map.2 fun e he => (ih e he).1)
      · refine List.pairwise_map.2 (sorted.imp fun hlt => ?_)
        rw [ρ.compare_dimension, hlt]
      · have htotal : totalBases (c.children.map fun e => (ρ.dimension e.1, f e.2)) =
            totalBases c.children := by
          simp [totalBases, Function.comp_def, hcounts]
        rw [htotal]
        cases hbase : c.base <;> simpa [hbase] using count
      · refine List.forall_mem_map.2 fun e he => ?_
        rw [isEmpty, hcounts]
        exact nonempty e he
    refine ⟨hvalid, compare_eq_eq_iff.1 ((cmp_eq_eq_iff hvalid hc).2 ?_)⟩
    rw [hf]
    refine ⟨ρ.map_scalar_beq c.base, ?_⟩
    rw [List.forall₂_map_left_iff, List.forall₂_same]
    exact fun e he => ⟨ρ.dimension_beq e.1, compare_eq_eq_iff.2 (ih e he).2⟩

/-- Respelling keeps a context valid: the keys stay in order and the counts are unchanged. -/
theorem Valid.respelled {c : Context} (hc : c.Valid) : c.respelled.Valid :=
  (hc.relabelled (ρ := .spelled) respelled_eq).1

/-- A context is equal to what is read back. -/
theorem Valid.respelled_beq {c : Context} (hc : c.Valid) : c.respelled == c :=
  (hc.relabelled (ρ := .spelled) respelled_eq).2

theorem childTerms_eq (children : List (Dimension × Context)) :
    childTerms children = children.map fun e => e.1.text ++ ':' :: e.2.text := by
  induction children with
  | nil => rw [childTerms, List.map_nil]
  | cons e children ih => rw [childTerms, ih, List.map_cons]

/-- The text of a context: its base value and its children, each after its key, between angle
brackets. -/
theorem text_eq (c : Context) : c.text = angled
    ((c.base.map Scalar.text).toList ++ c.children.map fun e => e.1.text ++ ':' :: e.2.text) := by
  cases c
  rw [text, childTerms_eq]

end Context

namespace Patch

/-! ## contexts as patches -/

/-- The text of a context always stands between angle brackets. -/
theorem isAngled_text (c : Context) : isAngled c.text = true := by
  rw [Context.text_eq]
  rfl

/-- The text of a context is the short text of its patch. -/
theorem spelling_ofContext (c : Context) : (ofContext c).spelling true = c.text := by
  induction c using Context.children_induction with
  | step c ih =>
    have htexts : (c.children.map fun e => e.1.text ++ ':' :: (ofContext e.2).spelling true) =
        c.children.map fun e => e.1.text ++ ':' :: e.2.text :=
      List.map_congr_left fun e he => by rw [ih e he]
    have hangled : (c.children.all fun e => isAngled ((ofContext e.2).spelling true)) = true :=
      List.all_eq_true.2 fun e he => by rw [ih e he, isAngled_text]
    rw [spelling_eq, ofContext_eq, ofContexts_eq, node, Context.text_eq, ← htexts]
    simp only [List.map_map, List.all_map, Function.comp_def, hangled, Bool.and_self, if_true]

/-- The patch of a context has a literal for every value, as the context does. -/
theorem hasLiterals_ofContext {c : Context} (hc : c.HasLiterals) : (ofContext c).HasLiterals := by
  induction hc with
  | @intro c base inner ih =>
    rw [ofContext_eq, ofContexts_eq]
    exact .intro base (List.forall_mem_map.2 ih)

/-- The children of a context nest as deeply as their patches. -/
theorem levelsBelow_ofContexts {l : List (Dimension × Context)}
    (hl : ∀ e ∈ l, (ofContext e.2).levels = e.2.levels) :
    levelsBelow (ofContexts l) = Context.levelsBelow l := by
  induction l with
  | nil => rfl
  | cons e l ih =>
    obtain ⟨he, hl⟩ := List.forall_mem_cons.1 hl
    rw [ofContexts, levelsBelow, Context.levelsBelow, he, ih hl]

/-- The patch of a context nests as deeply as the context. -/
theorem levels_ofContext (c : Context) : (ofContext c).levels = c.levels := by
  induction c using Context.children_induction with
  | step c ih =>
    obtain ⟨base, children, count⟩ := c
    rw [ofContext, node, levels, Context.levels, levelsBelow_ofContexts ih]

/-- Respelling the patch of a context is the patch of the respelled context. -/
theorem respelled_ofContext (c : Context) : (ofContext c).respelled = ofContext c.respelled := by
  induction c using Context.children_induction with
  | step c ih =>
    have hchildren : (c.children.map fun e => (e.1.respelled, (ofContext e.2).respelled)) =
        c.children.map fun e => (e.1.respelled, ofContext e.2.respelled) :=
      List.map_congr_left fun e he => by rw [ih e he]
    rw [ofContext_eq c, ofContexts_eq, respelled_eq, ofContext_eq c.respelled, ofContexts_eq,
      Context.respelled_eq]
    refine congrArg (node (c.base.map (Scalar.repacked none)) true true) ?_
    rw [List.map_map]
    exact List.map_map.trans hchildren

end Patch

end Intension
