import Intension.Patch.Text
import Intension.Proofs.Patch.Counting

/-!
# Intension.Proofs.Patch.Tidy

Patches as they are kept through any edits: counts exact, and no child stored that
its region makes redundant (`Tidy`).  The edits carry the region along as a flag;
here it is told by all nodes above a node (`ClearedIn`), however far.
-/

namespace Intension.Patch

/-! ## regions

Which children are redundant is decided by all nodes above them. -/

/-- Among some nodes one above the end of a path clears dimensions. -/
def ClearedIn (nodes : List (Path × Patch)) (path : Path) : Prop :=
  ∃ m ∈ nodes, m.1 <+: path ∧ m.1 ≠ path ∧ m.2.clearsDims

/-- Below a child, what is cleared is so by the node itself or from the child downwards. -/
theorem clearedIn_iff {p : Patch} (hp : p.Ordered) {r path : Path} {e : Dimension × Patch}
    (he : e ∈ p.children) (hpath : r ++ [e.1] <+: path) :
    ClearedIn (nodesFrom r p) path ↔
      p.clearsDims ∨ ClearedIn (nodesFrom (r ++ [e.1]) e.2) path := by
  constructor
  · rintro ⟨m, hm, hends, hne, hclears⟩
    obtain rfl | ⟨k, hk, hm⟩ := lists_nodes.mem_iff.1 hm
    · exact .inl hclears
    · -- the path goes through one child only
      have hlead : r ++ [k.1] <+: path := (lists_nodes.path_leads hm).trans hends
      have hsame : r ++ [k.1] = r ++ [e.1] :=
        (List.prefix_of_prefix_length_le hlead hpath (by simp)).eq_of_length (by simp)
      have hkey : k.1 = e.1 := by simpa using hsame
      have hvalue : k.2 = e.2 := by
        have hfound := hp.sorted.get?_of_mem hk
        rw [hkey, hp.sorted.get?_of_mem he] at hfound
        exact (Option.some.inj hfound).symm
      rw [hkey, hvalue] at hm
      exact .inr ⟨m, hm, hends, hne, hclears⟩
  · rintro (hclears | ⟨m, hm, hcleared⟩)
    · refine ⟨(r, p), lists_nodes.mem_iff.2 (.inl rfl), (List.prefix_append r _).trans hpath, ?_,
        hclears⟩
      rintro rfl
      have hlength : (r ++ [e.1]).length ≤ r.length := hpath.length_le
      rw [List.length_append, List.length_singleton] at hlength
      omega
    · exact ⟨m, lists_nodes.mem_iff.2 (.inr ⟨e, he, hm⟩), hcleared⟩

/-- In a pruned patch no node below the first is redundant in the region that the nodes above
it make. -/
theorem Pruned.needed {forced : Bool} {p : Patch} (h : p.Pruned forced) (hp : p.Ordered)
    {r : Path} {n : Path × Patch} (hn : n ∈ nodesFrom r p) (hne : n.1 ≠ r) :
    ∃ clearing, n.2.isRedundant clearing = false ∧
      (clearing = true ↔ forced = true ∨ ClearedIn (nodesFrom r p) n.1) := by
  induction h generalizing r with
  | @intro forced p kept inner ih =>
    obtain rfl | ⟨e, he, hn⟩ := lists_nodes.mem_iff.1 hn
    · exact absurd rfl hne
    have hcleared := clearedIn_iff hp he (lists_nodes.path_leads hn)
    by_cases hpath : n.1 = r ++ [e.1]
    · obtain rfl := lists_nodes.eq_of_path_eq hn hpath
      have hnone : ¬ ClearedIn (nodesFrom (r ++ [e.1]) e.2) (r ++ [e.1]) := by
        rintro ⟨m, hm, hlead, hne, -⟩
        exact hne (hlead.eq_of_length_le (lists_nodes.path_leads hm).length_le)
      refine ⟨p.clearsDims || forced, kept e he, ?_⟩
      rw [hcleared, Bool.or_eq_true]
      tauto
    · obtain ⟨clearing, hkept, hclearing⟩ := ih e he (hp.inner e he) hn hpath
      refine ⟨clearing, hkept, ?_⟩
      rw [hclearing, hcleared, Bool.or_eq_true]
      tauto

/-- At every node both counts are exact, and no node is stored that its region makes redundant;
`forced` tells whether the patch itself stands in a clearing region. -/
structure TidyIn (forced : Bool) (p : Patch) : Prop where
  bases : ∀ n ∈ p.nodes, n.2.baseCount = n.2.bases
  marks : ∀ n ∈ p.nodes, n.2.blankCount = n.2.marks
  cleared : ∀ n ∈ p.nodes, n.1 ≠ [] → forced = true ∨ ClearedIn p.nodes n.1 →
    n.2.isClearAll = false
  uncleared : ∀ n ∈ p.nodes, n.1 ≠ [] → ¬ (forced = true ∨ ClearedIn p.nodes n.1) →
    n.2.isNoop = false

/-- Exact counts and no redundant child make a patch tidy in its region. -/
theorem Exact.tidyIn {p : Patch} {forced : Bool} (h : p.Exact) (hpruned : p.Pruned forced) :
    p.TidyIn forced := by
  have hexact : ∀ n ∈ p.nodes, n.2.Exact := lists_nodes.forall_mem (fun _ hk => hk.inner) h
  refine ⟨fun n hn => (hexact n hn).baseCount_eq_bases,
    fun n hn => (hexact n hn).blankCount_eq_marks, fun n hn hne hcleared => ?_,
    fun n hn hne huncleared => ?_⟩
  · obtain ⟨clearing, hkept, hclearing⟩ := hpruned.needed h.ordered hn hne
    obtain rfl : clearing = true := hclearing.2 hcleared
    exact hkept
  · obtain ⟨clearing, hkept, hclearing⟩ := hpruned.needed h.ordered hn hne
    cases clearing with
    | false => exact hkept
    | true => exact absurd (hclearing.1 rfl) huncleared

/-- At every node both counts are exact, and no node is stored that its region makes redundant:
below a node that clears dimensions, at any distance, none is `[---]`, elsewhere none is `[]`. -/
structure Tidy (p : Patch) : Prop where
  bases : ∀ n ∈ p.nodes, n.2.baseCount = n.2.bases
  marks : ∀ n ∈ p.nodes, n.2.blankCount = n.2.marks
  cleared : ∀ n ∈ p.nodes, n.1 ≠ [] → ClearedIn p.nodes n.1 → n.2.isClearAll = false
  uncleared : ∀ n ∈ p.nodes, n.1 ≠ [] → ¬ ClearedIn p.nodes n.1 → n.2.isNoop = false

theorem Exact.tidy {p : Patch} (h : p.Exact) (hpruned : p.Pruned false) : p.Tidy := by
  obtain ⟨bases, marks, cleared, uncleared⟩ := h.tidyIn hpruned
  refine ⟨bases, marks, fun n hn hne hcleared => cleared n hn hne (.inr hcleared),
    fun n hn hne huncleared => uncleared n hn hne ?_⟩
  exact not_or.2 ⟨Bool.false_ne_true, huncleared⟩

/-! ## edits -/

/-- What can be done to a patch; at the empty path it is done to the node itself. -/
inductive Edit where
  | withDim (d : Dimension) (child : Patch)
  | setBaseAt (path : Path) (v : Scalar)
  | setClearBaseAt (path : Path)
  | resetClearBaseAt (path : Path)
  | setClearDimsAt (path : Path)
  | resetClearDimsAt (path : Path)
  | assign (other : Patch)
  | composeAt (path : Path) (q : Patch)

/-- What an edit brings can be had, and as a whole where it stays one. -/
def Edit.Built : Edit → Prop
  | .withDim _ child => child.Reachable
  | .assign other => other.Built
  | .composeAt _ q => q.Reachable
  | _ => True

/-- The patch after an edit. -/
def edit (x : Edit) (p : Patch) : Patch :=
  match x with
  | .withDim d child => Patch.withDim d child p
  | .setBaseAt path v => p.setBaseAt path v
  | .setClearBaseAt path => p.setClearBaseAt path
  | .resetClearBaseAt path => p.resetClearBaseAt path
  | .setClearDimsAt path => p.setClearDimsAt path
  | .resetClearDimsAt path => p.resetClearDimsAt path
  | .assign other => other
  | .composeAt path q => Patch.composeAt path q p

/-- The patch after an edit, unless it subtracts from less. -/
def edit? (x : Edit) (p : Patch) : Option Patch :=
  match x with
  | .withDim d child =>
    p.withChild? d p.clearsDims p.clearsDims fun _ => some (child.normalize p.clearsDims)
  | .setBaseAt path v => p.editAt? (fun _ k => some (k.putBase v)) false path
  | .setClearBaseAt path => p.editAt? (fun _ k => some k.markBase) false path
  | .resetClearBaseAt path => p.editAt? (fun _ k => k.unmarkBase?) false path
  | .setClearDimsAt path => p.editAt? (fun forced k => some (k.setDimsMark true forced)) false path
  | .resetClearDimsAt path =>
    p.editAt? (fun forced k => some (k.setDimsMark false forced)) false path
  | .assign other => some other
  | .composeAt path q => p.editAt? (fun forced k => composeInto? q forced false k) false path

/-- The patch after edits in turn. -/
def edits (xs : List Edit) (p : Patch) : Patch := xs.foldl (fun p x => p.edit x) p

/-- The patch after edits in turn, unless one of them subtracts from less. -/
def edits? (xs : List Edit) (p : Patch) : Option Patch := xs.foldlM (fun p x => p.edit? x) p

/-- An edit with built data of a built patch gives a built patch. -/
theorem Built.edit {p : Patch} (h : p.Built) {x : Edit} (hx : x.Built) : (p.edit x).Built := by
  cases x with
  | withDim d child => exact h.withDim d hx
  | setBaseAt path v => exact h.setBaseAt path v
  | setClearBaseAt path => exact h.setClearBaseAt path
  | resetClearBaseAt path => exact h.resetClearBaseAt path
  | setClearDimsAt path => exact h.setClearDimsAt path
  | resetClearDimsAt path => exact h.resetClearDimsAt path
  | assign other => exact hx
  | composeAt path q => exact h.composeAt path hx

/-- No subtraction fails in an edit of a patch with exact counts. -/
theorem Exact.edit?_eq_some {p : Patch} (h : p.Exact) (x : Edit) : p.edit? x = some (p.edit x) := by
  cases x with
  | withDim d child =>
    show p.withChild? d p.clearsDims p.clearsDims (fun _ => some (child.normalize p.clearsDims)) =
      some (p.withChild d p.clearsDims p.clearsDims fun _ => child.normalize p.clearsDims)
    exact h.withChild?_eq rfl
  | setBaseAt path v => exact h.editAt?_eq (fun _ _ _ => rfl) false path
  | setClearBaseAt path => exact h.editAt?_eq (fun _ _ _ => rfl) false path
  | resetClearBaseAt path => exact h.editAt?_eq (fun _ _ hk => hk.unmarkBase?_eq) false path
  | setClearDimsAt path => exact h.editAt?_eq (fun _ _ _ => rfl) false path
  | resetClearDimsAt path => exact h.editAt?_eq (fun _ _ _ => rfl) false path
  | assign other => rfl
  | composeAt path q =>
    exact h.editAt?_eq (fun forced _ hk => (hk.composeInto_checked forced false).1) false path

/-- No run of edits ever subtracts from less. -/
theorem Built.edits {p : Patch} (h : p.Built) {xs : List Edit} (hxs : ∀ x ∈ xs, x.Built) :
    p.edits? xs = some (p.edits xs) ∧ (p.edits xs).Built :=
  Checked.foldlM_eq_some (fun _ _ hp hx => hp.edit hx)
    (fun _ x hp _ => hp.reachable.exact.edit?_eq_some x) hxs h

/-- Every built patch is tidy. -/
theorem Built.tidy {p : Patch} (h : p.Built) : p.Tidy := h.reachable.exact.tidy h.pruned

/-- **Counts are exact, nothing redundant is stored, and nothing is ever subtracted from less**:
so it is in every patch that is built as a whole, and through any edits of it. -/
theorem tidy_through_edits {p : Patch} (hp : p.Built) :
    p.Tidy ∧ ∀ xs : List Edit, (∀ x ∈ xs, x.Built) →
      p.edits? xs = some (p.edits xs) ∧ (p.edits xs).Tidy :=
  ⟨hp.tidy, fun _ hxs => (hp.edits hxs).imp_right Built.tidy⟩

/-- Regions open and close around a base at `1:2:3`: the child at `4` is redundant in the outer
one, the child at `1:5` has to be spelled out there to keep its base, and a composition covers
the base in the end. -/
def regionEdits : List Edit :=
  [.setClearDimsAt [.integer 1], .withDim (.integer 4) clearAll, .setClearDimsAt [],
    .resetClearBaseAt [.integer 1, .integer 5],
    .composeAt [.integer 1] ((noop.setBaseAt [.integer 2] .omega).setClearDimsAt [.integer 2]),
    .resetClearDimsAt []]

/-- One base and three marks are left. -/
theorem tidy_through_regionEdits :
    let p := noop.setBaseAt [.integer 1, .integer 2, .integer 3] .alpha
    (p.edits? regionEdits = some (p.edits regionEdits) ∧ (p.edits regionEdits).Tidy) ∧
      (p.edits regionEdits).baseCount = 1 ∧ (p.edits regionEdits).blankCount = 3 := by
  intro p
  have hp : p.Built := .setBaseAt .noop _ _
  have hedits : ∀ x ∈ regionEdits, x.Built := by
    have hpatch : ((noop.setBaseAt [.integer 2] .omega).setClearDimsAt [.integer 2]).Reachable :=
      (Reachable.noop.setBaseAt _ _).setClearDimsAt _
    simp only [regionEdits, List.forall_mem_cons]
    exact ⟨trivial, Reachable.clearAll, trivial, trivial, hpatch, trivial, fun _ hx => nomatch hx⟩
  exact ⟨(tidy_through_edits hp).2 regionEdits hedits, by decide +kernel, by decide +kernel⟩

/-! ### parts of regions

What is taken out of a region need not be tidy anywhere else.  That is why the patch that is
edited, and a patch that is put in its place, have to be built as wholes; what is merged in from
another patch need not be, for it is pruned on the way. -/

/-- A region opens at the top, and in it three nodes lose the marks that they start with. -/
def regionMarks : List Edit :=
  let b := Dimension.name ['b'] false
  let d := Dimension.name ['d'] false
  let c := Dimension.name ['c'] false
  [.setClearDimsAt [], .resetClearBaseAt [b], .resetClearDimsAt [b], .resetClearBaseAt [b, d],
    .resetClearDimsAt [b, d], .resetClearBaseAt [b, d, c], .resetClearDimsAt [b, d, c]]

/-- The part of that region at `b`: in the region its two nodes keep what would be dropped, and
elsewhere they are redundant. -/
def regionPart : Patch :=
  node none false false [(.name ['d'] false, node none false false [(.name ['c'] false, noop)])]

/-- The part is what the marked patch stores at `b`. -/
theorem get?_regionMarks : (noop.edits regionMarks).get? [.name ['b'] false] = some regionPart :=
  rfl

theorem built_regionMarks : (noop.edits regionMarks).Built := by
  have hmarks : ∀ x ∈ regionMarks, x.Built := by
    simp only [regionMarks, List.forall_mem_cons]
    exact ⟨trivial, trivial, trivial, trivial, trivial, trivial, trivial, fun _ hx => nomatch hx⟩
  exact (Built.noop.edits hmarks).2

theorem reachable_regionPart : regionPart.Reachable :=
  .get? built_regionMarks.reachable get?_regionMarks

/-- Its node at `d:c` does nothing where nothing is cleared. -/
theorem not_tidy_regionPart : ¬ regionPart.Tidy := by
  intro h
  have hopen : ∀ n ∈ regionPart.nodes, n.2.clearsDims = false := by decide
  have huncleared : ¬ ClearedIn regionPart.nodes [.name ['d'] false, .name ['c'] false] := by
    rintro ⟨n, hn, -, -, hclears⟩
    exact Bool.false_ne_true ((hopen n hn).symm.trans hclears)
  have hstored : ([.name ['d'] false, .name ['c'] false], noop) ∈ regionPart.nodes :=
    .tail _ (.tail _ (.head _))
  exact Bool.false_ne_true (h.uncleared _ hstored nofun huncleared).symm

/-- The patch `[--+b:[d:[c:[]]]]` is tidy and its part at `b` is not, neither in the place of another
patch nor with one composed into it. -/
theorem untidy_of_regionPart :
    (noop.edits regionMarks).text = "[--+b:[d:[c:[]]]]".toList ∧ (noop.edits regionMarks).Tidy ∧
      (noop.edits regionMarks).get? [.name ['b'] false] = some regionPart ∧
      ¬ (noop.edit (.assign regionPart)).Tidy ∧ ¬ (compose regionPart noop).Tidy := by
  have hcompose : compose regionPart noop = regionPart := rfl
  rw [hcompose]
  exact ⟨rfl, built_regionMarks.tidy, get?_regionMarks, not_tidy_regionPart, not_tidy_regionPart⟩

end Intension.Patch
