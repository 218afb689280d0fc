import Intension.Proofs.Built
import Intension.Proofs.Nodes

/-!
# Intension.Proofs.Patch.Counting

The two counts that patches cache, against the bases and marks counted node by
node.  Edits subtract from both, so each edit is set beside its checked form, in
which every subtraction is partial (`Nat.psub`); where the counts are exact
(`Exact`) the two forms agree.
-/

namespace Intension.Patch

/-! ## nodes one by one -/

/-- The nodes below are those of the children in turn. -/
theorem childNodesFrom_eq (path : Path) (l : List (Dimension × Patch)) :
    childNodesFrom path l = l.flatMap fun e => nodesFrom (path ++ [e.1]) e.2 := by
  induction l with
  | nil => rfl
  | cons e l ih => rw [childNodesFrom, ih, List.flatMap_cons]

/-- Patches list their nodes as all trees do. -/
theorem lists_nodes : Nodes.Lists children nodesFrom where
  eq path p := by
    cases p
    rw [nodesFrom, childNodesFrom_eq]
  induction := children_induction

/-- The number of marks that are set at the node itself. -/
def ownMarks (p : Patch) : Nat := p.clearsBase.toNat + p.clearsDims.toNat

/-- The number of bases in the whole patch, node by node. -/
def bases (p : Patch) : Nat := Nodes.tally (·.base.toList.length) p.nodes

/-- The number of marks set in the whole patch, node by node. -/
def marks (p : Patch) : Nat := Nodes.tally ownMarks p.nodes

/-! ## exact counts -/

/-- Children are sorted and both counts are exact, at every node. -/
inductive Exact : Patch → Prop
  | intro {p : Patch} (sorted : Keyed.Sorted p.children)
      (bases : p.baseCount = p.base.toList.length + Keyed.total baseCount p.children)
      (blanks : p.blankCount = p.ownMarks + Keyed.total blankCount p.children)
      (inner : ∀ e ∈ p.children, Exact e.2) : Exact p

namespace Exact

variable {p : Patch}

theorem sorted (h : p.Exact) : Keyed.Sorted p.children := by cases h; assumption

/-- A node counts its base and what its children count. -/
theorem baseCount_eq (h : p.Exact) :
    p.baseCount = p.base.toList.length + Keyed.total baseCount p.children := by
  cases h; assumption

/-- A node counts its marks and what its children count. -/
theorem blankCount_eq (h : p.Exact) :
    p.blankCount = p.ownMarks + Keyed.total blankCount p.children := by cases h; assumption

theorem inner (h : p.Exact) : ∀ e ∈ p.children, e.2.Exact := by cases h; assumption

theorem ordered (h : p.Exact) : p.Ordered := by
  induction h with
  | intro sorted bases blanks inner ih => exact .intro sorted ih

/-- The cached count is the number of bases in the subtree. -/
theorem baseCount_eq_bases (h : p.Exact) : p.baseCount = p.bases := by
  induction h with
  | intro sorted bases blanks inner ih =>
    rw [Patch.bases, nodes, lists_nodes.tally_nodesFrom, bases, Keyed.total_congr ih]
    rfl

/-- The cached count is the number of marks in the subtree. -/
theorem blankCount_eq_marks (h : p.Exact) : p.blankCount = p.marks := by
  induction h with
  | intro sorted bases blanks inner ih =>
    rw [marks, nodes, lists_nodes.tally_nodesFrom, blanks, Keyed.total_congr ih]
    rfl

theorem child? {d : Dimension} {k : Patch} (h : p.Exact) (hk : p.child? d = some k) :
    k.Exact := by
  obtain ⟨e, -, hmem⟩ := Keyed.mem_of_get? hk
  exact h.inner _ hmem

/-- A node with exact counts is put together from its parts. -/
theorem node_eq (h : p.Exact) : node p.base p.clearsBase p.clearsDims p.children = p := by
  have hbases := h.baseCount_eq
  have hblanks := h.blankCount_eq
  cases p
  exact congrArg₂ _ hbases.symm hblanks.symm

end Exact

/-- A node that takes its counts from its children is exact if they are. -/
theorem exact_node {base : Option Scalar} {clearsBase clearsDims : Bool}
    {children : List (Dimension × Patch)} (sorted : Keyed.Sorted children)
    (inner : ∀ e ∈ children, e.2.Exact) :
    (node base clearsBase clearsDims children).Exact := .intro sorted rfl rfl inner

theorem exact_noop : noop.Exact := .intro Keyed.sorted_nil rfl rfl fun _ he => nomatch he

theorem exact_clearAll : clearAll.Exact := .intro Keyed.sorted_nil rfl rfl fun _ he => nomatch he

theorem exact_absent (clearing : Bool) : (absent clearing).Exact := by
  cases clearing
  · exact exact_noop
  · exact exact_clearAll

/-- **Normal form counts anew**, whatever the counts were before. -/
theorem exact_normalize {p : Patch} {forced : Bool} (h : (p.normalize forced).Ordered) :
    (p.normalize forced).Exact := by
  induction p using children_induction generalizing forced with
  | step p ih =>
    rw [normalize_eq] at h ⊢
    refine exact_node h.sorted fun e he => ?_
    have hinner := h.inner e he
    obtain ⟨k, hk, rfl⟩ := mem_normalizeChildren he
    exact ih k hk hinner

/-- The patch of a context is exact. -/
theorem exact_ofContext {c : Context} (hc : c.Valid) : (ofContext c).Exact := by
  induction hc with
  | @intro c sorted _ _ _ ih =>
    rw [ofContext_eq, ofContexts_eq]
    refine exact_node (List.pairwise_map.2 sorted) fun e he => ?_
    obtain ⟨k, hk, rfl⟩ := List.mem_map.1 he
    exact ih k hk

/-! ## checked edits -/

/-- The node without a base to set. -/
def takeBase? (p : Patch) : Option Patch :=
  if p.base.isSome then
    (p.baseCount.psub 1).map fun bases => { p with base := none, baseCount := bases }
  else some { p with base := none }

/-- The node with its mark to clear the base reset. -/
def unmarkBase? (p : Patch) : Option Patch :=
  if p.clearsBase then
    (p.blankCount.psub 1).map fun blanks => { p with clearsBase := false, blankCount := blanks }
  else some { p with clearsBase := false }

/-- The node with its child along `d` edited, from `absent start` if there is none, and
dropped if it ends up redundant in a region as `clearing` says. -/
def withChild? (d : Dimension) (start clearing : Bool) (f : Patch → Option Patch) (p : Patch) :
    Option Patch :=
  let old := p.child? d
  (f (old.getD (absent start))).bind fun new =>
    (p.baseCount.psub ((old.map (·.baseCount)).getD 0)).bind fun bases =>
      (p.blankCount.psub ((old.map (·.blankCount)).getD 0)).map fun blanks =>
        if new.isRedundant clearing then
          { p with children := Keyed.erase d p.children, baseCount := bases, blankCount := blanks }
        else
          { p with
            children := Keyed.insert d new p.children
            baseCount := bases + new.baseCount
            blankCount := blanks + new.blankCount }

/-- The node with only those children whose dimension `keep` admits. -/
def retain? (keep : Dimension → Bool) (p : Patch) : Option Patch :=
  let (kept, dropped) := p.children.partition (keep ·.1)
  (p.baseCount.psub (dropped.map (·.2.baseCount)).sum).bind fun bases =>
    (p.blankCount.psub (dropped.map (·.2.blankCount)).sum).map fun blanks =>
      { p with children := kept, baseCount := bases, blankCount := blanks }

/-- The patch with the node at the end of a path edited; `f` is told whether that node
stands in a clearing region. -/
def editAt? (f : Bool → Patch → Option Patch) (forced : Bool) : Path → Patch → Option Patch
  | [], p => f forced p
  | d :: path, p =>
    let clearing := p.clearsDims || forced
    p.withChild? d clearing clearing (editAt? f clearing path)

mutual

/-- `p` and then `q`.  The two flags tell whether an ancestor of `p` and of `q` clears
dimensions. -/
def composeInto? (q : Patch) (pForced qForced : Bool) (p : Patch) : Option Patch :=
  match q with
  | ⟨base, children, clearsBase, clearsDims, _, _⟩ =>
    let pClears := p.clearsDims || pForced
    let qClears := clearsDims || qForced
    (if clearsBase then p.markBase.takeBase? else some p).bind fun p =>
      (match base with
        | some v => if clearsBase then some (p.putBase v) else (p.putBase v).unmarkBase?
        | none => some p).bind fun p =>
        let p := if clearsDims then p.markDims else p
        (if qClears then p.retain? (Keyed.contains · children) else some p).bind fun p =>
          composeChildren? children pClears qClears p

/-- Each child in turn, composed with that of `p` along the same dimension. -/
def composeChildren? : List (Dimension × Patch) → Bool → Bool → Patch → Option Patch
  | [], _, _, p => some p
  | (d, k) :: rest, pClears, qClears, p =>
    (p.withChild? d pClears (pClears || qClears) (composeInto? k pClears qClears)).bind fun p =>
      composeChildren? rest pClears qClears p

end

/-! ### one node -/

namespace Exact

variable {p : Patch}

/-- One base more is counted just if there was none. -/
theorem putBase (h : p.Exact) (v : Scalar) : (p.putBase v).Exact := by
  have hbases := h.baseCount_eq
  refine .intro h.sorted ?_ h.blankCount_eq h.inner
  cases hbase : p.base <;> simp_all [Patch.putBase]
  omega

/-- One base fewer is counted just if there was one. -/
theorem takeBase (h : p.Exact) : p.takeBase.Exact := by
  have hbases := h.baseCount_eq
  refine .intro h.sorted ?_ h.blankCount_eq h.inner
  cases hbase : p.base <;> simp_all [Patch.takeBase]

/-- One mark more is counted just if it was not set. -/
theorem markBase (h : p.Exact) : p.markBase.Exact := by
  have hblanks := h.blankCount_eq
  refine .intro h.sorted h.baseCount_eq ?_ h.inner
  cases hmark : p.clearsBase <;> simp_all [Patch.markBase, ownMarks]
  omega

/-- One mark fewer is counted just if it was set. -/
theorem unmarkBase (h : p.Exact) : p.unmarkBase.Exact := by
  have hblanks := h.blankCount_eq
  refine .intro h.sorted h.baseCount_eq ?_ h.inner
  cases hmark : p.clearsBase <;> simp_all [Patch.unmarkBase, ownMarks]
  omega

theorem markDims (h : p.Exact) : p.markDims.Exact := by
  have hblanks := h.blankCount_eq
  refine .intro h.sorted h.baseCount_eq ?_ h.inner
  cases hmark : p.clearsDims <;> simp_all [Patch.markDims, ownMarks]
  omega

/-- A base that is taken off was counted. -/
theorem takeBase?_eq (h : p.Exact) : p.takeBase? = some p.takeBase := by
  rw [takeBase?, Patch.takeBase]
  by_cases hbase : p.base.isSome
  · rw [if_pos hbase, if_pos hbase, Checked.psub_one_of_isSome h.baseCount_eq hbase]
    rfl
  · rw [if_neg hbase, if_neg hbase]

/-- A mark that is taken off was counted. -/
theorem unmarkBase?_eq (h : p.Exact) : p.unmarkBase? = some p.unmarkBase := by
  have hblanks := h.blankCount_eq
  rw [unmarkBase?, Patch.unmarkBase]
  by_cases hmark : p.clearsBase
  · rw [ownMarks, hmark, Bool.toNat_true] at hblanks
    rw [if_pos hmark, if_pos hmark, Nat.psub_eq_sub (by omega)]
    rfl
  · rw [if_neg hmark, if_neg hmark]

end Exact

/-! ### one child -/

/-- What is stored of a patch counts the bases of it, or none where it is redundant. -/
theorem elim_stored_baseCount (clearing : Bool) (p : Patch) :
    (p.stored clearing).elim 0 baseCount = if p.isRedundant clearing then 0 else p.baseCount := by
  rw [stored]
  split <;> rfl

/-- What is stored of a patch counts the marks of it, or none where it is redundant. -/
theorem elim_stored_blankCount (clearing : Bool) (p : Patch) :
    (p.stored clearing).elim 0 blankCount =
      if p.isRedundant clearing then 0 else p.blankCount := by
  rw [stored]
  split <;> rfl

theorem getD_map_count (weight : Patch → Nat) (k? : Option Patch) :
    (k?.map weight).getD 0 = k?.elim 0 weight := by
  cases k? <;> rfl

/-- A node exchanges the bases of a child before for those of what is stored of it after. -/
theorem baseCount_withChild (d : Dimension) (start clearing : Bool) (f : Patch → Patch)
    (p : Patch) : (p.withChild d start clearing f).baseCount =
      p.baseCount - (p.child? d).elim 0 baseCount +
        ((f ((p.child? d).getD (absent start))).stored clearing).elim 0 baseCount := by
  rw [elim_stored_baseCount, withChild, ← getD_map_count]
  split <;> rfl

/-- A node exchanges the marks of a child before for those of what is stored of it after. -/
theorem blankCount_withChild (d : Dimension) (start clearing : Bool) (f : Patch → Patch)
    (p : Patch) : (p.withChild d start clearing f).blankCount =
      p.blankCount - (p.child? d).elim 0 blankCount +
        ((f ((p.child? d).getD (absent start))).stored clearing).elim 0 blankCount := by
  rw [elim_stored_blankCount, withChild, ← getD_map_count]
  split <;> rfl

/-- The marks of a node are told by its head. -/
theorem ownMarks_eq_of_head_eq {p q : Patch} (h : p.head = q.head) : p.ownMarks = q.ownMarks := by
  injection h with _ hbase hdims
  rw [ownMarks, ownMarks, hbase, hdims]

namespace Exact

variable {p : Patch} {d : Dimension} {start clearing : Bool}

/-- A child is exact whether it is stored or has to be made. -/
theorem getD_child? (h : p.Exact) (d : Dimension) (start : Bool) :
    ((p.child? d).getD (absent start)).Exact := by
  cases hk : p.child? d with
  | none => exact exact_absent start
  | some k => exact h.child? hk

/-- No child counts for more than its parent, neither in bases nor in marks. -/
theorem child?_le (h : p.Exact) (d : Dimension) :
    (p.child? d).elim 0 baseCount ≤ p.baseCount ∧
      (p.child? d).elim 0 blankCount ≤ p.blankCount := by
  have hbases := Keyed.elim_get?_le_total h.sorted baseCount d
  have hblanks := Keyed.elim_get?_le_total h.sorted blankCount d
  rw [h.baseCount_eq, h.blankCount_eq, Patch.child?]
  omega

/-- **Changing a child keeps counts exact**, if the change keeps those of the child. -/
theorem withChild (h : p.Exact) {f : Patch → Patch}
    (hf : (f ((p.child? d).getD (absent start))).Exact) :
    (p.withChild d start clearing f).Exact := by
  have hhead := head_withChild d start clearing f p
  have hbase : (p.withChild d start clearing f).base = p.base := congrArg Head.base hhead
  have hle := h.child?_le d
  have hbases := h.baseCount_eq
  have hblanks := h.blankCount_eq
  refine .intro ?_ ?_ ?_ ?_
  · rw [children_withChild]
    exact h.sorted.store d _
  · have htotal := Keyed.total_store h.sorted baseCount d
      ((f ((p.child? d).getD (absent start))).stored clearing)
    rw [← Patch.child?] at htotal
    rw [baseCount_withChild, children_withChild, hbase]
    omega
  · have htotal := Keyed.total_store h.sorted blankCount d
      ((f ((p.child? d).getD (absent start))).stored clearing)
    rw [← Patch.child?] at htotal
    rw [blankCount_withChild, children_withChild, ownMarks_eq_of_head_eq hhead]
    omega
  · rw [children_withChild]
    refine Keyed.forall_mem_store (P := Exact) h.inner fun k hk => ?_
    rw [stored] at hk
    split at hk
    · cases hk
    · exact Option.some.inj hk ▸ hf

/-- What a child counted before can be taken off, so the checked form agrees. -/
theorem withChild?_eq (h : p.Exact) {f : Patch → Patch} {f? : Patch → Option Patch}
    (hf : f? ((p.child? d).getD (absent start)) = some (f ((p.child? d).getD (absent start)))) :
    p.withChild? d start clearing f? = some (p.withChild d start clearing f) := by
  have hle := h.child?_le d
  rw [← getD_map_count, ← getD_map_count] at hle
  rw [withChild?, hf, Option.bind_some, Nat.psub_eq_sub hle.1, Option.bind_some,
    Nat.psub_eq_sub hle.2]
  rfl

end Exact

/-! ### a choice of children -/

/-- Dropping children takes off what they counted. -/
theorem counts_retain (keep : Dimension → Bool) (p : Patch) :
    (p.retain keep).baseCount =
        p.baseCount - Keyed.total baseCount (p.children.filter fun e => !keep e.1) ∧
      (p.retain keep).blankCount =
        p.blankCount - Keyed.total blankCount (p.children.filter fun e => !keep e.1) := by
  simp [retain, List.partition_eq_filter_filter, Function.comp_def, Keyed.total]

namespace Exact

variable {p : Patch}

/-- What is dropped counts for no more than the whole. -/
theorem filter_le (h : p.Exact) (choice : Dimension × Patch → Bool) :
    Keyed.total baseCount (p.children.filter choice) ≤ p.baseCount ∧
      Keyed.total blankCount (p.children.filter choice) ≤ p.blankCount := by
  have hbases := Keyed.total_filter_add baseCount choice p.children
  have hblanks := Keyed.total_filter_add blankCount choice p.children
  rw [h.baseCount_eq, h.blankCount_eq]
  omega

/-- Dropping children keeps counts exact. -/
theorem retain (h : p.Exact) (keep : Dimension → Bool) : (p.retain keep).Exact := by
  have hhead := head_retain keep p
  have hbase : (p.retain keep).base = p.base := congrArg Head.base hhead
  obtain ⟨hbases, hblanks⟩ := counts_retain keep p
  have hbaseTotal := Keyed.total_filter_add baseCount (keep ·.1) p.children
  have hblankTotal := Keyed.total_filter_add blankCount (keep ·.1) p.children
  have hbaseCount := h.baseCount_eq
  have hblankCount := h.blankCount_eq
  refine .intro ?_ ?_ ?_ ?_
  · rw [children_retain]
    exact h.sorted.filter _
  · rw [hbases, children_retain, hbase]
    omega
  · rw [hblanks, children_retain, ownMarks_eq_of_head_eq hhead]
    omega
  · rw [children_retain]
    exact fun e he => h.inner e (List.mem_filter.1 he).1

/-- What the dropped children counted can be taken off. -/
theorem retain?_eq (h : p.Exact) (keep : Dimension → Bool) :
    p.retain? keep = some (p.retain keep) := by
  have hle := h.filter_le fun e => !keep e.1
  have hdropped : (p.children.partition (keep ·.1)).2 = p.children.filter fun e => !keep e.1 := by
    rw [List.partition_eq_filter_filter]
    rfl
  rw [← hdropped] at hle
  show (p.baseCount.psub (Keyed.total baseCount (p.children.partition (keep ·.1)).2)).bind
    (fun bases => (p.blankCount.psub
      (Keyed.total blankCount (p.children.partition (keep ·.1)).2)).map _) = _
  rw [Nat.psub_eq_sub hle.1, Option.bind_some, Nat.psub_eq_sub hle.2]
  rfl

/-! ### the end of a path -/

/-- **Editing at the end of a path keeps counts exact**, if the edit there does. -/
theorem editAt {f : Bool → Patch → Patch}
    (hf : ∀ forced (k : Patch), k.Exact → (f forced k).Exact) (h : p.Exact) (forced : Bool)
    (path : Path) : (p.editAt f forced path).Exact := by
  induction path generalizing p forced with
  | nil => exact hf forced p h
  | cons d path ih => exact h.withChild (ih (h.getD_child? d _) _)

/-- Along the whole path nothing is taken off that is not there, if that is so at its end. -/
theorem editAt?_eq {f : Bool → Patch → Patch} {f? : Bool → Patch → Option Patch}
    (hf : ∀ forced (k : Patch), k.Exact → f? forced k = some (f forced k)) (h : p.Exact)
    (forced : Bool) (path : Path) : p.editAt? f? forced path = some (p.editAt f forced path) := by
  induction path generalizing p forced with
  | nil => exact hf forced p h
  | cons d path ih => exact h.withChild?_eq (ih (h.getD_child? d _) _)

/-- The mark to clear dimensions brings a new normal form along, which is exact. -/
theorem setDimsMark (h : p.Exact) (mark forced : Bool) : (p.setDimsMark mark forced).Exact := by
  rw [Patch.setDimsMark]
  split
  · exact h
  · have hordered := h.ordered.of_children_eq (k := { p with clearsDims := mark }) rfl
    exact exact_normalize (hordered.normalize forced)

/-- A child comes in normal form, so it need not have been exact. -/
theorem withDim {k : Patch} (h : p.Exact) (hk : k.Ordered) (d : Dimension) :
    (Patch.withDim d k p).Exact := h.withChild (exact_normalize (hk.normalize _))

/-! ### composition -/

/-- Folding in the marks and the base of another patch keeps counts exact. -/
theorem composeMarks (h : p.Exact) (q : Patch) : (q.composeMarks p).Exact := by
  obtain ⟨base, children, clearsBase, clearsDims, bases, blanks⟩ := q
  have hfolded :
      (Patch.composeMarks ⟨base, children, clearsBase, false, bases, blanks⟩ p).Exact := by
    cases clearsBase with
    | false =>
      cases base with
      | none => exact h
      | some v => exact (h.putBase v).unmarkBase
    | true =>
      cases base with
      | none => exact h.markBase.takeBase
      | some v => exact h.markBase.takeBase.putBase v
  cases clearsDims with
  | false => exact hfolded
  | true => exact hfolded.markDims

/-- Folding in the head of another patch keeps counts exact, the children that it drops included. -/
theorem composeHead (h : p.Exact) (q : Patch) (qForced : Bool) :
    (q.composeHead qForced p).Exact := by
  rw [Patch.composeHead]
  split
  · exact (h.composeMarks q).retain _
  · exact h.composeMarks q

end Exact

/-- Children are composed one after the other. -/
theorem composeChildren_eq_foldl (l : List (Dimension × Patch)) (pClears qClears : Bool)
    (p : Patch) : composeChildren l pClears qClears p =
      l.foldl (fun p e =>
        p.withChild e.1 pClears (pClears || qClears) (composeInto e.2 pClears qClears)) p := by
  induction l generalizing p with
  | nil => rfl
  | cons e l ih => rw [composeChildren_cons, ih, List.foldl_cons]

/-- Children are composed in checked form one after the other, up to the first that fails. -/
theorem composeChildren?_eq_foldlM (l : List (Dimension × Patch)) (pClears qClears : Bool)
    (p : Patch) : composeChildren? l pClears qClears p =
      l.foldlM (fun p e =>
        p.withChild? e.1 pClears (pClears || qClears) (composeInto? e.2 pClears qClears)) p := by
  induction l generalizing p with
  | nil => rw [composeChildren?, List.foldlM_nil, Option.pure_def]
  | cons e l ih =>
    rw [composeChildren?, List.foldlM_cons, Option.bind_eq_bind]
    exact congrArg (Option.bind _) (funext ih)

/-- If composing each child agrees with its checked form and keeps counts exact, so does composing
them all. -/
theorem composeChildren_checked {pClears qClears : Bool} {l : List (Dimension × Patch)}
    (hl : ∀ e ∈ l, ∀ k : Patch, k.Exact →
      composeInto? e.2 pClears qClears k = some (composeInto e.2 pClears qClears k) ∧
        (composeInto e.2 pClears qClears k).Exact)
    {p : Patch} (hp : p.Exact) :
    composeChildren? l pClears qClears p = some (composeChildren l pClears qClears p) ∧
      (composeChildren l pClears qClears p).Exact := by
  rw [composeChildren?_eq_foldlM, composeChildren_eq_foldl]
  exact Checked.foldlM_eq_some
    (fun k e hk he => hk.withChild (he _ (hk.getD_child? e.1 pClears)).2)
    (fun k e hk he => hk.withChild?_eq (he _ (hk.getD_child? e.1 pClears)).1) hl hp

/-- The marks and the base of a patch are folded in without subtracting from less. -/
theorem Exact.composeMarks?_eq {p : Patch} (hp : p.Exact) (base : Option Scalar)
    (clearsBase : Bool) :
    ((if clearsBase then p.markBase.takeBase? else some p).bind fun p =>
      match base with
      | some v => if clearsBase then some (p.putBase v) else (p.putBase v).unmarkBase?
      | none => some p) =
      some (Patch.composeMarks ⟨base, [], clearsBase, false, 0, 0⟩ p) := by
  cases clearsBase with
  | true =>
    rw [if_pos rfl, hp.markBase.takeBase?_eq]
    cases base <;> rfl
  | false =>
    cases base with
    | none => rfl
    | some v => exact (hp.putBase v).unmarkBase?_eq

/-- A composed patch counts exactly where the first one does, and nothing is subtracted from
less on the way; the counts of the second one do not matter. -/
theorem Exact.composeInto_checked {q : Patch} (pForced qForced : Bool) {p : Patch} (hp : p.Exact) :
    Patch.composeInto? q pForced qForced p = some (Patch.composeInto q pForced qForced p) ∧
      (Patch.composeInto q pForced qForced p).Exact := by
  induction q using children_induction generalizing pForced qForced p with
  | step q ih =>
    have hretain : (if q.clearsDims || qForced then
          (q.composeMarks p).retain? (Keyed.contains · q.children)
        else some (q.composeMarks p)) = some (q.composeHead qForced p) := by
      rw [(hp.composeMarks q).retain?_eq, Patch.composeHead]
      split <;> rfl
    have hchildren := composeChildren_checked
      (fun e he k hk => ih e he (p.clearsDims || pForced) (q.clearsDims || qForced) hk)
      (hp.composeHead q qForced)
    rw [← composeInto_eq] at hchildren
    refine ⟨Eq.trans ?_ hchildren.1, hchildren.2⟩
    obtain ⟨base, children, clearsBase, clearsDims, bases, blanks⟩ := q
    rw [composeInto?.eq_def]
    dsimp only
    rw [← Option.bind_assoc, hp.composeMarks?_eq base clearsBase, Option.bind_some]
    exact congrArg (Option.bind · _) hretain

/-- **Composition keeps counts exact**, whatever those of the second patch are. -/
theorem Exact.composeInto {q : Patch} (pForced qForced : Bool) {p : Patch} (hp : p.Exact) :
    (Patch.composeInto q pForced qForced p).Exact := (hp.composeInto_checked pForced qForced).2

/-! ### what can be had -/

/-- The descendants of an exact patch are exact. -/
theorem Exact.get? {p k : Patch} {path : Path} (h : p.Exact) (hk : p.get? path = some k) :
    k.Exact := by
  induction path generalizing p with
  | nil =>
    cases hk
    exact h
  | cons d path ih =>
    rw [Patch.get?] at hk
    cases hd : p.child? d with
    | none =>
      rw [hd] at hk
      cases hk
    | some q =>
      rw [hd] at hk
      exact ih (h.child? hd) hk

/-- A patch that was parsed is in normal form, and so exact. -/
theorem exact_parse {limits : Limits} {t : Text} {p : Patch} (h : Patch.parse limits t = .ok p) :
    p.Exact := by
  have hordered := ordered_parse h
  obtain ⟨_, n, -, -, rfl⟩ := Grammar.readPatch_eq_ok_iff.1 h
  exact exact_normalize hordered

/-- A patch that was read is in normal form, and so exact. -/
theorem returns_exact (σ : Binary.Setting) : Binary.Read.Returns (Binary.Read.patch σ) Exact :=
  Binary.Read.returns_after _ fun _ => (Binary.Read.returns_patchWithin σ _).bind fun _ hp =>
    Binary.Read.returns_pure (exact_normalize (hp.normalize false))

/-- **The counts of every patch that can be had are exact.** -/
theorem Reachable.exact {p : Patch} : p.Reachable → p.Exact
  | .get? hp hk => hp.exact.get? hk
  | .noop => exact_noop
  | .clearAll => exact_clearAll
  | .ofContext hc => exact_ofContext hc.valid
  | .parse h => exact_parse h
  | .read h => returns_exact _ _ _ _ h
  | .withDim hp d hk => hp.exact.withDim hk.ordered d
  | .putBase hp v => hp.exact.putBase v
  | .setBaseAt hp path v => hp.exact.editAt (fun _ _ hk => hk.putBase v) false path
  | .setClearBaseAt hp path => hp.exact.editAt (fun _ _ hk => hk.markBase) false path
  | .resetClearBaseAt hp path => hp.exact.editAt (fun _ _ hk => hk.unmarkBase) false path
  | .setClearDimsAt hp path => hp.exact.editAt (fun _ _ hk => hk.setDimsMark _ _) false path
  | .resetClearDimsAt hp path => hp.exact.editAt (fun _ _ hk => hk.setDimsMark _ _) false path
  | .compose hp hq => hp.exact.composeInto false false
  | .composeAt hp path hq =>
    hp.exact.editAt (fun forced _ hk => hk.composeInto forced false) false path

end Intension.Patch
