import Intension.Proofs.Nodes
import Intension.Proofs.Reachable

/-!
# Intension.Proofs.Context.Counting

The counts that contexts cache, against the bases counted node by node (`bases`).
Edits never count anew: they add and subtract what changes.  So each edit is set
beside its checked form, in which every subtraction is partial (`Nat.psub`), and
checked and unchecked forms agree where the counts are exact: nothing is ever
subtracted from less.
-/

namespace Intension

namespace Context

/-! ## nodes one by one -/

/-- The nodes below are those of the children in turn. -/
theorem childNodesFrom_eq (p : Path) (l : List (Dimension × Context)) :
    childNodesFrom p l = l.flatMap fun e => nodesFrom (p ++ [e.1]) e.2 := by
  induction l with
  | nil => rfl
  | cons e l ih => rw [childNodesFrom, ih, List.flatMap_cons]

/-- Contexts list their nodes as all trees do. -/
theorem lists_nodes : Nodes.Lists children nodesFrom where
  eq p c := by
    cases c
    rw [nodesFrom, childNodesFrom_eq]
  induction := children_induction

/-- The number of bases in the whole tree, node by node. -/
def bases (c : Context) : Nat := Nodes.tally (·.base.toList.length) c.nodes

/-- **A count is that of all bases below.** -/
theorem Valid.baseCount_eq_bases {c : Context} (h : c.Valid) : c.baseCount = c.bases := by
  induction h with
  | intro sorted count nonempty inner ih =>
    rw [bases, nodes, lists_nodes.tally_nodesFrom, count, totalBases_eq, Keyed.total_congr ih]
    rfl

/-- Every node of a context is of the shape of contexts. -/
theorem Valid.of_mem_nodes {c : Context} (h : c.Valid) : ∀ n ∈ c.nodes, n.2.Valid :=
  lists_nodes.forall_mem (fun _ ht => ht.inner) h

/-! ## checked edits -/

/-- The node without its base. -/
def takeBase? (c : Context) : Option Context :=
  if c.base.isSome then
    (c.baseCount.psub 1).map fun count => { c with base := none, baseCount := count }
  else some { c with base := none }

/-- The node with its child along `d` edited. -/
def withChild? (d : Dimension) (f : Context → Option Context) (c : Context) : Option Context :=
  let old := (c.child? d).getD empty
  (f old).bind fun new =>
    (c.baseCount.psub old.baseCount).map fun count =>
      { c with
        children :=
          if new.isEmpty then Keyed.erase d c.children else Keyed.insert d new c.children
        baseCount := count + new.baseCount }

/-- The node with only those children whose dimension `keep` admits. -/
def retain? (keep : Dimension → Bool) (c : Context) : Option Context :=
  let (kept, dropped) := c.children.partition (keep ·.1)
  (c.baseCount.psub (totalBases dropped)).map fun count =>
    { c with children := kept, baseCount := count }

/-- The tree with the node at the end of a path edited. -/
def editAt? (f : Context → Option Context) : Path → Context → Option Context
  | [], c => f c
  | d :: p, c => c.withChild? d (editAt? f p)

end Context

mutual

/-- Carries out a patch on a context; `forced` tells whether an ancestor clears dimensions. -/
def Patch.mergeInto? (p : Patch) (forced : Bool) (c : Context) : Option Context :=
  match p with
  | ⟨base, children, clearsBase, clearsDims, _, _⟩ =>
    (if clearsBase then c.takeBase? else some c).bind fun c =>
      let c := match base with
        | some v => c.putBase v
        | none => c
      let clearing := clearsDims || forced
      (if clearing then c.retain? (Keyed.contains · children) else some c).bind fun c =>
        Patch.mergeChildren? children clearing c

/-- Carries out the changes to children in turn. -/
def Patch.mergeChildren? : List (Dimension × Patch) → Bool → Context → Option Context
  | [], _, c => some c
  | (d, p) :: rest, clearing, c =>
    (c.withChild? d (Patch.mergeInto? p clearing)).bind fun c =>
      Patch.mergeChildren? rest clearing c

end

/-! ### where the counts are exact -/

namespace Context

variable {c : Context}

/-- A base that is taken off was counted. -/
theorem Valid.takeBase?_eq (h : c.Valid) : c.takeBase? = some c.takeBase := by
  rw [takeBase?, Context.takeBase]
  by_cases hbase : c.base.isSome
  · rw [if_pos hbase, if_pos hbase, Checked.psub_one_of_isSome h.count hbase]
    rfl
  · rw [if_neg hbase, if_neg hbase]

/-- No child counts for more than its parent. -/
theorem Valid.baseCount_along_le (h : c.Valid) (d : Dimension) :
    (c.along d).baseCount ≤ c.baseCount := by
  have hle := Keyed.elim_get?_le_total h.sorted baseCount d
  have hcount := h.count
  rw [totalBases_eq] at hcount
  rw [baseCount_along, Context.child?]
  omega

/-- What a child counted before can be taken off, so the checked form agrees. -/
theorem Valid.withChild?_eq (h : c.Valid) {d : Dimension} {f : Context → Context}
    {f? : Context → Option Context} (hf : f? (c.along d) = some (f (c.along d))) :
    c.withChild? d f? = some (c.withChild d f) := by
  have hle := h.baseCount_along_le d
  rw [Context.along] at hf hle
  rw [withChild?, hf, Option.bind_some, Nat.psub_eq_sub hle]
  rfl

/-- What the dropped children counted can be taken off. -/
theorem Valid.retain?_eq (h : c.Valid) (keep : Dimension → Bool) :
    c.retain? keep = some (c.retain keep) := by
  have hcount := h.count
  have htotal := Keyed.total_filter_add baseCount (keep ·.1) c.children
  have hle : totalBases (c.children.partition (keep ·.1)).2 ≤ c.baseCount := by
    rw [List.partition_eq_filter_filter]
    simp only [totalBases_eq, Function.comp_def] at hcount ⊢
    omega
  show Option.map _ (c.baseCount.psub (totalBases (c.children.partition (keep ·.1)).2)) = _
  rw [Nat.psub_eq_sub hle]
  rfl

/-- Along the whole path nothing is taken off that is not there, if that is so at its end. -/
theorem Valid.editAt?_eq {f : Context → Context} {f? : Context → Option Context}
    (hf : ∀ k : Context, k.Valid → f? k = some (f k)) (h : c.Valid) (p : Path) :
    c.editAt? f? p = some (c.editAt f p) := by
  induction p generalizing c with
  | nil => exact hf c h
  | cons d p ih => exact h.withChild?_eq (ih (h.along d))

end Context

namespace Patch

/-- In checked form too the head of a node is merged first and the children then. -/
theorem mergeInto?_eq (p : Patch) (forced : Bool) {c : Context} (hc : c.Valid) :
    p.mergeInto? forced c =
      mergeChildren? p.children (p.clearsDims || forced) (p.mergeHead forced c) := by
  have hclear : (if p.clearsBase then c.takeBase? else some c) =
      some (if p.clearsBase then c.takeBase else c) := by
    rw [hc.takeBase?_eq]
    split <;> rfl
  have hbase := valid_mergeBase p hc
  have hretain : (if p.clearsDims || forced then
        (p.mergeBase c).retain? (Keyed.contains · p.children)
      else some (p.mergeBase c)) = some (p.mergeHead forced c) := by
    rw [hbase.retain?_eq, mergeHead]
    split <;> rfl
  cases p
  rw [mergeInto?.eq_def]
  dsimp only at hclear hretain ⊢
  rw [hclear, Option.bind_some]
  exact congrArg (Option.bind · _) hretain

/-- Children are merged in checked form one after the other, up to the first that fails. -/
theorem mergeChildren?_eq_foldlM (l : List (Dimension × Patch)) (clearing : Bool) (c : Context) :
    mergeChildren? l clearing c =
      l.foldlM (fun c e => c.withChild? e.1 (e.2.mergeInto? clearing)) c := by
  induction l generalizing c with
  | nil => rw [mergeChildren?, List.foldlM_nil, Option.pure_def]
  | cons e l ih =>
    rw [mergeChildren?, List.foldlM_cons, Option.bind_eq_bind]
    exact congrArg (Option.bind _) (funext ih)

/-- A patch is carried out without subtracting from less. -/
theorem Ordered.mergeInto?_eq_some {p : Patch} (hp : p.Ordered) (forced : Bool) {c : Context}
    (hc : c.Valid) : p.mergeInto? forced c = some (p.mergeInto forced c) := by
  induction hp generalizing forced c with
  | @intro p _ inner ih =>
    have hchildren := Checked.foldlM_eq_some (P := Context.Valid) (Q := (· ∈ p.children))
      (fun c e hc he => hc.withChild ((inner e he).valid_mergeInto (p.clearsDims || forced)
        (hc.along e.1)))
      (fun c e hc he => hc.withChild?_eq (ih e he (p.clearsDims || forced) (hc.along e.1)))
      (fun _ he => he) (valid_mergeHead p forced hc)
    rw [mergeInto?_eq p forced hc, mergeInto_eq, mergeChildren?_eq_foldlM, mergeChildren_eq]
    exact hchildren.1

end Patch

namespace Context

/-! ## edits -/

/-- What can be done to a context; at the empty path it is done to the node itself. -/
inductive Edit where
  | withDim (d : Dimension) (child : Context)
  | setBaseAt (path : Path) (v : Scalar)
  | takeBase
  | assignBase (v : Scalar)
  | applyAt (path : Path) (p : Patch)
  | assignAt (path : Path) (other : Context)
  | clearAt (path : Path)

/-- What an edit brings can be had. -/
def Edit.Reachable : Edit → Prop
  | .withDim _ child => child.Reachable
  | .applyAt _ p => p.Reachable
  | .assignAt _ other => other.Reachable
  | _ => True

/-- The context after an edit; a base that is refused leaves it as it is. -/
def edit (x : Edit) (c : Context) : Context :=
  match x with
  | .withDim d child => Context.withDim d child c
  | .setBaseAt path v => c.setBaseAt path v
  | .takeBase => c.takeBase
  | .assignBase v => (c.assignBase v).toOption.getD c
  | .applyAt path p => c.applyAt path p
  | .assignAt path other => Context.assignAt path other c
  | .clearAt path => c.clearAt path

/-- The context after an edit, unless it subtracts from less. -/
def edit? (x : Edit) (c : Context) : Option Context :=
  match x with
  | .withDim d child => c.withChild? d fun _ => some child
  | .setBaseAt path v => c.editAt? (fun k => some (k.putBase v)) path
  | .takeBase => c.takeBase?
  | .assignBase v => some ((c.assignBase v).toOption.getD c)
  | .applyAt path p => c.editAt? (p.mergeInto? false) path
  | .assignAt path other => c.editAt? (fun _ => some other) path
  | .clearAt path => c.editAt? (fun _ => some empty) path

/-- The context after edits in turn. -/
def edits (xs : List Edit) (c : Context) : Context := xs.foldl (fun c x => c.edit x) c

/-- The context after edits in turn, unless one of them subtracts from less. -/
def edits? (xs : List Edit) (c : Context) : Option Context := xs.foldlM (fun c x => c.edit? x) c

/-- A context can be had after each edit. -/
theorem Reachable.edit {c : Context} (h : c.Reachable) {x : Edit} (hx : x.Reachable) :
    (c.edit x).Reachable := by
  cases x with
  | withDim d child => exact h.withDim d hx
  | setBaseAt path v => exact h.setBaseAt path v
  | takeBase => exact h.takeBase
  | assignBase v =>
    rw [Context.edit]
    cases hk : c.assignBase v with
    | ok k => exact h.assignBase hk
    | error m => exact h
  | applyAt path p => exact h.applyAt path hx
  | assignAt path other => exact h.assignAt path hx
  | clearAt path => exact h.clearAt path

/-- **No edit takes off more than is there**. -/
theorem Valid.edit?_eq_some {c : Context} (h : c.Valid) {x : Edit} (hx : x.Reachable) :
    c.edit? x = some (c.edit x) := by
  cases x with
  | withDim d child =>
    show c.withChild? d (fun _ => some child) = some (c.withChild d fun _ => child)
    exact h.withChild?_eq rfl
  | setBaseAt path v => exact h.editAt?_eq (fun _ _ => rfl) path
  | takeBase => exact h.takeBase?_eq
  | assignBase v => rfl
  | applyAt path p =>
    have hp : p.Ordered := Patch.Reachable.ordered hx
    exact h.editAt?_eq (fun _ hk => hp.mergeInto?_eq_some false hk) path
  | assignAt path other => exact h.editAt?_eq (fun _ _ => rfl) path
  | clearAt path => exact h.editAt?_eq (fun _ _ => rfl) path

/-- No run of edits ever subtracts from less. -/
theorem Reachable.edits {c : Context} (h : c.Reachable) {xs : List Edit}
    (hxs : ∀ x ∈ xs, x.Reachable) : c.edits? xs = some (c.edits xs) ∧ (c.edits xs).Reachable :=
  Checked.foldlM_eq_some (fun _ _ hc hx => hc.edit hx) (fun _ _ hc hx => hc.valid.edit?_eq_some hx)
    hxs h

/-! ### children one after another -/

/-- Children put under a node in turn: nothing is subtracted from less, and they are stored
as if inserted. -/
theorem Valid.edits?_withDim {c : Context} (h : c.Valid) {l : List (Dimension × Context)}
    (hnonempty : ∀ e ∈ l, e.2.isEmpty = false) (hinner : ∀ e ∈ l, e.2.Valid) :
    ∃ k : Context, c.edits? (l.map fun e => .withDim e.1 e.2) = some k ∧ k.Valid ∧
      k.base = c.base ∧ k.children = l.foldl (fun m e => Keyed.insert e.1 e.2 m) c.children := by
  induction l generalizing c with
  | nil => exact ⟨c, rfl, h, rfl, rfl⟩
  | cons e l ih =>
    obtain ⟨hne, hnonempty⟩ := List.forall_mem_cons.1 hnonempty
    obtain ⟨he, hinner⟩ := List.forall_mem_cons.1 hinner
    have hput : c.edit? (.withDim e.1 e.2) = some (Context.withDim e.1 e.2 c) := by
      show c.withChild? e.1 (fun _ => some e.2) = some (c.withChild e.1 fun _ => e.2)
      exact h.withChild?_eq rfl
    have hchildren : (Context.withDim e.1 e.2 c).children = Keyed.insert e.1 e.2 c.children := by
      rw [Context.withDim, children_withChild, stored, hne, if_neg Bool.false_ne_true, Keyed.store]
    obtain ⟨k, hk, hvalid, hbase, hkchildren⟩ := ih (h.withDim he e.1) hnonempty hinner
    refine ⟨k, ?_, hvalid, hbase, ?_⟩
    · rw [List.map_cons, edits?, List.foldlM_cons, hput]
      exact hk
    · rw [hkchildren, hchildren, List.foldl_cons]

/-- Every node is what comes of its base when its children are put under it one after another,
as a reader does it. -/
theorem Valid.edits?_children {c : Context} (h : c.Valid) :
    (node c.base []).edits? (c.children.map fun e => .withDim e.1 e.2) = some c := by
  have hbare : (node c.base []).Valid :=
    .intro Keyed.sorted_nil rfl (fun _ he => nomatch he) (fun _ he => nomatch he)
  obtain ⟨k, hk, hvalid, hbase, hchildren⟩ := hbare.edits?_withDim h.nonempty h.inner
  have hsame : k.children = c.children := by
    rw [hchildren]
    exact Keyed.foldl_insert_eq h.sorted Keyed.sorted_nil (by simp [node])
  rw [hk, hvalid.ext h hbase hsame]

/-! ## all nodes at all times -/

/-- At every node the count is that of the bases below and no child is empty. -/
structure Counted (c : Context) : Prop where
  bases : ∀ n ∈ c.nodes, n.2.baseCount = n.2.bases
  nonempty : ∀ n ∈ c.nodes, ∀ e ∈ n.2.children, e.2.isEmpty = false

/-- The right shape has exact counts and no empty child at any depth. -/
theorem Valid.counted {c : Context} (h : c.Valid) : c.Counted where
  bases n hn := (h.of_mem_nodes n hn).baseCount_eq_bases
  nonempty n hn := (h.of_mem_nodes n hn).nonempty

/-- **Counts are exact and nothing is ever subtracted from less**: so it is in every context
that can be had, when its nodes are put together child by child, and through any edits of it
with contexts and patches that can be had. -/
theorem counts_exact_through_edits {c : Context} (hc : c.Reachable) :
    c.Counted ∧
    (∀ n ∈ c.nodes,
      (node n.2.base []).edits? (n.2.children.map fun e => .withDim e.1 e.2) = some n.2) ∧
    ∀ xs : List Edit, (∀ x ∈ xs, x.Reachable) →
      c.edits? xs = some (c.edits xs) ∧ (c.edits xs).Counted :=
  ⟨hc.valid.counted, fun n hn => (hc.valid.of_mem_nodes n hn).edits?_children,
    fun _ hxs => (hc.edits hxs).imp_right fun h => h.valid.counted⟩

/-- A subtree is replaced at `1`, a patch drops it again but for a base that it sets itself, a
base of another kind is refused at the top, and all that is left goes piece by piece. -/
def prunings : List Edit :=
  [.withDim (.integer 1) (empty.setBaseAt [.integer 2, .integer 3] .omega),
    .applyAt [] ((Patch.noop.setBaseAt [.integer 1, .integer 4] .alpha).setClearDimsAt
      [.integer 1]),
    .assignBase .alpha, .assignBase .omega,
    .assignAt [.integer 1, .integer 4] empty,
    .clearAt [.integer 5], .takeBase]

/-- In the end nothing is left, and the counts say so. -/
theorem counts_exact_through_prunings :
    let c := (empty.setBaseAt [.integer 1] .omega).setBaseAt [.integer 1, .integer 2] .alpha
    (c.edits? prunings = some (c.edits prunings) ∧ (c.edits prunings).Counted) ∧
      (c.edits prunings).isEmpty := by
  intro c
  have hc : c.Reachable := (Reachable.empty.setBaseAt _ _).setBaseAt _ _
  have hprunings : ∀ x ∈ prunings, x.Reachable := by
    have hchild : (empty.setBaseAt [.integer 2, .integer 3] .omega).Reachable :=
      Reachable.empty.setBaseAt _ _
    have hpatch : ((Patch.noop.setBaseAt [.integer 1, .integer 4] .alpha).setClearDimsAt
        [.integer 1]).Reachable := (Patch.Reachable.noop.setBaseAt _ _).setClearDimsAt _
    simp only [prunings, List.forall_mem_cons]
    exact ⟨hchild, hpatch, trivial, trivial, .empty, trivial, trivial, fun _ hx => nomatch hx⟩
  exact ⟨(counts_exact_through_edits hc).2.2 prunings hprunings, by decide +kernel⟩

end Context

end Intension
