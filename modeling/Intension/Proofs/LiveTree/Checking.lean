import Intension.Proofs.Nodes
import Intension.Proofs.LiveTree.Running

/-!
# Intension.Proofs.LiveTree.Checking

Actions on live trees in their checked form: every subtraction from a count is
partial (`Nat.psub`), and children are cleared and kicked one after the other,
each exchanged in its parent before the next one is touched.  On trees of the
right shape this comes to what the actions do, which exchange all children of a
node at once: no count is ever subtracted from less, whatever the observers
answer.
-/

namespace Intension.LiveTree

/-! ## checked actions -/

/-- The node without its base. -/
def takeBase? (t : LiveTree) : Option LiveTree :=
  if t.base.isSome then
    (t.baseCount.psub 1).map fun bases => { t with base := none, baseCount := bases }
  else some { t with base := none }

section

variable {α : Type}

/-- The node with its child along `d` edited, and what the edit gives besides. -/
def withChild? (d : Dimension) (f : LiveTree → Option (LiveTree × α)) (t : LiveTree) :
    Option (LiveTree × α) :=
  let old := (t.child? d).getD empty
  (f old).bind fun new =>
    (t.baseCount.psub old.baseCount).bind fun bases =>
      (t.headCount.psub old.headCount).map fun heads =>
        ({ t with
            children :=
              if new.1.isLive then Keyed.insert d new.1 t.children else Keyed.erase d t.children
            baseCount := bases + new.1.baseCount
            headCount := heads + new.1.headCount },
          new.2)

/-- The tree with the node at the end of a path edited, and what the edit gives besides. -/
def editAt? (f : LiveTree → Option (LiveTree × α)) : Path → LiveTree → Option (LiveTree × α)
  | [], t => f t
  | d :: p, t => t.withChild? d (editAt? f p)

end

/-! ### changes -/

mutual

/-- Clears a node and what is below it. -/
def clearHere? (ch : Channel) (t : LiveTree) (δ : Delivery) : Option (LiveTree × Delivery) :=
  match t with
  | ⟨base, children, bases, heads, observers⟩ =>
    let δ := δ.announce ch observers (.change .clear) none
    ((⟨base, children, bases, heads, observers⟩ : LiveTree).takeBase?).bind fun t =>
      clearChildren? ch (fun _ => false) children t δ

/-- Clears, of the children that `t` had at first, those that are not empty and whose dimension
`listed` does not admit, and exchanges each of them in `t`. -/
def clearChildren? (ch : Channel) (listed : Dimension → Bool)
    (children : List (Dimension × LiveTree)) (t : LiveTree) (δ : Delivery) :
    Option (LiveTree × Delivery) :=
  match children with
  | [] => some (t, δ)
  | (d, k) :: rest =>
    if k.isEmpty || listed d then clearChildren? ch listed rest t δ
    else
      (clearHere? ch k δ).bind fun cleared =>
        (t.withChild? d fun _ => some cleared).bind fun s =>
          clearChildren? ch listed rest s.1 s.2

end

/-- The node with those of its children cleared whose dimension `listed` does not admit. -/
def clearUnlisted? (ch : Channel) (listed : Dimension → Bool) (t : LiveTree) (δ : Delivery) :
    Option (LiveTree × Delivery) := clearChildren? ch listed t.children t δ

mutual

/-- Carries out a patch on a node and below it; `forced` tells whether an ancestor clears
dimensions. -/
def applyHere? (ch : Channel) (p : Patch) (forced : Bool) (t : LiveTree) (δ : Delivery) :
    Option (LiveTree × Delivery) :=
  match p with
  | ⟨base, children, clearsBase, clearsDims, bases, blanks⟩ =>
    let whole : Patch := ⟨base, children, clearsBase, clearsDims, bases, blanks⟩
    let shown := if forced then whole.setClearDimsAt [] else whole
    let δ := δ.announce ch t.observers (.change (.patch shown)) none
    (if clearsBase then t.takeBase? else some t).bind fun t =>
      let t := match base with
        | some v => t.putBase v
        | none => t
      let clearing := clearsDims || forced
      (if clearing then t.clearUnlisted? ch (Keyed.contains · children) δ
        else some (t, δ)).bind fun s => applyChildren? ch children clearing s.1 s.2

/-- Carries out the changes to children in turn. -/
def applyChildren? (ch : Channel) (children : List (Dimension × Patch)) (clearing : Bool)
    (t : LiveTree) (δ : Delivery) : Option (LiveTree × Delivery) :=
  match children with
  | [] => some (t, δ)
  | (d, p) :: rest =>
    (t.withChild? d fun k => applyHere? ch p clearing k δ).bind fun s =>
      applyChildren? ch rest clearing s.1 s.2

end

mutual

/-- Makes a node and what is below it equal to a context. -/
def assignHere? (ch : Channel) (c : Context) (t : LiveTree) (δ : Delivery) :
    Option (LiveTree × Delivery) :=
  match c with
  | ⟨base, children, bases⟩ =>
    let δ := δ.announce ch t.observers (.change (.assign ⟨base, children, bases⟩)) none
    (match base with
      | some v => some (t.putBase v)
      | none => t.takeBase?).bind fun t =>
      (t.clearUnlisted? ch (Keyed.contains · children) δ).bind fun s =>
        assignChildren? ch children s.1 s.2

/-- Makes children equal to contexts in turn. -/
def assignChildren? (ch : Channel) (children : List (Dimension × Context)) (t : LiveTree)
    (δ : Delivery) : Option (LiveTree × Delivery) :=
  match children with
  | [] => some (t, δ)
  | (d, c) :: rest =>
    (t.withChild? d fun k => assignHere? ch c k δ).bind fun s =>
      assignChildren? ch rest s.1 s.2

end

/-- Carries out a change on a node and below it. -/
def changeHere? (ch : Channel) (x : Change) (t : LiveTree) (δ : Delivery) :
    Option (LiveTree × Delivery) :=
  match x with
  | .patch p => applyHere? ch p false t δ
  | .assign c => assignHere? ch c t δ
  | .clear => clearHere? ch t δ

/-! ### observers -/

/-- The node with an observer taken off once, and whether it was there. -/
def drop? (o : Observer) (t : LiveTree) : Option (LiveTree × Bool) :=
  if t.observers.any (·.id == o.id) then
    (t.headCount.psub 1).map fun heads =>
      ({ t with observers := t.observers.eraseP (·.id == o.id), headCount := heads }, true)
  else some (t, false)

/-- The node without its observers. -/
def dismiss? (t : LiveTree) : Option LiveTree :=
  (t.headCount.psub t.observers.length).map fun heads =>
    { t with observers := [], headCount := heads }

mutual

/-- Kicks all observers off a node and off those below it; gives their number too. -/
def kickAll? (ch : Channel) (t : LiveTree) (δ : Delivery) : Option (LiveTree × Delivery × Nat) :=
  match t with
  | ⟨base, children, bases, heads, observers⟩ =>
    let δ := δ.announce ch observers .kick none
    ((⟨base, children, bases, heads, observers⟩ : LiveTree).dismiss?).bind fun t =>
      (kickChildren? ch children t δ).map fun s => (s.1, s.2.1, observers.length + s.2.2)

/-- Kicks all observers off the children that `t` had at first and off the nodes below them, and
exchanges each child in `t`. -/
def kickChildren? (ch : Channel) (children : List (Dimension × LiveTree)) (t : LiveTree)
    (δ : Delivery) : Option (LiveTree × Delivery × Nat) :=
  match children with
  | [] => some (t, δ, 0)
  | (d, k) :: rest =>
    (kickAll? ch k δ).bind fun kicked =>
      (t.withChild? d fun _ => some kicked).bind fun s =>
        (kickChildren? ch rest s.1 s.2.1).map fun others =>
          (others.1, others.2.1, s.2.2 + others.2.2)

end

/-- Kicks the observers off one node. -/
def kickHere? (ch : Channel) (t : LiveTree) (δ : Delivery) : Option (LiveTree × Delivery × Nat) :=
  t.dismiss?.map fun t' => (t', δ.announce ch t.observers .kick none, t.observers.length)

/-! ### runs -/

/-- The tree after an action, and the notices of it, unless it subtracts from less. -/
def perform? (ch : Channel) (a : Action) (t : LiveTree) : Option (LiveTree × Delivery) :=
  match a with
  | .change path x =>
    let δ := t.announceAbove ch path (.change x) .start
    t.editAt? (fun k => changeHere? ch x k δ) path
  | .attach path o => (t.editAt? (fun k => some (welcome o k)) path).map fun s => (s.1, .start)
  | .detach path o =>
    if (t.get? path).isSome then (t.editAt? (drop? o) path).map fun s => (s.1, .start)
    else some (t, .start)
  | .kick path deep =>
    if (t.get? path).isSome then
      (t.editAt? (fun k => if deep then kickAll? ch k .start else kickHere? ch k .start)
        path).map fun s => (s.1, s.2.1)
    else some (t, .start)

/-- The tree after a run, unless an action of it subtracts from less. -/
def run? (actions : List (Channel × Action)) (t : LiveTree) : Option LiveTree :=
  actions.foldlM (fun t a => (t.perform? a.1 a.2).map (·.1)) t

/-! ## where the counts are exact -/

namespace Valid

variable {t : LiveTree}

/-- In a valid tree no subtraction fails when the base is cleared. -/
theorem takeBase?_eq (h : t.Valid) : t.takeBase? = some t.takeBase := by
  rw [takeBase?, LiveTree.takeBase]
  by_cases hbase : t.base.isSome
  · rw [if_pos hbase, if_pos hbase, Checked.psub_one_of_isSome h.bases hbase]
    rfl
  · rw [if_neg hbase, if_neg hbase]

/-- No child counts for more than its parent, neither in bases nor in observers. -/
theorem along_le (h : t.Valid) (d : Dimension) :
    (t.along d).baseCount ≤ t.baseCount ∧ (t.along d).headCount ≤ t.headCount := by
  have hbases := Keyed.elim_get?_le_total h.sorted baseCount d
  have hheads := Keyed.elim_get?_le_total h.sorted headCount d
  rw [count_along baseCount rfl, count_along headCount rfl, h.bases, h.heads, totalBases_eq,
    totalHeads_eq]
  omega

section

variable {α : Type}

/-- No subtraction fails when a child is changed, if none does in the child. -/
theorem withChild?_eq {d : Dimension} {f : LiveTree → LiveTree × α}
    {f? : LiveTree → Option (LiveTree × α)} (h : t.Valid)
    (hf : f? (t.along d) = some (f (t.along d))) : t.withChild? d f? = some (t.withChild d f) := by
  have hle := h.along_le d
  rw [LiveTree.along] at hf hle
  rw [withChild?, hf, Option.bind_some, Nat.psub_eq_sub hle.1, Option.bind_some,
    Nat.psub_eq_sub hle.2]
  rfl

/-- No subtraction fails when a node is changed, if none does in the node. -/
theorem editAt?_eq {f : LiveTree → LiveTree × α} {f? : LiveTree → Option (LiveTree × α)}
    (hf : ∀ k : LiveTree, k.Valid → f? k = some (f k)) (h : t.Valid) (p : Path) :
    t.editAt? f? p = some (t.editAt f p) := by
  induction p generalizing t with
  | nil => exact hf t h
  | cons d p ih => exact h.withChild?_eq (ih (h.along d))

end

end Valid

/-! ### children one after another -/

theorem withChildren_withChildren (l m : List (Dimension × LiveTree)) (t : LiveTree) :
    (t.withChildren l).withChildren m = t.withChildren m := by
  simp [withChildren]

namespace Valid

variable {t : LiveTree}

/-- A valid tree given its own children is the same tree, counts included. -/
theorem withChildren_children (h : t.Valid) : t.withChildren t.children = t := by
  have hbases := h.bases
  have hheads := h.heads
  have hbaseCount : t.baseCount - totalBases t.children + totalBases t.children = t.baseCount := by
    omega
  have hheadCount : t.headCount - totalHeads t.children + totalHeads t.children = t.headCount := by
    omega
  rw [LiveTree.withChildren, hbaseCount, hheadCount]
  cases t
  rfl

/-- To edit one child is to exchange all children for those with this one stored anew. -/
theorem withChild_eq_withChildren {α : Type} (h : t.Valid) (d : Dimension)
    (f : LiveTree → LiveTree × α) : (t.withChild d f).1 =
      t.withChildren (Keyed.store d (f (t.along d)).1.stored t.children) := by
  have hbaseTotal : totalBases (t.withChild d f).1.children =
      totalBases t.children - (t.along d).baseCount + (f (t.along d)).1.baseCount :=
    total_withChild h rfl fun k hk => (not_isLive_iff.1 hk).1
  have hheadTotal : totalHeads (t.withChild d f).1.children =
      totalHeads t.children - (t.along d).headCount + (f (t.along d)).1.headCount :=
    total_withChild h rfl fun k hk => (not_isLive_iff.1 hk).2
  have hbaseLe := Keyed.elim_get?_le_total h.sorted baseCount d
  have hheadLe := Keyed.elim_get?_le_total h.sorted headCount d
  rw [← count_along baseCount rfl, ← totalBases_eq] at hbaseLe
  rw [← count_along headCount rfl, ← totalHeads_eq] at hheadLe
  have hbases := h.bases
  have hheads := h.heads
  rw [children_withChild] at hbaseTotal hheadTotal
  have hbaseCount : t.baseCount - (t.along d).baseCount + (f (t.along d)).1.baseCount =
      t.baseCount - totalBases t.children +
        totalBases (Keyed.store d (f (t.along d)).1.stored t.children) := by omega
  have hheadCount : t.headCount - (t.along d).headCount + (f (t.along d)).1.headCount =
      t.headCount - totalHeads t.children +
        totalHeads (Keyed.store d (f (t.along d)).1.stored t.children) := by omega
  rw [LiveTree.withChildren, ← hbaseCount, ← hheadCount, ← children_withChild]
  rfl

/-- The child between some that were dealt with and some that still are to be is exchanged. -/
theorem withChild?_middle {α : Type} (h : t.Valid) {done rest : List (Dimension × LiveTree)}
    {d : Dimension} {k : LiveTree} (hchildren : t.children = done ++ (d, k) :: rest)
    {new : LiveTree × α} (hnew : new.1.Valid) :
    ∃ t' : LiveTree, t.withChild? d (fun _ => some new) = some (t', new.2) ∧ t'.Valid ∧
      t'.children = done ++ (new.1.stored.map (d, ·)).toList ++ rest ∧
      ∀ l, t'.withChildren l = t.withChildren l := by
  have hstored : (t.withChild d fun _ => new).1.children =
      done ++ (new.1.stored.map (d, ·)).toList ++ rest := by
    have hsorted := h.sorted
    rw [hchildren] at hsorted
    rw [children_withChild, hchildren, hsorted.store_middle BEq.rfl]
  refine ⟨(t.withChild d fun _ => new).1, h.withChild?_eq (f := fun _ => new) rfl,
    h.withChild hnew, hstored, fun l => ?_⟩
  rw [h.withChild_eq_withChildren, withChildren_withChildren]

end Valid

/-! ### changes -/

section clearing

variable {ch : Channel} {listed : Dimension → Bool}

/-- With the children before `rest` dealt with, to clear those of `rest` in turn is to exchange
all of them at once. -/
theorem Valid.clearChildren?_eq {t : LiveTree} {done rest : List (Dimension × LiveTree)}
    (h : t.Valid) (hchildren : t.children = done ++ rest)
    (hcheck : ∀ e ∈ rest, ∀ δ, clearHere? ch e.2 δ = some (clearHere ch e.2 δ))
    (δ : Delivery) :
    clearChildren? ch listed rest t δ =
      some (t.withChildren (done ++ (clearChildren ch listed rest δ).1),
        (clearChildren ch listed rest δ).2) := by
  have hinner := h.inner
  induction rest generalizing t done δ with
  | nil =>
    rw [clearChildren?, clearChildren, ← hchildren, h.withChildren_children]
  | cons e rest ih =>
    obtain ⟨d, k⟩ := e
    obtain ⟨hk, hcheck⟩ := List.forall_mem_cons.1 hcheck
    rw [clearChildren?, clearChildren]
    split
    · have hdone : t.children = (done ++ [(d, k)]) ++ rest := by simp [hchildren]
      rw [ih h hdone hcheck δ hinner, List.append_assoc]
      rfl
    · have hvalid : (clearHere ch k δ).1.Valid :=
        ((hinner (d, k) (by simp [hchildren])).carries_clearHere ch δ).valid
      obtain ⟨t', ht', htvalid, htchildren, hsame⟩ := h.withChild?_middle hchildren hvalid
      rw [hk, Option.bind_some, ht', Option.bind_some, ih htvalid htchildren hcheck _ htvalid.inner,
        hsame]
      cases hlive : (clearHere ch k δ).1.isLive <;> simp [stored, hlive]

end clearing

theorem clearHere?_unfold (ch : Channel) (t : LiveTree) (δ : Delivery) : clearHere? ch t δ =
    t.takeBase?.bind fun k => clearChildren? ch (fun _ => false) t.children k
      (δ.announce ch t.observers (.change .clear) none) := by
  cases t
  rw [clearHere?]

namespace Valid

variable {t : LiveTree}

/-- No subtraction fails in a clearing, by induction on the tree. -/
theorem clearHere?_eq (h : t.Valid) (ch : Channel) (δ : Delivery) :
    clearHere? ch t δ = some (clearHere ch t δ) := by
  induction h generalizing δ with
  | @intro t sorted bases heads live inner ih =>
    have h : t.Valid := .intro sorted bases heads live inner
    have hnone : t.takeBase.children = [] ++ t.children := rfl
    rw [clearHere?_unfold, h.takeBase?_eq, Option.bind_some,
      h.takeBase.clearChildren?_eq hnone ih, clearHere_eq]
    rfl

/-- No subtraction fails when the children that are not listed are cleared. -/
theorem clearUnlisted?_eq (h : t.Valid) (ch : Channel) (listed : Dimension → Bool)
    (δ : Delivery) : t.clearUnlisted? ch listed δ = some (t.clearUnlisted ch listed δ) := by
  have hnone : t.children = [] ++ t.children := rfl
  exact h.clearChildren?_eq hnone (fun e he δ => (h.inner e he).clearHere?_eq ch δ) δ

end Valid

/-- The tree after each listed child was changed by `f`, and the notices of it. -/
def inTurn? {α : Type} (f : α → LiveTree → Delivery → Option (LiveTree × Delivery))
    (l : List (Dimension × α)) (t : LiveTree) (δ : Delivery) : Option (LiveTree × Delivery) :=
  l.foldlM (fun s e => s.1.withChild? e.1 fun k => f e.2 k s.2) (t, δ)

/-- No subtraction fails when children are changed in turn, if none does in a change. -/
theorem Valid.inTurn?_eq {α : Type} {f : α → LiveTree → Delivery → LiveTree × Delivery}
    {f? : α → LiveTree → Delivery → Option (LiveTree × Delivery)} {l : List (Dimension × α)}
    (hf : ∀ e ∈ l, ∀ k : LiveTree, k.Valid → ∀ δ,
      (f e.2 k δ).1.Valid ∧ f? e.2 k δ = some (f e.2 k δ))
    {t : LiveTree} (h : t.Valid) (δ : Delivery) :
    inTurn? f? l t δ = some (inTurn f l t δ) := by
  have hstep (s : LiveTree × Delivery) (e : Dimension × α) (hs : s.1.Valid)
      (he : ∀ k : LiveTree, k.Valid → ∀ δ, (f e.2 k δ).1.Valid ∧ f? e.2 k δ = some (f e.2 k δ)) :
      (s.1.withChild? e.1 fun k => f? e.2 k s.2) =
        some (s.1.withChild e.1 fun k => f e.2 k s.2) :=
    hs.withChild?_eq (he _ (hs.along e.1) s.2).2
  have hturn := Checked.foldlM_eq_some (P := fun s : LiveTree × Delivery => s.1.Valid)
    (fun s e hs he => hs.withChild (he _ (hs.along e.1) s.2).1) hstep hf (s := (t, δ)) h
  exact hturn.1

theorem applyChildren?_eq (ch : Channel) (l : List (Dimension × Patch)) (clearing : Bool)
    (t : LiveTree) (δ : Delivery) : applyChildren? ch l clearing t δ =
      inTurn? (fun p k δ => applyHere? ch p clearing k δ) l t δ := by
  induction l generalizing t δ with
  | nil => rw [applyChildren?, inTurn?, List.foldlM_nil, Option.pure_def]
  | cons e l ih =>
    rw [applyChildren?, inTurn?, List.foldlM_cons, Option.bind_eq_bind]
    exact congrArg (Option.bind _) (funext fun s => ih s.1 s.2)

theorem assignChildren?_eq (ch : Channel) (l : List (Dimension × Context)) (t : LiveTree)
    (δ : Delivery) : assignChildren? ch l t δ = inTurn? (assignHere? ch) l t δ := by
  induction l generalizing t δ with
  | nil => rw [assignChildren?, inTurn?, List.foldlM_nil, Option.pure_def]
  | cons e l ih =>
    rw [assignChildren?, inTurn?, List.foldlM_cons, Option.bind_eq_bind]
    exact congrArg (Option.bind _) (funext fun s => ih s.1 s.2)

namespace Valid

variable {t : LiveTree}

/-- No subtraction fails when a patch is applied, by induction on the patch. -/
theorem applyHere?_eq {p : Patch} (hp : p.Ordered) (ch : Channel) (forced : Bool) (h : t.Valid)
    (δ : Delivery) : applyHere? ch p forced t δ = some (applyHere ch p forced t δ) := by
  induction hp generalizing forced t δ with
  | @intro p _ inner ih =>
    have hclear : (if p.clearsBase then t.takeBase? else some t) =
        some (if p.clearsBase then t.takeBase else t) := by
      rw [h.takeBase?_eq]
      split <;> rfl
    have hhead : (if p.clearsDims || forced then
          (applyBase p t).clearUnlisted? ch (Keyed.contains · p.children)
            (tellPatch ch p forced t δ)
        else some (applyBase p t, tellPatch ch p forced t δ)) =
        some (applyHead ch p forced t (tellPatch ch p forced t δ)) := by
      rw [(h.carries_applyBase p).valid.clearUnlisted?_eq, applyHead]
      split <;> rfl
    have hvalid := (h.carries_applyHead ch p forced (tellPatch ch p forced t δ)).valid
    have hchildren : applyChildren? ch p.children (p.clearsDims || forced)
        (applyHead ch p forced t (tellPatch ch p forced t δ)).1
        (applyHead ch p forced t (tellPatch ch p forced t δ)).2 =
          some (applyHere ch p forced t δ) := by
      rw [applyChildren?_eq, applyHere_eq]
      exact hvalid.inTurn?_eq
        (fun e he k hk δ => ⟨(hk.carries_applyHere (inner e he) ch _ δ).valid, ih e he _ hk δ⟩) _
    rw [← hchildren]
    cases p
    rw [applyHere?.eq_def]
    dsimp only at hclear ⊢
    rw [hclear, Option.bind_some]
    exact congrArg (Option.bind · _) hhead

/-- No subtraction fails when a context is assigned, by induction on the context. -/
theorem assignHere?_eq {c : Context} (hc : c.Valid) (ch : Channel) (h : t.Valid) (δ : Delivery) :
    assignHere? ch c t δ = some (assignHere ch c t δ) := by
  induction hc generalizing t δ with
  | @intro c _ _ _ inner ih =>
    have hbase : (match c.base with
        | some v => some (t.putBase v)
        | none => t.takeBase?) = some (assignBase c t) := by
      rw [h.takeBase?_eq, assignBase]
      cases c.base <;> rfl
    have hvalid := (h.carries_assignBase c).valid
    have hhead : (assignBase c t).clearUnlisted? ch (Keyed.contains · c.children)
        (tellAssign ch c t δ) = some (assignHead ch c t (tellAssign ch c t δ)) :=
      hvalid.clearUnlisted?_eq ch _ _
    have hheadValid := (hvalid.carries_clearUnlisted ch (Keyed.contains · c.children)
      (tellAssign ch c t δ)).valid
    have hchildren : assignChildren? ch c.children (assignHead ch c t (tellAssign ch c t δ)).1
        (assignHead ch c t (tellAssign ch c t δ)).2 = some (assignHere ch c t δ) := by
      rw [assignChildren?_eq, assignHere_eq]
      exact hheadValid.inTurn?_eq
        (fun e he k hk δ => ⟨(hk.carries_assignHere (inner e he) ch δ).valid, ih e he hk δ⟩) _
    rw [← hchildren]
    cases c
    rw [assignHere?.eq_def]
    dsimp only at hbase ⊢
    rw [hbase, Option.bind_some]
    exact congrArg (Option.bind · _) hhead

/-- No subtraction fails in a change at a node. -/
theorem changeHere?_eq {x : Change} (hx : x.Sound) (ch : Channel) (h : t.Valid) (δ : Delivery) :
    changeHere? ch x t δ = some (changeHere ch x t δ) := by
  cases x with
  | patch p => exact h.applyHere?_eq hx ch false δ
  | assign c => exact h.assignHere?_eq hx ch δ
  | clear => exact h.clearHere?_eq ch δ

end Valid

/-! ### observers -/

namespace Valid

variable {t : LiveTree}

/-- No subtraction fails when an observer is dropped. -/
theorem drop?_eq (h : t.Valid) (o : Observer) : t.drop? o = some (t.drop o) := by
  have hheads := h.heads
  rw [drop?, drop]
  by_cases hany : t.observers.any (·.id == o.id)
  · obtain ⟨x, hx, -⟩ := List.any_eq_true.1 hany
    have hpos := List.length_pos_of_mem hx
    rw [if_pos hany, if_pos hany, Nat.psub_eq_sub (by omega)]
    rfl
  · rw [if_neg hany, if_neg hany]

/-- No subtraction fails when the observers of a node are dismissed. -/
theorem dismiss?_eq (h : t.Valid) : t.dismiss? = some t.dismiss := by
  have hheads := h.heads
  rw [dismiss?, Nat.psub_eq_sub (by omega)]
  rfl

end Valid

theorem kickAll?_unfold (ch : Channel) (t : LiveTree) (δ : Delivery) : kickAll? ch t δ =
    t.dismiss?.bind fun k =>
      (kickChildren? ch t.children k (δ.announce ch t.observers .kick none)).map fun s =>
        (s.1, s.2.1, t.observers.length + s.2.2) := by
  cases t
  rw [kickAll?]

theorem kickAll_unfold (ch : Channel) (t : LiveTree) (δ : Delivery) : kickAll ch t δ =
    (t.dismiss.withChildren (kickChildren ch t.children (δ.announce ch t.observers .kick none)).1,
      (kickChildren ch t.children (δ.announce ch t.observers .kick none)).2.1,
      t.observers.length +
        (kickChildren ch t.children (δ.announce ch t.observers .kick none)).2.2) := by
  cases t
  rw [kickAll]

/-- With the children before `rest` dealt with, to kick all observers off those of `rest` in turn
is to exchange all of them at once. -/
theorem Valid.kickChildren?_eq {ch : Channel} {t : LiveTree}
    {done rest : List (Dimension × LiveTree)} (h : t.Valid) (hchildren : t.children = done ++ rest)
    (hcheck : ∀ e ∈ rest, ∀ δ, kickAll? ch e.2 δ = some (kickAll ch e.2 δ)) (δ : Delivery) :
    kickChildren? ch rest t δ =
      some (t.withChildren (done ++ (kickChildren ch rest δ).1), (kickChildren ch rest δ).2) := by
  have hinner := h.inner
  induction rest generalizing t done δ with
  | nil => rw [kickChildren?, kickChildren, ← hchildren, h.withChildren_children]
  | cons e rest ih =>
    obtain ⟨d, k⟩ := e
    obtain ⟨hk, hcheck⟩ := List.forall_mem_cons.1 hcheck
    have hvalid : (kickAll ch k δ).1.Valid :=
      ((hinner (d, k) (by simp [hchildren])).keeps_kickAll ch δ).valid
    obtain ⟨t', ht', htvalid, htchildren, hsame⟩ := h.withChild?_middle hchildren hvalid
    rw [kickChildren?, kickChildren, hk, Option.bind_some, ht', Option.bind_some,
      ih htvalid htchildren hcheck _ htvalid.inner, hsame]
    cases hlive : (kickAll ch k δ).1.isLive <;> simp [stored, hlive]

namespace Valid

variable {t : LiveTree}

/-- No subtraction fails in a deep kick, by induction on the tree. -/
theorem kickAll?_eq (h : t.Valid) (ch : Channel) (δ : Delivery) :
    kickAll? ch t δ = some (kickAll ch t δ) := by
  induction h generalizing δ with
  | @intro t sorted bases heads live inner ih =>
    have h : t.Valid := .intro sorted bases heads live inner
    have hnone : t.dismiss.children = [] ++ t.children := rfl
    rw [kickAll?_unfold, h.dismiss?_eq, Option.bind_some,
      h.keeps_dismiss.valid.kickChildren?_eq hnone ih, kickAll_unfold]
    rfl

/-- No subtraction fails in a kick at one node. -/
theorem kickHere?_eq (h : t.Valid) (ch : Channel) (δ : Delivery) :
    kickHere? ch t δ = some (kickHere ch t δ) := by
  rw [kickHere?, h.dismiss?_eq]
  rfl

/-! ### runs -/

/-- **No action on a tree subtracts from less**, whatever the observers answer. -/
theorem perform?_eq (h : t.Valid) (ch : Channel) {a : Action} (ha : a.Reachable) :
    t.perform? ch a = some (t.perform ch a) := by
  cases a with
  | change path x =>
    have hx : x.Sound := Change.Reachable.sound ha
    exact h.editAt?_eq (fun k hk => hk.changeHere?_eq hx ch _) path
  | attach path o =>
    rw [perform?, h.editAt?_eq (f := LiveTree.welcome o) (fun _ _ => rfl) path]
    rfl
  | detach path o =>
    rw [perform?, perform, detach, h.editAt?_eq (f := drop o) (fun _ hk => hk.drop?_eq o) path]
    split <;> rfl
  | kick path deep =>
    have hkick : ∀ k : LiveTree, k.Valid →
        (if deep then kickAll? ch k .start else kickHere? ch k .start) =
          some (if deep then kickAll ch k .start else kickHere ch k .start) := by
      intro k hk
      rw [hk.kickAll?_eq, hk.kickHere?_eq]
      split <;> rfl
    rw [perform?, perform, kick, h.editAt?_eq hkick path]
    split <;> rfl

end Valid

/-- No run of a tree ever subtracts from less. -/
theorem Reachable.run {t : LiveTree} (h : t.Reachable) {actions : List (Channel × Action)}
    (hactions : ∀ a ∈ actions, a.2.Reachable) :
    t.run? actions = some (t.run actions) ∧ (t.run actions).Reachable := by
  have hstep (t : LiveTree) (a : Channel × Action) (ht : t.Reachable) (ha : a.2.Reachable) :
      (t.perform? a.1 a.2).map (·.1) = some (t.perform a.1 a.2).1 := by
    rw [ht.valid.perform?_eq a.1 ha]
    rfl
  exact Checked.foldlM_eq_some (fun _ a ht ha => ht.perform a.1 ha) hstep hactions h

end Intension.LiveTree
