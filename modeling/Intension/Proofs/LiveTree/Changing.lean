import Intension.LiveTree.Changing
import Intension.Proofs.Change
import Intension.Proofs.LiveTree.Snapshot

/-!
# Intension.Proofs.LiveTree.Changing

What changes do to live trees, whatever the observers answer.  A tree carries
out a function of contexts (`Carries`) if its snapshot becomes what the function
makes of it, while the tree keeps its shape and its observers stay where they
are.  Each step of a change carries out the step of the change of a context, so
each change carries out the change (`Valid.carries_changeAt`).
-/

namespace Intension.LiveTree

/-- The tree `t'` holds what `g` makes of what `t` holds, and has the observers of `t`. -/
structure Carries (g : Context → Context) (t t' : LiveTree) : Prop where
  valid : t'.Valid
  snapshot : t'.snapshot = g t.snapshot
  observers : ∀ q, (t'.nodeAt q).observers = (t.nodeAt q).observers

namespace Carries

variable {g g' : Context → Context} {t t' t'' : LiveTree}

/-- Two steps in a row make of the content what their edits make of it. -/
theorem trans (h : Carries g t t') (h' : Carries g' t' t'') :
    Carries (fun c => g' (g c)) t t'' where
  valid := h'.valid
  snapshot := by rw [h'.snapshot, h.snapshot]
  observers q := by rw [h'.observers, h.observers]

/-- Other functions that come to the same context will do as well. -/
theorem congr (h : Carries g t t') (hg : g' t.snapshot = g t.snapshot) : Carries g' t t' where
  valid := h.valid
  snapshot := h.snapshot.trans hg.symm
  observers := h.observers

end Carries

namespace Valid

variable {t : LiveTree}

/-- A tree left alone holds what it held. -/
theorem carries_id (h : t.Valid) : Carries id t t := ⟨h, rfl, fun _ => rfl⟩

/-- Setting the base of the root sets it in the content. -/
theorem carries_putBase (h : t.Valid) (v : Scalar) :
    Carries (Context.putBase v) t (t.putBase v) where
  valid := h.putBase v
  snapshot := h.snapshot_putBase v
  observers q := by cases q <;> rfl

/-- Clearing the base of the root clears it in the content. -/
theorem carries_takeBase (h : t.Valid) : Carries Context.takeBase t t.takeBase where
  valid := h.takeBase
  snapshot := h.snapshot_takeBase
  observers q := by cases q <;> rfl

/-- A step at a child is the edit of this child in the content. -/
theorem carries_withChild {α : Type} {d : Dimension} {f : LiveTree → LiveTree × α}
    {g : Context → Context} (h : t.Valid) (hf : Carries g (t.along d) (f (t.along d)).1) :
    Carries (Context.withChild d g) t (t.withChild d f).1 where
  valid := h.withChild hf.valid
  snapshot := h.snapshot_withChild hf.valid hf.snapshot
  observers q := by
    cases q with
    | nil => rfl
    | cons e q =>
      rw [LiveTree.nodeAt, along_withChild hf.valid, LiveTree.nodeAt]
      split
      · next he => rw [hf.observers, along_congr he]
      · rfl

/-- A step at the end of a path is the edit of this node in the content. -/
theorem carries_editAt {α : Type} {f : LiveTree → LiveTree × α} {g : Context → Context}
    (hf : ∀ k : LiveTree, k.Valid → Carries g k (f k).1) (h : t.Valid) (p : Path) :
    Carries (Context.editAt g p) t (t.editAt f p).1 := by
  induction p generalizing t with
  | nil => exact hf t h
  | cons d p ih => exact h.carries_withChild (ih (h.along d))

end Valid

/-! ## all children in turn -/

/-- Each child has become another as `R` says, and those that are no longer live are gone. -/
inductive Reworked (R : Dimension → LiveTree → LiveTree → Prop) :
    List (Dimension × LiveTree) → List (Dimension × LiveTree) → Prop
  | nil : Reworked R [] []
  | stays {d : Dimension} {k k' : LiveTree} {l l' : List (Dimension × LiveTree)}
      (hk : R d k k') (live : k'.isLive) (rest : Reworked R l l') :
      Reworked R ((d, k) :: l) ((d, k') :: l')
  | goes {d : Dimension} {k k' : LiveTree} {l l' : List (Dimension × LiveTree)}
      (hk : R d k k') (dead : k'.isLive = false) (rest : Reworked R l l') :
      Reworked R ((d, k) :: l) l'

namespace Reworked

variable {R : Dimension → LiveTree → LiveTree → Prop} {l l' : List (Dimension × LiveTree)}

/-- A child that is left is live and comes from a child with the same key. -/
theorem of_mem (h : Reworked R l l') {e : Dimension × LiveTree} (he : e ∈ l') :
    e.2.isLive ∧ ∃ k, (e.1, k) ∈ l ∧ R e.1 k e.2 := by
  induction h with
  | nil => cases he
  | stays hk live _ ih =>
    obtain rfl | he := List.mem_cons.1 he
    · exact ⟨live, _, List.mem_cons_self, hk⟩
    · obtain ⟨hlive, k, hmem, hR⟩ := ih he
      exact ⟨hlive, k, List.mem_cons_of_mem _ hmem, hR⟩
  | goes _ _ _ ih =>
    obtain ⟨hlive, k, hmem, hR⟩ := ih he
    exact ⟨hlive, k, List.mem_cons_of_mem _ hmem, hR⟩

/-- The keys of the children that are left stay in order. -/
theorem sorted (h : Reworked R l l') (hl : Keyed.Sorted l) : Keyed.Sorted l' := by
  induction h with
  | nil => exact hl
  | stays _ _ rest ih =>
    obtain ⟨hlt, hl⟩ := Keyed.sorted_cons.1 hl
    refine Keyed.sorted_cons.2 ⟨fun e he => ?_, ih hl⟩
    obtain ⟨-, k, hmem, -⟩ := rest.of_mem he
    exact hlt (e.1, k) hmem
  | goes _ _ _ ih => exact ih hl.tail

/-- Looked at along any dimension, a child that is gone is an empty one. -/
theorem getD_get? (h : Reworked R l l') (hl : Keyed.Sorted l)
    (hvalid : ∀ d k k', R d k k' → k'.Valid) (d : Dimension) :
    ((Keyed.get? d l).isSome ∧ ∃ e, d == e ∧
        R e ((Keyed.get? d l).getD empty) ((Keyed.get? d l').getD empty)) ∨
      (Keyed.get? d l = none ∧ Keyed.get? d l' = none) := by
  induction h with
  | nil => exact .inr ⟨rfl, rfl⟩
  | @stays e k k' l l' hk live rest ih =>
    rw [Keyed.get?_cons, Keyed.get?_cons]
    by_cases hd : d == e
    · rw [if_pos hd, if_pos hd]
      exact .inl ⟨rfl, e, hd, hk⟩
    · rw [if_neg hd, if_neg hd]
      exact ih hl.tail
  | @goes e k k' l l' hk dead rest ih =>
    rw [Keyed.get?_cons]
    by_cases hd : d == e
    · have hnone : Keyed.get? d l' = none := Keyed.get?_eq_none_of_beq hd fun x hx => by
        obtain ⟨-, y, hmem, -⟩ := rest.of_mem hx
        exact (Keyed.sorted_cons.1 hl).1 (x.1, y) hmem
      rw [if_pos hd, hnone]
      rw [(hvalid _ _ _ hk).eq_empty dead] at hk
      exact .inl ⟨rfl, e, hd, hk⟩
    · rw [if_neg hd]
      exact ih hl.tail

/-- The content of the children that are left is the content of those that are kept. -/
theorem select_shown (h : Reworked R l l') {keep : Dimension → Bool}
    (hR : ∀ d k k', R d k k' → k'.Valid ∧ k'.shown = if keep d then k.shown else none) :
    Keyed.select shown l' = (Keyed.select shown l).filter (keep ·.1) := by
  have hcons : ∀ (d : Dimension) (k k' : LiveTree) (l : List (Dimension × LiveTree)), R d k k' →
      (Keyed.select shown ((d, k) :: l)).filter (keep ·.1) =
        k'.shown.elim ((Keyed.select shown l).filter (keep ·.1)) fun c =>
          (d, c) :: (Keyed.select shown l).filter (keep ·.1) := by
    intro d k k' l hk
    rw [(hR d k k' hk).2, Keyed.select_cons]
    cases hkeep : keep d <;> cases k.shown <;> simp [hkeep]
  induction h with
  | nil => rfl
  | stays hk live _ ih =>
    rw [hcons _ _ _ _ hk, Keyed.select_cons, ih]
  | @goes _ _ k' _ _ hk dead _ ih =>
    have hnone : k'.shown = none := by
      rw [(hR _ _ _ hk).1.eq_empty dead]
      rfl
    rw [hcons _ _ _ _ hk, hnone, ih]
    rfl

end Reworked

/-! ## clearing -/

/-- What clearing does to one child. -/
def Cleared (listed : Dimension → Bool) (d : Dimension) (k k' : LiveTree) : Prop :=
  if k.isEmpty || listed d then k' = k ∧ k.Valid else Carries (fun _ => .empty) k k'

/-- A child is valid after a clearing. -/
theorem Cleared.valid {listed : Dimension → Bool} {d : Dimension} {k k' : LiveTree}
    (h : Cleared listed d k k') : k'.Valid := by
  rw [Cleared] at h
  split at h
  · rw [h.1]
    exact h.2
  · exact h.valid

/-- A clearing leaves the observers below a child as they are. -/
theorem Cleared.observers {listed : Dimension → Bool} {d : Dimension} {k k' : LiveTree}
    (h : Cleared listed d k k') (q : Path) : (k'.nodeAt q).observers = (k.nodeAt q).observers := by
  rw [Cleared] at h
  split at h
  · rw [h.1]
  · exact h.observers q

/-- A clearing leaves a child empty unless it is listed. -/
theorem Cleared.shown {listed : Dimension → Bool} {d : Dimension} {k k' : LiveTree}
    (h : Cleared listed d k k') : k'.shown = if listed d then k.shown else none := by
  rw [Cleared] at h
  split at h
  · next hcondition =>
    rw [h.1]
    cases hempty : k.isEmpty <;> simp_all [LiveTree.shown]
  · next hcondition =>
    have hempty : k'.isEmpty := by
      rw [← h.valid.isEmpty_snapshot, h.snapshot]
      rfl
    simp_all [LiveTree.shown]

/-- Clearing the children in turn: each is cleared unless it is listed, and those no longer live are
gone. -/
theorem reworked_clearChildren (ch : Channel) (listed : Dimension → Bool)
    {l : List (Dimension × LiveTree)} (hlive : ∀ e ∈ l, e.2.isLive)
    (hvalid : ∀ e ∈ l, e.2.Valid)
    (hclear : ∀ e ∈ l, ∀ δ, Carries (fun _ => .empty) e.2 (clearHere ch e.2 δ).1)
    (δ : Delivery) : Reworked (Cleared listed) l (clearChildren ch listed l δ).1 := by
  induction l generalizing δ with
  | nil => exact .nil
  | cons e l ih =>
    obtain ⟨d, k⟩ := e
    obtain ⟨hk, hlive⟩ := List.forall_mem_cons.1 hlive
    obtain ⟨hkvalid, hvalid⟩ := List.forall_mem_cons.1 hvalid
    obtain ⟨hkclear, hclear⟩ := List.forall_mem_cons.1 hclear
    have ih := ih hlive hvalid hclear
    rw [clearChildren]
    by_cases hkeep : k.isEmpty || listed d
    · rw [if_pos hkeep]
      refine .stays ?_ hk (ih δ)
      rw [Cleared, if_pos hkeep]
      exact ⟨rfl, hkvalid⟩
    · rw [if_neg hkeep]
      have hcleared : Cleared listed d k (clearHere ch k δ).1 := by
        rw [Cleared, if_neg hkeep]
        exact hkclear δ
      dsimp only
      split
      · next hstays => exact .stays hcleared hstays (ih _)
      · next hgoes => exact .goes hcleared (Bool.eq_false_iff.2 hgoes) (ih _)

/-- Clearing children that are not listed makes a choice among those of the snapshot. -/
theorem carries_withChildren_of_reworked {listed : Dimension → Bool} {t : LiveTree}
    (h : t.Valid) {l : List (Dimension × LiveTree)}
    (hl : Reworked (Cleared listed) t.children l) :
    Carries (Context.retain listed) t (t.withChildren l) := by
  have hvalid : (t.withChildren l).Valid := by
    refine h.withChildren (hl.sorted h.sorted) (fun e he => (hl.of_mem he).1) fun e he => ?_
    obtain ⟨-, k, -, hk⟩ := hl.of_mem he
    exact hk.valid
  refine ⟨hvalid, ?_, fun q => ?_⟩
  · refine hvalid.snapshot.ext (h.snapshot.retain listed) ?_ ?_
    · rw [base_snapshot, Context.base_retain, base_snapshot]
      rfl
    · rw [children_snapshot, Context.children_retain, children_snapshot]
      exact hl.select_shown fun d k k' hk => ⟨hk.valid, hk.shown⟩
  · cases q with
    | nil => rfl
    | cons d q =>
      rw [nodeAt, nodeAt, along, along, child?, child?]
      obtain ⟨-, e, -, hk⟩ | ⟨hnone, hnone'⟩ :=
        hl.getD_get? h.sorted (fun _ _ _ hk => hk.valid) d
      · exact hk.observers q
      · rw [hnone]
        rw [show Keyed.get? d (t.withChildren l).children = none from hnone']

/-- A clearing takes the base, tells the node and clears all children. -/
theorem clearHere_eq (ch : Channel) (t : LiveTree) (δ : Delivery) : clearHere ch t δ =
    t.takeBase.clearUnlisted ch (fun _ => false) (δ.announce ch t.observers (.change .clear) none) := by
  cases t
  rw [clearHere]
  rfl

/-- **Clearing leaves nothing but the observers.** -/
theorem Valid.carries_clearHere {t : LiveTree} (h : t.Valid) (ch : Channel) (δ : Delivery) :
    Carries (fun _ => .empty) t (clearHere ch t δ).1 := by
  induction h generalizing δ with
  | @intro t sorted bases heads live inner ih =>
    have h : t.Valid := .intro sorted bases heads live inner
    rw [clearHere_eq]
    have hretain := carries_withChildren_of_reworked h.takeBase
      (reworked_clearChildren ch (fun _ => false) live inner ih
        (δ.announce ch t.observers (.change .clear) none))
    refine (h.carries_takeBase.trans hretain).congr ?_
    refine (h.snapshot.takeBase.retain _).ext Context.valid_empty ?_ ?_ |>.symm
    · rw [Context.base_retain, Context.base_takeBase]
      rfl
    · rw [Context.children_retain, List.filter_false]
      rfl

/-- Clearing the children that are not listed keeps just the listed ones in the content. -/
theorem Valid.carries_clearUnlisted {t : LiveTree} (h : t.Valid) (ch : Channel)
    (listed : Dimension → Bool) (δ : Delivery) :
    Carries (Context.retain listed) t (t.clearUnlisted ch listed δ).1 :=
  carries_withChildren_of_reworked h
    (reworked_clearChildren ch listed h.live h.inner
      (fun e he δ => (h.inner e he).carries_clearHere ch δ) δ)

/-! ## listed children in turn

Patches and contexts alike change the children they list one after the other. -/

/-- The tree after each listed child was changed by `f`, and the notices of it. -/
def inTurn {α : Type} (f : α → LiveTree → Delivery → LiveTree × Delivery)
    (l : List (Dimension × α)) (t : LiveTree) (δ : Delivery) : LiveTree × Delivery :=
  l.foldl (fun s e => s.1.withChild e.1 fun k => f e.2 k s.2) (t, δ)

/-- Changing listed children in turn is editing them in turn in the content. -/
theorem Valid.carries_inTurn {α : Type} {f : α → LiveTree → Delivery → LiveTree × Delivery}
    {g : α → Context → Context} {l : List (Dimension × α)}
    (hf : ∀ e ∈ l, ∀ k : LiveTree, k.Valid → ∀ δ, Carries (g e.2) k (f e.2 k δ).1)
    {t : LiveTree} (h : t.Valid) (δ : Delivery) :
    Carries (fun c => l.foldl (fun c e => c.withChild e.1 (g e.2)) c) t (inTurn f l t δ).1 := by
  induction l generalizing t δ with
  | nil => exact h.carries_id
  | cons e l ih =>
    obtain ⟨he, hf⟩ := List.forall_mem_cons.1 hf
    have hchild := h.carries_withChild (f := fun k => f e.2 k δ) (he _ (h.along e.1) δ)
    exact hchild.trans (ih hf hchild.valid _)

/-! ## merging a patch -/

/-- The node with its base as a patch wants it. -/
def applyBase (p : Patch) (t : LiveTree) : LiveTree :=
  let t := if p.clearsBase then t.takeBase else t
  match p.base with
  | some v => t.putBase v
  | none => t

/-- The node after the head of a patch, its listed children still to be changed. -/
def applyHead (ch : Channel) (p : Patch) (forced : Bool) (t : LiveTree) (δ : Delivery) :
    LiveTree × Delivery :=
  if p.clearsDims || forced then
    (applyBase p t).clearUnlisted ch (Keyed.contains · p.children) δ
  else (t.applyBase p, δ)

/-- The delivery after a node has been told of a patch. -/
def tellPatch (ch : Channel) (p : Patch) (forced : Bool) (t : LiveTree) (δ : Delivery) :
    Delivery :=
  δ.announce ch t.observers (.change (.patch (if forced then p.setClearDimsAt [] else p))) none

/-- Applying the children of a patch is changing them in turn. -/
theorem applyChildren_eq (ch : Channel) (l : List (Dimension × Patch)) (clearing : Bool)
    (t : LiveTree) (δ : Delivery) : applyChildren ch l clearing t δ =
      inTurn (fun p k δ => applyHere ch p clearing k δ) l t δ := by
  induction l generalizing t δ with
  | nil => rfl
  | cons e l ih =>
    obtain ⟨d, p⟩ := e
    rw [applyChildren]
    exact ih _ _

/-- Applying a patch: its node is told, its head is carried out, and then its children in turn. -/
theorem applyHere_eq (ch : Channel) (p : Patch) (forced : Bool) (t : LiveTree) (δ : Delivery) :
    applyHere ch p forced t δ =
      inTurn (fun k t δ => applyHere ch k (p.clearsDims || forced) t δ) p.children
        (applyHead ch p forced t (tellPatch ch p forced t δ)).1
        (applyHead ch p forced t (tellPatch ch p forced t δ)).2 := by
  rw [← applyChildren_eq]
  cases p
  rw [applyHere.eq_def]
  rfl

theorem children_applyBase (p : Patch) (t : LiveTree) :
    (applyBase p t).children = t.children := by
  unfold applyBase
  cases p.base <;> cases p.clearsBase <;> rfl

/-- The base of a patch does to the tree what it does to the content. -/
theorem Valid.carries_applyBase {t : LiveTree} (h : t.Valid) (p : Patch) :
    Carries p.mergeBase t (applyBase p t) := by
  have hclear : Carries (fun c => if p.clearsBase then c.takeBase else c) t
      (if p.clearsBase then t.takeBase else t) := by
    split
    · exact h.carries_takeBase
    · exact h.carries_id
  unfold applyBase Patch.mergeBase
  cases p.base with
  | none => exact hclear
  | some v => exact hclear.trans (hclear.valid.carries_putBase v)

/-- The head of a patch does to the tree what it does to the content. -/
theorem Valid.carries_applyHead {t : LiveTree} (h : t.Valid) (ch : Channel) (p : Patch)
    (forced : Bool) (δ : Delivery) :
    Carries (p.mergeHead forced) t (applyHead ch p forced t δ).1 := by
  have hbase := h.carries_applyBase p
  unfold applyHead Patch.mergeHead
  cases p.clearsDims || forced with
  | false => exact hbase
  | true =>
    exact hbase.trans (hbase.valid.carries_clearUnlisted ch (Keyed.contains · p.children) δ)

/-- **A patch does to a tree what it does to the context the tree holds.** -/
theorem Valid.carries_applyHere {p : Patch} (hp : p.Ordered) (ch : Channel) (forced : Bool)
    {t : LiveTree} (h : t.Valid) (δ : Delivery) :
    Carries (p.mergeInto forced) t (applyHere ch p forced t δ).1 := by
  induction hp generalizing forced t δ with
  | @intro p _ _ ih =>
    have hhead := h.carries_applyHead ch p forced (tellPatch ch p forced t δ)
    rw [applyHere_eq]
    refine (hhead.trans (hhead.valid.carries_inTurn
      (g := fun k => k.mergeInto (p.clearsDims || forced))
      (fun e he k hk δ => ih e he _ hk δ) _)).congr ?_
    rw [Patch.mergeInto_eq, Patch.mergeChildren_eq]

/-! ## assigning a context -/

/-- The node with the base of a context. -/
def assignBase (c : Context) (t : LiveTree) : LiveTree :=
  match c.base with
  | some v => t.putBase v
  | none => t.takeBase

/-- The node with the base of a context and without the children that it does not have. -/
def assignHead (ch : Channel) (c : Context) (t : LiveTree) (δ : Delivery) :
    LiveTree × Delivery :=
  (assignBase c t).clearUnlisted ch (Keyed.contains · c.children) δ

theorem children_assignBase (c : Context) (t : LiveTree) :
    (assignBase c t).children = t.children := by
  unfold assignBase
  cases c.base <;> rfl

/-- The base of an assigned context replaces that of the content. -/
theorem Valid.carries_assignBase {t : LiveTree} (h : t.Valid) (c : Context) :
    Carries (fun x => .node c.base x.children) t (assignBase c t) := by
  have hvalid : (assignBase c t).Valid := by
    unfold assignBase
    cases c.base with
    | none => exact h.takeBase
    | some v => exact h.putBase v
  have hbase : (assignBase c t).base = c.base := by
    unfold assignBase
    cases c.base <;> rfl
  refine ⟨hvalid, ?_, fun q => ?_⟩
  · rw [snapshot_eq, hbase, children_assignBase, ← children_snapshot]
  · unfold assignBase
    cases c.base <;> cases q <;> rfl

/-- The delivery after a node has been told of a context. -/
def tellAssign (ch : Channel) (c : Context) (t : LiveTree) (δ : Delivery) : Delivery :=
  δ.announce ch t.observers (.change (.assign c)) none

/-- Assigning the children of a context is changing them in turn. -/
theorem assignChildren_eq (ch : Channel) (l : List (Dimension × Context)) (t : LiveTree)
    (δ : Delivery) : assignChildren ch l t δ = inTurn (assignHere ch) l t δ := by
  induction l generalizing t δ with
  | nil => rfl
  | cons e l ih =>
    obtain ⟨d, c⟩ := e
    rw [assignChildren]
    exact ih _ _

/-- Assigning a context: its node is told, the base and the unlisted children go, and then its
children in turn. -/
theorem assignHere_eq (ch : Channel) (c : Context) (t : LiveTree) (δ : Delivery) :
    assignHere ch c t δ =
      inTurn (assignHere ch) c.children (assignHead ch c t (tellAssign ch c t δ)).1
        (assignHead ch c t (tellAssign ch c t δ)).2 := by
  rw [← assignChildren_eq]
  cases c
  rw [assignHere.eq_def]
  rfl

/-- Children that are not empty, put in their places one by one, are stored as they are. -/
theorem children_foldl_withChild {l : List (Dimension × Context)}
    (hl : ∀ e ∈ l, e.2.isEmpty = false) (c : Context) :
    (l.foldl (fun c e => c.withChild e.1 fun _ => e.2) c).children =
      l.foldl (fun m e => Keyed.insert e.1 e.2 m) c.children := by
  induction l generalizing c with
  | nil => rfl
  | cons e l ih =>
    obtain ⟨he, hl⟩ := List.forall_mem_cons.1 hl
    rw [List.foldl_cons, List.foldl_cons, ih hl]
    have hstored : (c.withChild e.1 fun _ => e.2).children = Keyed.insert e.1 e.2 c.children :=
      if_neg (by rw [he]; exact Bool.false_ne_true)
    rw [hstored]

/-- Replacing children leaves the base of the node as it is. -/
theorem base_foldl_withChild (l : List (Dimension × Context)) (c : Context) :
    (l.foldl (fun c e => c.withChild e.1 fun _ => e.2) c).base = c.base := by
  induction l generalizing c with
  | nil => rfl
  | cons e l ih => rw [List.foldl_cons, ih, Context.base_withChild]

/-- **A tree that a context is assigned to holds that context.** -/
theorem Valid.carries_assignHere {c : Context} (hc : c.Valid) (ch : Channel) {t : LiveTree}
    (h : t.Valid) (δ : Delivery) : Carries (fun _ => c) t (assignHere ch c t δ).1 := by
  induction hc generalizing t δ with
  | @intro c sorted count nonempty inner ih =>
    have hc : c.Valid := .intro sorted count nonempty inner
    have hbase := h.carries_assignBase c
    have hhead := hbase.trans (hbase.valid.carries_clearUnlisted ch (Keyed.contains · c.children)
      (tellAssign ch c t δ))
    have hall := hhead.trans (hhead.valid.carries_inTurn (g := fun c _ => c)
      (fun e he k hk δ => ih e he hk δ) (assignHead ch c t (tellAssign ch c t δ)).2)
    rw [assignHere_eq]
    refine hall.congr (hc.ext (hall.snapshot ▸ hall.valid.snapshot) ?_ ?_)
    · rw [base_foldl_withChild, Context.base_retain]
      rfl
    · rw [children_foldl_withChild nonempty, Context.children_retain]
      exact (Keyed.foldl_insert_eq sorted (h.snapshot.sorted.filter _)
        fun e he => (List.mem_filter.1 he).2).symm

/-! ## a change at a path -/

/-- A change at a node does to the tree what it does to the content, and leaves all observers
attached. -/
theorem Valid.carries_changeHere {x : Change} (hx : x.Sound) (ch : Channel) {t : LiveTree}
    (h : t.Valid) (δ : Delivery) :
    Carries (Context.change x) t (changeHere ch x t δ).1 := by
  cases x with
  | patch p => exact h.carries_applyHere hx ch false δ
  | assign c => exact h.carries_assignHere hx ch δ
  | clear => exact h.carries_clearHere ch δ

/-- **A live tree changes as the context it holds does**, whatever the observers answer. -/
theorem Valid.carries_changeAt {x : Change} (hx : x.Sound) (ch : Channel) (path : Path)
    {t : LiveTree} (h : t.Valid) :
    Carries (Context.changeAt path x) t (changeAt ch path x t).1 :=
  h.carries_editAt (fun _ hk => hk.carries_changeHere hx ch _) path

end Intension.LiveTree
