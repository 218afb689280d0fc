import Intension.Proofs.LiveTree.Scripts
import Intension.Proofs.LiveTree.Telling
import Intension.Proofs.Reachable

/-!
# Intension.Proofs.LiveTree.Conversion

Trees all of whose observers take patches only (`LiveTree.PatchesOnly`).  Every
change is told to them as a patch, so they cannot tell an assignment or a clearing
from that patch; nor can anyone else, since the walks that carry them out do the
same at every node: they tell the same observers the same, put the same base,
clear the same children in the same order and go down to the same ones
(`LiveTree.Valid.assignHere_eq_applyHere`).
-/

namespace Intension

/-! ## announcements -/

/-- Only what each observer is told of an event matters to a delivery. -/
theorem Delivery.announce_congr {observers : List Observer} {e e' : Event}
    (h : ∀ o ∈ observers, e.toldTo o = e'.toldTo o) (ch : Channel) (path : Option Path)
    (δ : Delivery) : δ.announce ch observers e path = δ.announce ch observers e' path := by
  rw [announce_eq_post, announce_eq_post]
  refine congrArg (δ.post ch) (List.map_congr_left fun o ho => ?_)
  rw [h o ho]

/-- An observer that takes patches only is told the same of changes that are the same patch. -/
theorem Event.toldTo_change_eq {o : Observer} (ho : o.patchesOnly = true) {x y : Change}
    (hxy : x.toPatch = y.toPatch) : (change x).toldTo o = (change y).toldTo o := by
  rw [toldTo, toldTo, if_pos ho, if_pos ho, hxy]

namespace LiveTree

/-- Whoever watches a node of the tree takes patches only. -/
def PatchesOnly (t : LiveTree) : Prop := ∀ q, ∀ o ∈ (t.nodeAt q).observers, o.patchesOnly = true

/-- Nobody watches the empty tree. -/
theorem patchesOnly_empty : empty.PatchesOnly := by
  intro q o ho
  rw [nodeAt_empty] at ho
  cases ho

namespace PatchesOnly

variable {t t' : LiveTree} {x y : Change}

/-- Below a child, too, everybody takes patches only. -/
theorem along (h : t.PatchesOnly) (d : Dimension) : (t.along d).PatchesOnly := fun q => h (d :: q)

/-- Below any node, too, everybody takes patches only. -/
theorem nodeAt (h : t.PatchesOnly) (p : Path) : (t.nodeAt p).PatchesOnly := by
  induction p generalizing t with
  | nil => exact h
  | cons d p ih => exact ih (h.along d)

/-- A change of the content attaches nobody, so all still take patches only. -/
theorem carried {g : Context → Context} (h : t.PatchesOnly) (ht : Carries g t t') :
    t'.PatchesOnly := fun q o ho => h q o (ht.observers q ▸ ho)

/-- Attaching one more that takes patches only. -/
theorem attach (h : t.PatchesOnly) (ht : t.Valid) (p : Path) {o : Observer}
    (ho : o.patchesOnly = true) : (t.attach p o).PatchesOnly := by
  intro q o' ho'
  rw [ht.observers_nodeAt_attach, List.mem_append] at ho'
  obtain hold | hnew := ho'
  · exact h q o' hold
  · split at hnew
    · rwa [List.mem_singleton.1 hnew]
    · cases hnew

/-- Changes with the same patch are announced alike to those that take patches only. -/
theorem announce_eq (h : t.PatchesOnly) (hxy : x.toPatch = y.toPatch) (ch : Channel)
    (path : Option Path) (δ : Delivery) :
    δ.announce ch t.observers (.change x) path = δ.announce ch t.observers (.change y) path :=
  Delivery.announce_congr (fun o ho => Event.toldTo_change_eq (h [] o ho) hxy) ch path δ

/-- They are announced alike above a node, too. -/
theorem announceAbove_eq (h : t.PatchesOnly) (hxy : x.toPatch = y.toPatch) (ch : Channel)
    (path : Path) (δ : Delivery) :
    t.announceAbove ch path (.change x) δ = t.announceAbove ch path (.change y) δ := by
  induction path generalizing t with
  | nil => rfl
  | cons d path ih =>
    rw [announceAbove_cons, announceAbove_cons, ih (h.along d), h.announce_eq hxy]

end PatchesOnly

/-! ## one node -/

variable {t : LiveTree}

/-- To put a base it does not matter whether the old one was taken first. -/
theorem Valid.putBase_takeBase (h : t.Valid) (v : Scalar) :
    t.takeBase.putBase v = t.putBase v := by
  have hbases := h.bases
  obtain ⟨base, children, bases, heads, observers⟩ := t
  cases base with
  | none => rfl
  | some w =>
    have hcount : bases - 1 + 1 = bases := by
      simp only [Option.toList_some, List.length_singleton] at hbases
      omega
    exact congrArg (LiveTree.mk (some v) children · heads observers) hcount

/-- Applying the base of a context's patch is assigning this base. -/
theorem Valid.applyBase_ofContext (h : t.Valid) (c : Context) :
    applyBase (.ofContext c) t = assignBase c t := by
  rw [Patch.ofContext_eq]
  unfold applyBase assignBase
  cases hbase : c.base with
  | none => simp [Patch.node]
  | some v => simpa [Patch.node] using h.putBase_takeBase v

/-- Applying the head of a context's patch, forced or not, is assigning the head. -/
theorem Valid.applyHead_ofContext (h : t.Valid) (ch : Channel) (c : Context) (forced : Bool)
    (δ : Delivery) : applyHead ch (.ofContext c) forced t δ = assignHead ch c t δ := by
  have hclears : ((Patch.ofContext c).clearsDims || forced) = true := by
    rw [Patch.clearsDims_ofContext, Bool.true_or]
  rw [applyHead, if_pos hclears, h.applyBase_ofContext, assignHead]
  simp only [Patch.contains_ofContext]

/-- The patch of a context has the mark set already that a clearing region would set. -/
theorem shown_ofContext (c : Context) (forced : Bool) :
    (if forced then (Patch.ofContext c).setClearDimsAt [] else Patch.ofContext c) =
      Patch.ofContext c := by
  rw [Patch.ofContext_eq]
  cases forced <;> rfl

/-- Being told of a context's patch is being told of the context. -/
theorem PatchesOnly.tellPatch_ofContext (h : t.PatchesOnly) (ch : Channel) (c : Context)
    (forced : Bool) (δ : Delivery) :
    tellPatch ch (.ofContext c) forced t δ = tellAssign ch c t δ := by
  rw [tellPatch, shown_ofContext, tellAssign]
  exact h.announce_eq (x := .patch (.ofContext c)) (y := .assign c) rfl ch none δ

/-! ## whole trees -/

/-- Two walks are the same if they do the same to each of the listed children, so long as these
are watched by takers of patches only. -/
theorem Valid.inTurn_congr {α : Type} {f u : α → LiveTree → Delivery → LiveTree × Delivery}
    {g : α → Context → Context} {l : List (Dimension × α)}
    (hcarries : ∀ e ∈ l, ∀ k : LiveTree, k.Valid → ∀ δ, Carries (g e.2) k (f e.2 k δ).1)
    (hsame : ∀ e ∈ l, ∀ k : LiveTree, k.Valid → k.PatchesOnly → ∀ δ, f e.2 k δ = u e.2 k δ)
    (h : t.Valid) (hpatches : t.PatchesOnly) (δ : Delivery) :
    inTurn f l t δ = inTurn u l t δ := by
  induction l generalizing t δ with
  | nil => rfl
  | cons e l ih =>
    obtain ⟨hecarries, hcarries⟩ := List.forall_mem_cons.1 hcarries
    obtain ⟨hesame, hsame⟩ := List.forall_mem_cons.1 hsame
    have hchild := h.carries_withChild (f := fun k => f e.2 k δ) (hecarries _ (h.along e.1) δ)
    have hstep : (t.withChild e.1 fun k => f e.2 k δ) = t.withChild e.1 fun k => u e.2 k δ := by
      rw [withChild_eq, withChild_eq, hesame _ (h.along e.1) (hpatches.along e.1)]
    have hrest := ih hcarries hsame hchild.valid (hpatches.carried hchild)
      (t.withChild e.1 fun k => f e.2 k δ).2
    calc inTurn f (e :: l) t δ
        = inTurn u l (t.withChild e.1 fun k => f e.2 k δ).1
            (t.withChild e.1 fun k => f e.2 k δ).2 := hrest
      _ = inTurn u (e :: l) t δ := by rw [hstep]; rfl

/-- **Assigning a context is merging its patch**, in a clearing region and outside. -/
theorem Valid.assignHere_eq_applyHere {c : Context} (hc : c.Valid) (ch : Channel) (h : t.Valid)
    (hpatches : t.PatchesOnly) (forced : Bool) (δ : Delivery) :
    assignHere ch c t δ = applyHere ch (.ofContext c) forced t δ := by
  induction hc generalizing t forced δ with
  | @intro c sorted count nonempty inner ih =>
    have hbase := h.carries_assignBase c
    have hhead := hbase.trans (hbase.valid.carries_clearUnlisted ch (Keyed.contains · c.children)
      (tellAssign ch c t δ))
    rw [assignHere_eq, applyHere_eq, hpatches.tellPatch_ofContext, h.applyHead_ofContext,
      Patch.clearsDims_ofContext, Bool.true_or, Patch.children_ofContext, Patch.ofContexts_eq]
    refine (hhead.valid.inTurn_congr (g := fun c _ => c)
      (u := fun c k δ => applyHere ch (.ofContext c) true k δ)
      (fun e he k hk δ => hk.carries_assignHere (inner e he) ch δ)
      (fun e he k hk hkp δ => ih e he hk hkp true δ) (hpatches.carried hhead) _).trans ?_
    rw [inTurn, inTurn, List.foldl_map]
    rfl

/-- Clearing is merging `[---]`. -/
theorem PatchesOnly.clearHere_eq_applyHere (hpatches : t.PatchesOnly) (ch : Channel)
    (δ : Delivery) : clearHere ch t δ = applyHere ch .clearAll false t δ := by
  have htold : δ.announce ch t.observers (.change .clear) none =
      tellPatch ch .clearAll false t δ :=
    hpatches.announce_eq (x := .clear) (y := .patch .clearAll) rfl ch none δ
  rw [clearHere_eq, applyHere_eq, htold]
  rfl

/-- A change at a node and its patch have one outcome, tree and notices. -/
theorem Valid.changeHere_toPatch {x : Change} (hx : x.Sound) (ch : Channel) (h : t.Valid)
    (hpatches : t.PatchesOnly) (δ : Delivery) :
    changeHere ch x t δ = changeHere ch (.patch x.toPatch) t δ := by
  cases x with
  | patch p => rfl
  | assign c => exact h.assignHere_eq_applyHere hx ch hpatches false δ
  | clear => exact hpatches.clearHere_eq_applyHere ch δ

/-- Every change at the end of a path is a patch there: the tree and the delivery are the same. -/
theorem Valid.changeAt_toPatch {x : Change} (hx : x.Sound) (ch : Channel) (path : Path)
    (h : t.Valid) (hpatches : t.PatchesOnly) :
    t.changeAt ch path x = t.changeAt ch path (.patch x.toPatch) := by
  have habove : t.announceAbove ch path (.change x) .start =
      t.announceAbove ch path (.change (.patch x.toPatch)) .start :=
    hpatches.announceAbove_eq (x := x) (y := .patch x.toPatch) rfl ch path .start
  rw [changeAt, changeAt, editAt_eq, editAt_eq, habove,
    (h.nodeAt path).changeHere_toPatch hx ch (hpatches.nodeAt path)]

/-- **Assigning and clearing are patches** to observers that take nothing else: whatever they
answer, the notices, the tree and the refusal that the caller may get are those of the patch of
the context, and of `[---]`. -/
theorem changeAt_eq_patch (ht : t.Reachable) (hpatches : t.PatchesOnly) (ch : Channel)
    (path : Path) :
    (∀ c : Context, c.Reachable →
      t.changeAt ch path (.assign c) = t.changeAt ch path (.patch (.ofContext c))) ∧
    t.changeAt ch path .clear = t.changeAt ch path (.patch .clearAll) :=
  ⟨fun c hc => ht.valid.changeAt_toPatch (x := .assign c) hc.valid ch path hpatches,
    ht.valid.changeAt_toPatch (x := .clear) trivial ch path hpatches⟩

/-- Bases at `1:2:5` and `1:3`, and an observer that takes patches only at every node down to
them. -/
def patchesOnlyTree : LiveTree :=
  let content := Context.setBaseAt [.integer 2, .integer 5] .alpha
    (Context.setBaseAt [.integer 3] .omega .empty)
  [([], 0), ([.integer 1], 1), ([.integer 1, .integer 2], 2),
      ([.integer 1, .integer 2, .integer 5], 3), ([.integer 1, .integer 3], 4)].foldl
    (fun t e => t.attach e.1 ⟨e.2, true⟩)
    (empty.changeAt ⟨fun _ => none, none⟩ [.integer 1] (.assign content)).1

theorem patchesOnly_patchesOnlyTree :
    patchesOnlyTree.Reachable ∧ patchesOnlyTree.PatchesOnly := by
  have hcontent : (Context.setBaseAt [.integer 2, .integer 5] .alpha
      (Context.setBaseAt [.integer 3] .omega .empty)).Reachable :=
    (Context.Reachable.empty.setBaseAt _ _).setBaseAt _ _
  have hstart := Reachable.changeAt .empty ⟨fun _ => none, none⟩ [.integer 1] (.assign hcontent)
  have hpatches := patchesOnly_empty.carried
    (valid_empty.carries_changeAt (Change.Reachable.assign hcontent).sound
      ⟨fun _ => none, none⟩ [.integer 1])
  have hattach : ∀ l : List (Path × Nat), ∀ t : LiveTree, t.Reachable → t.PatchesOnly →
      (l.foldl (fun t e => t.attach e.1 ⟨e.2, true⟩) t).Reachable ∧
        (l.foldl (fun t e => t.attach e.1 ⟨e.2, true⟩) t).PatchesOnly := by
    intro l
    induction l with
    | nil => exact fun t ht hpatches => ⟨ht, hpatches⟩
    | cons e l ih =>
      exact fun t ht hpatches => ih _ (ht.attach e.1 _) (hpatches.attach ht.valid e.1 rfl)
  exact hattach _ _ hstart hpatches

/-- The context at `1` has a child at `2` only, so the node at `1:3` is cleared, as is the one at
`1:2:5`; of five notices the fourth is refused. -/
theorem changeAt_eq_patch_of_refusal :
    let ch : Channel := ⟨fun sent => if sent.length = 4 then some ⟨"full".toList⟩ else none, none⟩
    let c := Context.setBaseAt [.integer 2] .omega .empty
    patchesOnlyTree.changeAt ch [.integer 1] (.assign c) =
        patchesOnlyTree.changeAt ch [.integer 1] (.patch (.ofContext c)) ∧
      patchesOnlyTree.changeAt ch [.integer 1] .clear =
        patchesOnlyTree.changeAt ch [.integer 1] (.patch .clearAll) ∧
      (patchesOnlyTree.changeAt ch [.integer 1] (.assign c)).2.sent.map (·.observer.id) =
        [0, 1, 4, 2] := by
  intro ch c
  have hc : c.Reachable := Context.Reachable.empty.setBaseAt _ _
  obtain ⟨ht, hpatches⟩ := patchesOnly_patchesOnlyTree
  have heq := changeAt_eq_patch ht hpatches ch [.integer 1]
  exact ⟨heq.1 c hc, heq.2, by decide +kernel⟩

end LiveTree

end Intension
