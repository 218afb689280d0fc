import Intension.LiveTree.Observing
import Intension.Proofs.Context.Equality
import Intension.Proofs.LiveTree.Changing
import Intension.Proofs.Path

/-!
# Intension.Proofs.LiveTree.Observing

What the coming and going of observers does to live trees.  A tree keeps what
it holds when observers go (`Keeps`), be it by detaching or by kicking, and the
observers that are left stand where they stood.
-/

namespace Intension.LiveTree

/-- The tree `t'` holds what `t` holds; of the observers of `t` some may be gone. -/
structure Keeps (t t' : LiveTree) : Prop where
  valid : t'.Valid
  base : ∀ q, (t'.nodeAt q).base = (t.nodeAt q).base
  observers : ∀ q, (t'.nodeAt q).observers.Sublist (t.nodeAt q).observers

/-- Trees with the same bases hold equal contexts. -/
theorem snapshot_beq {t t' : LiveTree} (h : t.Valid) (h' : t'.Valid)
    (hbase : ∀ q, (t'.nodeAt q).base = (t.nodeAt q).base) : t'.snapshot == t.snapshot := by
  rw [Context.beq_iff_baseAt h'.snapshot h.snapshot]
  intro q
  rw [h'.baseAt_snapshot, h.baseAt_snapshot, hbase]
  exact BEq.rfl

namespace Valid

variable {t : LiveTree}

theorem keeps_refl (h : t.Valid) : Keeps t t := ⟨h, fun _ => rfl, fun _ => .refl _⟩

/-- A step at a child that keeps the child keeps the tree. -/
theorem keeps_withChild {α : Type} {d : Dimension} {f : LiveTree → LiveTree × α} (h : t.Valid)
    (hf : Keeps (t.along d) (f (t.along d)).1) : Keeps t (t.withChild d f).1 where
  valid := h.withChild hf.valid
  base q := by
    cases q with
    | nil => rfl
    | cons e q =>
      rw [LiveTree.nodeAt, along_withChild hf.valid, LiveTree.nodeAt]
      split
      · next he => rw [hf.base, along_congr he]
      · rfl
  observers q := by
    cases q with
    | nil => exact .refl _
    | cons e q =>
      rw [LiveTree.nodeAt, along_withChild hf.valid, LiveTree.nodeAt]
      split
      · next he => rw [along_congr he]; exact hf.observers q
      · exact .refl _

/-- A step at the end of a path that keeps the node there keeps the tree. -/
theorem keeps_editAt {α : Type} {f : LiveTree → LiveTree × α}
    (hf : ∀ k : LiveTree, k.Valid → Keeps k (f k).1) (h : t.Valid) (p : Path) :
    Keeps t (t.editAt f p).1 := by
  induction p generalizing t with
  | nil => exact hf t h
  | cons d p ih => exact h.keeps_withChild (ih (h.along d))

end Valid

/-! ## coming -/

/-- The node with one more observer. -/
def welcome (o : Observer) (t : LiveTree) : LiveTree × Unit :=
  ({ t with observers := t.observers ++ [o], headCount := t.headCount + 1 }, ())

/-- Attaching is welcoming the observer at its node. -/
theorem attach_eq (p : Path) (o : Observer) (t : LiveTree) :
    t.attach p o = (t.editAt (welcome o) p).1 := rfl

/-- A node stays valid with one more observer. -/
theorem Valid.welcome {t : LiveTree} (h : t.Valid) (o : Observer) :
    (LiveTree.welcome o t).1.Valid := by
  have hheads := h.heads
  refine .intro h.sorted h.bases ?_ h.live h.inner
  simp only [LiveTree.welcome, List.length_append, List.length_singleton]
  omega

/-- A tree stays valid with one more observer. -/
theorem Valid.attach {t : LiveTree} (h : t.Valid) (p : Path) (o : Observer) :
    (t.attach p o).Valid := h.editAt (fun _ hk => hk.welcome o) p

/-- Attaching leaves all bases as they are. -/
theorem Valid.base_nodeAt_attach {t : LiveTree} (h : t.Valid) (p : Path) (o : Observer)
    (q : Path) : ((t.attach p o).nodeAt q).base = (t.nodeAt q).base := by
  rw [attach_eq, look_nodeAt_editAt LiveTree.base (fun _ _ _ => rfl) (fun _ hk => hk.welcome o) h]
  cases hr : Path.after? p q with
  | none => rfl
  | some r =>
    rw [nodeAt_of_after? hr]
    cases r <;> rfl

/-- A new observer stands last at its node. -/
theorem Valid.observers_nodeAt_attach {t : LiveTree} (h : t.Valid) (p : Path) (o : Observer)
    (q : Path) : ((t.attach p o).nodeAt q).observers =
      (t.nodeAt q).observers ++ if p == q then [o] else [] := by
  rw [attach_eq, look_nodeAt_editAt LiveTree.observers (fun _ _ _ => rfl)
    (fun _ hk => hk.welcome o) h]
  cases hr : Path.after? p q with
  | none =>
    rw [if_neg fun hpq => by rw [Path.after?_eq_some_nil_iff.2 hpq] at hr; cases hr]
    exact (List.append_nil _).symm
  | some r =>
    rw [nodeAt_of_after? hr]
    cases r with
    | nil =>
      rw [if_pos (Path.after?_eq_some_nil_iff.1 hr)]
      rfl
    | cons d r =>
      rw [if_neg fun hpq => by rw [Path.after?_eq_some_nil_iff.2 hpq] at hr; cases hr]
      exact (List.append_nil _).symm

/-! ## going -/

/-- Dropping an observer keeps the tree. -/
theorem Valid.keeps_drop {t : LiveTree} (h : t.Valid) (o : Observer) : Keeps t (t.drop o).1 := by
  rw [drop]
  split
  case isFalse => exact h.keeps_refl
  case isTrue hany =>
    have hheads := h.heads
    obtain ⟨x, hx, hxo⟩ := List.any_eq_true.1 hany
    have hlength : (t.observers.eraseP (·.id == o.id)).length = t.observers.length - 1 :=
      List.length_eraseP_of_mem hx hxo
    have hpos := List.length_pos_of_mem hx
    refine ⟨.intro h.sorted h.bases ?_ h.live h.inner, fun q => ?_, fun q => ?_⟩
    · dsimp only
      omega
    · cases q <;> rfl
    · cases q with
      | nil => exact List.eraseP_sublist
      | cons d q => exact .refl _

/-- Detaching an observer keeps the tree. -/
theorem Valid.keeps_detach {t : LiveTree} (h : t.Valid) (p : Path) (o : Observer) :
    Keeps t (t.detach p o).1 := by
  rw [detach]
  split
  · exact h.keeps_editAt (fun _ hk => hk.keeps_drop o) p
  · exact h.keeps_refl

/-- Dismissing the observers of a node keeps the tree. -/
theorem Valid.keeps_dismiss {t : LiveTree} (h : t.Valid) : Keeps t t.dismiss := by
  have hheads := h.heads
  refine ⟨.intro h.sorted h.bases ?_ h.live h.inner, fun q => ?_, fun q => ?_⟩
  · simp only [dismiss, List.length_nil]
    omega
  · cases q <;> rfl
  · cases q with
    | nil => exact List.nil_sublist _
    | cons d q => exact .refl _

/-- Kicking the children in turn: each is kicked, and those no longer live are gone. -/
theorem reworked_kickChildren {R : LiveTree → LiveTree → Prop} (ch : Channel)
    {l : List (Dimension × LiveTree)} (hkick : ∀ e ∈ l, ∀ δ, R e.2 (kickAll ch e.2 δ).1)
    (δ : Delivery) : Reworked (fun _ => R) l (kickChildren ch l δ).1 := by
  induction l generalizing δ with
  | nil => exact .nil
  | cons e l ih =>
    obtain ⟨d, k⟩ := e
    obtain ⟨hk, hkick⟩ := List.forall_mem_cons.1 hkick
    rw [kickChildren]
    dsimp only
    split
    · next hlive => exact .stays (hk δ) hlive (ih hkick _)
    · next hdead => exact .goes (hk δ) (Bool.eq_false_iff.2 hdead) (ih hkick _)

/-- Children that are kept, or gone for being dead, keep the tree. -/
theorem Valid.keeps_withChildren {t : LiveTree} (h : t.Valid) {l : List (Dimension × LiveTree)}
    (hl : Reworked (fun _ => Keeps) t.children l) : Keeps t (t.withChildren l) := by
  have hvalid : (t.withChildren l).Valid := by
    refine h.withChildren (hl.sorted h.sorted) (fun e he => (hl.of_mem he).1) fun e he => ?_
    obtain ⟨-, k, -, hk⟩ := hl.of_mem he
    exact hk.valid
  have hchild : ∀ d q, (((t.withChildren l).nodeAt (d :: q)).base = (t.nodeAt (d :: q)).base ∧
      ((t.withChildren l).nodeAt (d :: q)).observers.Sublist
        (t.nodeAt (d :: q)).observers) := by
    intro d q
    obtain ⟨-, -, -, hk⟩ | ⟨hnone, hnone'⟩ :=
      hl.getD_get? h.sorted (fun _ _ _ hk => hk.valid) d
    · exact ⟨hk.base q, hk.observers q⟩
    · have hgone : (t.withChildren l).along d = t.along d := by
        rw [LiveTree.along, LiveTree.along, child?, child?, hnone]
        exact congrArg (Option.getD · empty) hnone'
      rw [LiveTree.nodeAt, LiveTree.nodeAt, hgone]
      exact ⟨rfl, .refl _⟩
  refine ⟨hvalid, fun q => ?_, fun q => ?_⟩
  · cases q with
    | nil => rfl
    | cons d q => exact (hchild d q).1
  · cases q with
    | nil => exact .refl _
    | cons d q => exact (hchild d q).2

/-- Two steps in a row that keep the tree keep it. -/
theorem Keeps.trans {t t' t'' : LiveTree} (h : Keeps t t') (h' : Keeps t' t'') : Keeps t t'' where
  valid := h'.valid
  base q := (h'.base q).trans (h.base q)
  observers q := (h'.observers q).trans (h.observers q)

/-- A deep kick keeps the tree. -/
theorem Valid.keeps_kickAll {t : LiveTree} (h : t.Valid) (ch : Channel) (δ : Delivery) :
    Keeps t (kickAll ch t δ).1 := by
  induction h generalizing δ with
  | @intro t sorted bases heads live inner ih =>
    have h : t.Valid := .intro sorted bases heads live inner
    have hkicked := reworked_kickChildren ch ih (δ.announce ch t.observers .kick none)
    have hall := h.keeps_dismiss.trans (h.keeps_dismiss.valid.keeps_withChildren hkicked)
    cases t
    rw [kickAll]
    exact hall

/-- **Kicking observers leaves what the tree holds.** -/
theorem Valid.keeps_kick {t : LiveTree} (h : t.Valid) (ch : Channel) (p : Path) (deep : Bool) :
    Keeps t (t.kick ch p deep).1 := by
  rw [kick]
  split
  · refine h.keeps_editAt (fun k hk => ?_) p
    cases deep with
    | true => exact hk.keeps_kickAll ch .start
    | false => exact hk.keeps_dismiss
  · exact h.keeps_refl

end Intension.LiveTree
