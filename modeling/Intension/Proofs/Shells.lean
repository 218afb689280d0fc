import Intension.Proofs.Orders

/-!
# Intension.Proofs.Shells

Empty shells are not seen from outside.  A live tree keeps nodes that hold nothing, for
the sake of those who watch them; its two orders, on either side of a comparison, and its
text pass over them each in its own way, and each answers as it does for the snapshot,
which has no shells (`shells_unseen`).
-/

namespace Intension

/-! ## refinement -/

/-- Refinement asks of a child that holds a base that the other context matches it. -/
theorem Context.refinesChildren_cons (e : Dimension × Context) (l : List (Dimension × Context))
    (b : Context) : refinesChildren (e :: l) b =
      ((e.2.isEmpty || (b.child? e.1).any fun k => !k.isEmpty && refinesView e.2 k)
        && refinesChildren l b) := by
  obtain ⟨d, c⟩ := e
  rw [refinesChildren]
  cases b.child? d <;> rfl

namespace LiveTree

open Context (refinesView refinesChildren refinesView_eq refinesChildren_cons)

/-- A child shows in the snapshot unless it is a shell. -/
theorem Valid.child?_snapshot {t : LiveTree} (h : t.Valid) (d : Dimension) :
    t.snapshot.child? d = (t.child? d).bind shown := by
  rw [Context.child?, children_snapshot, Keyed.get?_select h.sorted]
  rfl

/-- Contents on the left: nothing is asked of those that are not shown. -/
theorem refinesChildren_contents {l : List (Dimension × LiveTree)} {b : Context}
    (hvalid : ∀ e ∈ l, e.2.Valid)
    (hl : ∀ e ∈ l, ∀ b, refinesView e.2.content b = refinesView e.2.snapshot b) :
    refinesChildren (l.map fun e => (e.1, e.2.content)) b =
      refinesChildren (Keyed.select shown l) b := by
  induction l with
  | nil => rfl
  | cons e l ih =>
    obtain ⟨hvalide, hvalid⟩ := List.forall_mem_cons.1 hvalid
    obtain ⟨he, hl⟩ := List.forall_mem_cons.1 hl
    rw [List.map_cons, refinesChildren_cons, isEmpty_content, Keyed.select_cons, shown,
      ih hvalid hl]
    cases hempty : e.2.isEmpty with
    | true => rfl
    | false =>
      rw [if_neg Bool.false_ne_true, Option.elim_some, refinesChildren_cons,
        hvalide.isEmpty_snapshot, hempty]
      simp only [he]

/-- A content on the right: it matches nothing by a child that is not shown. -/
theorem Valid.refinesChildren_content {l : List (Dimension × Context)} {t : LiveTree}
    (h : t.Valid)
    (hl : ∀ e ∈ l, ∀ k : LiveTree, k.Valid →
      refinesView e.2 k.content = refinesView e.2 k.snapshot) :
    refinesChildren l t.content = refinesChildren l t.snapshot := by
  induction l with
  | nil => rfl
  | cons e l ih =>
    obtain ⟨he, hl⟩ := List.forall_mem_cons.1 hl
    rw [refinesChildren_cons, refinesChildren_cons, child?_content, h.child?_snapshot, ih hl]
    cases hk : t.child? e.1 with
    | none => rfl
    | some k =>
      obtain ⟨d, -, hmem⟩ := Keyed.mem_of_get? hk
      have hvalid : k.Valid := h.inner _ hmem
      rw [Option.map_some, Option.bind_some, shown, Option.any_some, isEmpty_content]
      cases hempty : k.isEmpty with
      | true => rfl
      | false =>
        rw [if_neg Bool.false_ne_true, Option.any_some, hvalid.isEmpty_snapshot, hempty,
          he k hvalid]

namespace Valid

variable {t : LiveTree}

/-- **A tree refines to a context just if its snapshot does.** -/
theorem refinesView_content_left (h : t.Valid) (b : Context) :
    refinesView t.content b = refinesView t.snapshot b := by
  induction h generalizing b with
  | @intro t sorted bases heads alive inner ih =>
    have h : t.Valid := .intro sorted bases heads alive inner
    rw [refinesView_eq, refinesView_eq, base_content, base_snapshot, baseCount_content,
      h.baseCount_snapshot, children_content, children_snapshot,
      refinesChildren_contents inner ih]

/-- **A context refines to a tree just if it does to the snapshot.** -/
theorem refinesView_content_right (h : t.Valid) (a : Context) :
    refinesView a t.content = refinesView a t.snapshot := by
  induction a using Context.children_induction generalizing t with
  | step a ih =>
    rw [refinesView_eq, refinesView_eq, base_content, base_snapshot, isEmpty_content,
      h.isEmpty_snapshot, h.refinesChildren_content fun e he k hk => ih e he hk]

end Valid

/-! ## text -/

mutual

/-- A tree is written as its snapshot. -/
theorem text_snapshot : ∀ t : LiveTree, t.snapshot.text = t.text
  | ⟨base, children, _, _, _⟩ => by
    rw [snapshot, Context.node, Context.text, text, childTerms_snapshots children]

/-- The terms of the children that show are those of all children, by induction on the list. -/
theorem childTerms_snapshots : ∀ l : List (Dimension × LiveTree),
    Context.childTerms (snapshots l) = childTerms l
  | [] => rfl
  | (d, t) :: rest => by
    rw [snapshots, childTerms]
    split
    · exact childTerms_snapshots rest
    · rw [Context.childTerms, text_snapshot t, childTerms_snapshots rest]

end

/-! ## all that is seen -/

/-- **Shells are not seen.**  Each node of a live tree compares to any other context, or to the
content of another tree, as its snapshot does, on either side and in both orders, also where
contexts take the short cut by equality; and it is written as its snapshot. -/
theorem shells_unseen {t k : LiveTree} (ht : t.Reachable) {path : Path} (hk : t.get? path = some k)
    (x : Context) :
    compare k.content x = compare k.snapshot x ∧
    compare x k.content = compare x k.snapshot ∧
    refinesView k.content x = refinesView k.snapshot x ∧
    refinesView x k.content = refinesView x k.snapshot ∧
    (x.Reachable → k.snapshot.refines x = refinesView k.content x ∧
      x.refines k.snapshot = refinesView x k.content) ∧
    k.text = k.snapshot.text := by
  have hvalid : k.Valid := ht.valid.get? hk
  refine ⟨hvalid.compare_content_left x, hvalid.compare_content_right x,
    hvalid.refinesView_content_left x, hvalid.refinesView_content_right x, fun hx => ?_,
    (text_snapshot k).symm⟩
  rw [hvalid.refinesView_content_left, hvalid.refinesView_content_right]
  exact ⟨Context.refines_eq_refinesView hvalid.snapshot hx.valid,
    Context.refines_eq_refinesView hx.valid hvalid.snapshot⟩

/-- One tree has shells at `1` and at `3:4` and a base between them, the other one a shell below a
base that this one refines to. -/
theorem shells_unseen_on_both_sides :
    let calm : Channel := ⟨fun _ => none, none⟩
    let t := (((empty.attach [.integer 1] ⟨0, true⟩).attach [.integer 3, .integer 4]
      ⟨1, true⟩).changeAt calm [] (.patch (.setBaseAt [.integer 2] .alpha .noop))).1
    let u := ((empty.attach [.integer 2, .integer 5] ⟨0, true⟩).changeAt calm []
      (.patch (.setBaseAt [.integer 2] .omega .noop))).1
    (t.children.length, t.snapshot.children.length) = (3, 1) ∧
      compare t.content u.content = .lt ∧ compare u.content t.content = .gt ∧
      refinesView t.content u.content = true ∧ refinesView u.content t.content = false ∧
      t.text = "<2:<~>>".toList := by
  intro calm t u
  have ht : t.Reachable := .changeAt (.attach (.attach .empty _ _) _ _) _ _
    (.patch (.setBaseAt .noop _ _))
  have hroot : t.get? [] = some t := rfl
  obtain ⟨hleft, hright, hrefines, hrefined, -, htext⟩ := shells_unseen ht hroot u.content
  exact ⟨rfl, hleft.trans (by decide +kernel), hright.trans (by decide +kernel),
    hrefines.trans (by decide +kernel), hrefined.trans (by decide +kernel),
    htext.trans (by decide +kernel)⟩

end LiveTree

end Intension
