import Intension.Proofs.Context.Equality
import Intension.Proofs.LiveTree.Snapshot

/-!
# Intension.Proofs.LiveTree.Content

What the total order sees of a live tree.  Its content keeps the empty shells
and its snapshot drops them; the order passes over shells on either side, so a
tree compares as its snapshot does (`Valid.compare_content_left`,
`Valid.compare_content_right`), and both carry the same bases.
-/

namespace Intension.LiveTree

open Context (cmp cmpChildren live)

theorem contents_eq (l : List (Dimension × LiveTree)) :
    contents l = l.map fun e => (e.1, e.2.content) := by
  induction l with
  | nil => rfl
  | cons e l ih =>
    obtain ⟨d, t⟩ := e
    rw [contents, ih, List.map_cons]

/-- The content of a tree: its base, the contents of all its children, and its count of bases. -/
theorem content_eq (t : LiveTree) : t.content = ⟨t.base, contents t.children, t.baseCount⟩ := by
  cases t
  rw [content]

@[simp] theorem base_content (t : LiveTree) : t.content.base = t.base := by rw [content_eq]

@[simp] theorem baseCount_content (t : LiveTree) : t.content.baseCount = t.baseCount := by
  rw [content_eq]

/-- The content is empty exactly if the tree holds no base. -/
@[simp] theorem isEmpty_content (t : LiveTree) : t.content.isEmpty = t.isEmpty := by
  rw [Context.isEmpty, baseCount_content, isEmpty]

theorem children_content (t : LiveTree) :
    t.content.children = t.children.map fun e => (e.1, e.2.content) := by
  rw [content_eq, contents_eq]

/-! ## nodes -/

/-- The content of a child is the child of the content. -/
theorem child?_content (t : LiveTree) (d : Dimension) :
    t.content.child? d = (t.child? d).map content := by
  rw [Context.child?, children_content, Keyed.get?_map_value]
  rfl

/-- The nodes of a content are the contents of the nodes. -/
theorem get?_content (t : LiveTree) (p : Path) : t.content.get? p = (t.get? p).map content := by
  induction p generalizing t with
  | nil => rfl
  | cons d p ih =>
    rw [Context.get?, child?_content, get?]
    cases t.child? d with
    | none => rfl
    | some k => exact ih k

/-! ## bases -/

/-- The same for a child that may not be there. -/
theorem along_content (t : LiveTree) (d : Dimension) :
    t.content.along d = (t.along d).content := by
  rw [Context.along, child?_content, along]
  cases t.child? d with
  | none => rw [Option.map_none, Option.getD_none, Option.getD_none]; rfl
  | some k => rfl

/-- The bases of a content are those of the tree, place by place. -/
theorem baseAt_content (t : LiveTree) (p : Path) : t.content.baseAt p = (t.nodeAt p).base := by
  induction p generalizing t with
  | nil => exact base_content t
  | cons d p ih => rw [Context.baseAt_cons, along_content, ih, nodeAt]

/-! ## the total order -/

/-- The children of a content that the order sees. -/
theorem live_children_content (t : LiveTree) : live t.content.children =
    (t.children.filter fun e => !e.2.isEmpty).map fun e => (e.1, e.2.content) := by
  rw [live, children_content, List.filter_map]
  congr 2
  funext e
  simp

/-- A snapshot shows the children that are not empty. -/
theorem select_shown_eq (l : List (Dimension × LiveTree)) : Keyed.select shown l =
    (l.filter fun e => !e.2.isEmpty).map fun e => (e.1, e.2.snapshot) := by
  induction l with
  | nil => rfl
  | cons e l ih =>
    rw [Keyed.select_cons, ih, shown, List.filter_cons]
    cases e.2.isEmpty <;> rfl

/-- Contents on the left: what is passed over there is not shown here. -/
theorem cmpChildren_contents {byCount : Ordering} {l : List (Dimension × LiveTree)}
    {m : List (Dimension × Context)} (hvalid : ∀ e ∈ l, e.2.Valid)
    (hl : ∀ e ∈ l, ∀ b, cmp e.2.content b = cmp e.2.snapshot b) :
    cmpChildren byCount (l.map fun e => (e.1, e.2.content)) m =
      cmpChildren byCount (Keyed.select shown l) m := by
  induction l generalizing m with
  | nil => rfl
  | cons e l ih =>
    obtain ⟨hvalide, hvalid⟩ := List.forall_mem_cons.1 hvalid
    obtain ⟨he, hl⟩ := List.forall_mem_cons.1 hl
    rw [List.map_cons, Keyed.select_cons, shown]
    cases hempty : e.2.isEmpty with
    | true =>
      rw [Context.cmpChildren_cons_of_isEmpty ((isEmpty_content _).trans hempty), ih hvalid hl]
      rfl
    | false =>
      have hcontent : e.2.content.isEmpty = false := (isEmpty_content _).trans hempty
      have hsnapshot : e.2.snapshot.isEmpty = false := hvalide.isEmpty_snapshot.trans hempty
      rw [if_neg Bool.false_ne_true, Option.elim_some]
      cases m with
      | nil => rw [Context.cmpChildren_cons_nil hcontent, Context.cmpChildren_cons_nil hsnapshot]
      | cons k m =>
        rw [Context.cmpChildren_cons_cons hcontent, Context.cmpChildren_cons_cons hsnapshot, he,
          ih hvalid hl]

/-- Contents on the right, without the shells. -/
theorem cmpChildren_map_content {byCount : Ordering} {l : List (Dimension × Context)}
    {m : List (Dimension × LiveTree)}
    (h : ∀ e ∈ l, ∀ k ∈ m, cmp e.2 k.2.content = cmp e.2 k.2.snapshot) :
    cmpChildren byCount l (m.map fun k => (k.1, k.2.content)) =
      cmpChildren byCount l (m.map fun k => (k.1, k.2.snapshot)) := by
  induction l generalizing m with
  | nil => cases m <;> rfl
  | cons e l ih =>
    obtain ⟨he, hl⟩ := List.forall_mem_cons.1 h
    cases hempty : e.2.isEmpty with
    | true =>
      rw [Context.cmpChildren_cons_of_isEmpty hempty, Context.cmpChildren_cons_of_isEmpty hempty,
        ih hl]
    | false =>
      cases m with
      | nil => rfl
      | cons k m =>
        rw [List.map_cons, List.map_cons, Context.cmpChildren_cons_cons hempty,
          Context.cmpChildren_cons_cons hempty, he k List.mem_cons_self,
          ih fun x hx y hy => hl x hx y (List.mem_cons_of_mem _ hy)]

namespace Valid

variable {t : LiveTree}

/-- The content has the bases of the snapshot. -/
theorem baseAt_content_eq (h : t.Valid) (p : Path) : t.content.baseAt p = t.snapshot.baseAt p := by
  rw [baseAt_content, h.baseAt_snapshot]

/-- **A tree compares to a context as its snapshot does.** -/
theorem compare_content_left (h : t.Valid) (b : Context) :
    compare t.content b = compare t.snapshot b := by
  show cmp t.content b = cmp t.snapshot b
  induction h generalizing b with
  | @intro t sorted bases heads alive inner ih =>
    have h : t.Valid := .intro sorted bases heads alive inner
    rw [Context.cmp_eq, Context.cmp_eq, base_content, base_snapshot, baseCount_content,
      h.baseCount_snapshot, children_content, children_snapshot, cmpChildren_contents inner ih]

/-- **A context compares to a tree as it does to the snapshot.** -/
theorem compare_content_right (h : t.Valid) (a : Context) :
    compare a t.content = compare a t.snapshot := by
  show cmp a t.content = cmp a t.snapshot
  induction a using Context.children_induction generalizing t with
  | step a ih =>
    have hkept : ∀ k ∈ t.children.filter (fun e => !e.2.isEmpty), k.2.Valid :=
      fun k hk => h.inner k (List.mem_filter.1 hk).1
    rw [Context.cmp_eq, Context.cmp_eq, base_content, base_snapshot, baseCount_content,
      h.baseCount_snapshot, Context.live_children h.snapshot, live_children_content,
      children_snapshot, select_shown_eq,
      cmpChildren_map_content fun e he k hk => ih e he (hkept k hk)]

end Valid

end Intension.LiveTree
