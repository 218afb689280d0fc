import Intension.Proofs.Context.Counting
import Intension.Proofs.Context.Label
import Intension.Proofs.LiveTree.Attachments
import Intension.Proofs.Shells

/-!
# Intension.Proofs.LiveTree.Respelling

How the coming and going of observers shows in the text of a live tree.  What the
tree holds stays, but each child on the way down to an observer is taken out and
stored again under the dimension that leads to it now, and equal dimensions may be
spelled differently.  To the snapshot this is an edit that does nothing where it is
made (`Valid.snapshot_attach`), and it changes the text just if the path is spelled
differently from what is stored (`Valid.text_editAt_id_iff`).
-/

namespace Intension

/-! ## one term of many -/

namespace Text

/-- Joined terms around one of them. -/
theorem joinTerms_middle (before : List Text) (t : Text) (after : List Text) :
    joinTerms (before ++ t :: after) =
      before.flatMap (· ++ ['+']) ++ (t ++ after.flatMap ('+' :: ·)) := by
  induction before generalizing t with
  | cons u before ih =>
    rw [List.cons_append, joinTerms_cons (by simp), ih, List.flatMap_cons]
    simp
  | nil =>
    induction after generalizing t with
    | nil => simp [joinTerms]
    | cons u after ih =>
      have hone := ih u
      rw [List.nil_append] at hone ⊢
      rw [joinTerms_cons (List.cons_ne_nil _ _), hone, List.flatMap_cons]
      simp

/-- Joined terms are equal exactly if the one in which they differ is. -/
theorem joinTerms_middle_inj {before after : List Text} {t u : Text} :
    joinTerms (before ++ t :: after) = joinTerms (before ++ u :: after) ↔ t = u := by
  rw [joinTerms_middle, joinTerms_middle, List.append_cancel_left_eq, List.append_cancel_right_eq]

end Text

/-! ## contexts -/

namespace Context

/-- The path is spelled as the text of the context is, as far as it leads to nodes. -/
def Spells (c : Context) : Path → Prop
  | [] => True
  | d :: p => ∀ e ∈ c.children, d == e.1 → d.text = e.1.text ∧ e.2.Spells p

/-- Whether a path is spelled as the text of a context is. -/
def decideSpells (c : Context) : (p : Path) → Decidable (c.Spells p)
  | [] => isTrue trivial
  | d :: p =>
    have (k : Context) : Decidable (k.Spells p) := decideSpells k p
    inferInstanceAs (Decidable (∀ e ∈ c.children, d == e.1 → d.text = e.1.text ∧ e.2.Spells p))

instance (c : Context) (p : Path) : Decidable (c.Spells p) := c.decideSpells p

variable {c : Context}

/-- Where one child is exchanged for another the text stays just if it is the same for both. -/
theorem text_middle_iff {c' : Context} {d e : Dimension} {k k' : Context}
    {before after : List (Dimension × Context)} (hchildren : c.children = before ++ (e, k) :: after)
    (hchildren' : c'.children = before ++ (d, k') :: after) (hbase : c'.base = c.base) :
    c'.text = c.text ↔ d.text = e.text ∧ k'.text = k.text := by
  rw [text_eq, text_eq, hbase, hchildren, hchildren', angled, angled, List.cons_eq_cons,
    List.append_cancel_right_eq, List.map_append, List.map_append, List.map_cons, List.map_cons,
    ← List.append_assoc, ← List.append_assoc, Text.joinTerms_middle_inj]
  constructor
  · rintro ⟨-, heq⟩
    obtain ⟨-, htext⟩ := Dimension.beq_of_text_append heq
    rw [htext] at heq
    exact ⟨List.append_cancel_right heq, htext⟩
  · rintro ⟨hdim, htext⟩
    rw [hdim, htext]
    exact ⟨rfl, rfl⟩

/-! ### an edit to no effect -/

/-- Storing a node again leaves the count as it is. -/
theorem Valid.baseCount_editAt_id (h : c.Valid) (p : Path) :
    (c.editAt id p).baseCount = c.baseCount := by
  induction p generalizing c with
  | nil => rfl
  | cons d p ih =>
    have hcount : (c.editAt id (d :: p)).baseCount =
        c.baseCount - (c.along d).baseCount + ((c.along d).editAt id p).baseCount := rfl
    rw [hcount, ih (h.along d), Nat.sub_add_cancel (h.baseCount_along_le d)]

/-- Where no child is none comes to be. -/
theorem children_editAt_id_of_none {d : Dimension} (hnone : ∀ e ∈ c.children, (d == e.1) = false)
    (p : Path) : (c.editAt id (d :: p)).children = c.children := by
  have halong : c.along d = empty := by
    rw [along, child?, Keyed.get?_eq_none_iff.2 hnone]
    rfl
  have hstored : (empty.editAt id p).stored = none := by
    rw [stored, isEmpty, valid_empty.baseCount_editAt_id]
    rfl
  rw [editAt, children_withChild, halong, hstored]
  exact List.filter_eq_self.2 fun e he => by rw [hnone e he]; rfl

/-- A child on the way down is stored under the dimension that leads to it. -/
theorem Valid.children_editAt_id (h : c.Valid) {d e : Dimension} {k : Context}
    {before after : List (Dimension × Context)} (hchildren : c.children = before ++ (e, k) :: after)
    (hd : d == e) (p : Path) :
    (c.editAt id (d :: p)).children = before ++ (d, k.editAt id p) :: after := by
  have hmem : (e, k) ∈ c.children := by simp [hchildren]
  have halong : c.along d = k := by
    rw [Context.along, Context.child?, Keyed.get?_congr hd, h.sorted.get?_of_mem hmem]
    rfl
  have hstored : (k.editAt id p).stored = some (k.editAt id p) := by
    have hempty : (k.editAt id p).isEmpty = k.isEmpty := by
      rw [isEmpty, (h.inner _ hmem).baseCount_editAt_id, isEmpty]
    rw [stored, hempty, h.nonempty _ hmem]
    rfl
  have hsorted := h.sorted
  rw [hchildren] at hsorted
  rw [Context.editAt, children_withChild, halong, hstored, hchildren, hsorted.store_middle hd]
  simp

/-- **An edit that does nothing at the end of a path leaves the text just if the path is spelled as
it is there.** -/
theorem Valid.text_editAt_id_iff (h : c.Valid) (p : Path) :
    (c.editAt id p).text = c.text ↔ c.Spells p := by
  induction p generalizing c with
  | nil => exact iff_of_true rfl trivial
  | cons d p ih =>
    by_cases hnone : ∀ e ∈ c.children, (d == e.1) = false
    · refine iff_of_true ?_ fun e he hd => absurd hd (by rw [hnone e he]; exact Bool.false_ne_true)
      rw [text_eq, children_editAt_id_of_none hnone, text_eq c]
      rfl
    · obtain ⟨e, he, hd⟩ : ∃ e ∈ c.children, d == e.1 := by simpa using hnone
      obtain ⟨before, after, hchildren⟩ := List.append_of_mem he
      rw [text_middle_iff hchildren (h.children_editAt_id hchildren hd p) rfl, ih (h.inner e he),
        Spells, h.sorted.forall_beq_iff he hd]

end Context

/-! ## live trees -/

namespace LiveTree

variable {t : LiveTree}

/-- The snapshot depends on the base and the children only. -/
theorem snapshot_of_eq {t' : LiveTree} (hbase : t'.base = t.base)
    (hchildren : t'.children = t.children) : t'.snapshot = t.snapshot := by
  rw [snapshot_eq, snapshot_eq, hbase, hchildren]

/-- Trees with one snapshot are shown alike. -/
theorem Valid.shown_congr {t' : LiveTree} (h : t.Valid) (h' : t'.Valid)
    (heq : t'.snapshot = t.snapshot) : t'.shown = t.shown := by
  rw [shown, shown, ← h'.isEmpty_snapshot, ← h.isEmpty_snapshot, heq]

/-- One more observer does not show in the snapshot. -/
theorem snapshot_welcome (o : Observer) (t : LiveTree) :
    (welcome o t).1.snapshot = t.snapshot := snapshot_of_eq rfl rfl

/-- One observer less does not show in the snapshot. -/
theorem snapshot_drop (o : Observer) (t : LiveTree) : (t.drop o).1.snapshot = t.snapshot := by
  refine snapshot_of_eq ?_ (children_drop o t)
  rw [drop]
  split <;> rfl

/-- A deep kick does not show in the snapshot of its node. -/
theorem Valid.snapshot_kickAll (h : t.Valid) (ch : Channel) (δ : Delivery) :
    (kickAll ch t δ).1.snapshot = t.snapshot := by
  induction h generalizing δ with
  | @intro t sorted bases heads live inner ih =>
    have hkicked := reworked_kickChildren (R := fun k k' => k'.Valid ∧ k'.shown = k.shown) ch
      (fun e he δ =>
        have hvalid := ((inner e he).keeps_kickAll ch δ).valid
        ⟨hvalid, (inner e he).shown_congr hvalid (ih e he δ)⟩)
      (δ.announce ch t.observers .kick none)
    -- all children stay, but for some that are empty
    have hshown := @Reworked.select_shown _ _ _ hkicked (fun _ => true) fun _ _ _ hk => hk
    rw [List.filter_true] at hshown
    rw [kickAll_unfold, snapshot_eq, snapshot_eq t]
    exact congrArg (Context.node t.base) hshown

/-- A kick does not show in the snapshot of its node. -/
theorem Valid.snapshot_kickNode (h : t.Valid) (ch : Channel) (deep : Bool) :
    (LiveTree.kickNode ch deep t).1.snapshot = t.snapshot := by
  cases deep with
  | true => exact h.snapshot_kickAll ch .start
  | false => exact snapshot_of_eq rfl rfl

/-- In the snapshot, attaching is storing the node again under the keys of the path. -/
theorem Valid.snapshot_attach (h : t.Valid) (p : Path) (o : Observer) :
    (t.attach p o).snapshot = t.snapshot.editAt id p :=
  h.snapshot_editAt (fun k hk => ⟨hk.welcome o, snapshot_welcome o k⟩) p

/-- So is detaching, where a node stands. -/
theorem Valid.snapshot_detach (h : t.Valid) {k : LiveTree} {p : Path} (hk : t.get? p = some k)
    (o : Observer) : (t.detach p o).1.snapshot = t.snapshot.editAt id p := by
  rw [detach_of_some hk]
  exact h.snapshot_editAt (fun k hk => ⟨(hk.keeps_drop o).valid, snapshot_drop o k⟩) p

/-- So is kicking, where a node stands. -/
theorem Valid.snapshot_kick (h : t.Valid) {k : LiveTree} {p : Path} (hk : t.get? p = some k)
    (ch : Channel) (deep : Bool) : (t.kick ch p deep).1.snapshot = t.snapshot.editAt id p := by
  rw [kick_of_some hk]
  exact h.snapshot_editAt (fun k hk => ⟨hk.kickNode ch deep, hk.snapshot_kickNode ch deep⟩) p

/-! ## what is stored -/

/-- The dimensions of the path are those that are stored, quoted as they are, as far as the path
leads to nodes. -/
def Stores (t : LiveTree) : Path → Prop
  | [] => True
  | d :: p => ∀ e ∈ t.children, d == e.1 → e.1 = d ∧ e.2.Stores p

/-- New children leave a valid tree the same exactly if they are the old ones. -/
theorem Valid.withChildren_eq_self_iff (h : t.Valid) {l : List (Dimension × LiveTree)} :
    t.withChildren l = t ↔ l = t.children := by
  constructor
  · intro heq
    exact congrArg LiveTree.children heq
  · rintro rfl
    exact h.withChildren_children

/-- What is put back as it was is stored as it was just if the path is. -/
theorem Valid.editAt_eq_iff {α : Type} {f : LiveTree → LiveTree × α} {k : LiveTree} {p : Path}
    (h : t.Valid) (hk : t.get? p = some k) (hf : (f k).1 = k) :
    (t.editAt f p).1 = t ↔ t.Stores p := by
  induction p generalizing t with
  | nil =>
    obtain rfl : t = k := Option.some.inj hk
    exact iff_of_true hf trivial
  | cons d p ih =>
    rw [LiveTree.get?] at hk
    split at hk
    case h_2 => cases hk
    case h_1 child hchild =>
      obtain ⟨e, hd, hmem⟩ := Keyed.mem_of_get? hchild
      obtain ⟨before, after, hchildren⟩ := List.append_of_mem hmem
      have halong : t.along d = child := by
        rw [LiveTree.along, hchild]
        rfl
      have hrec := ih (h.inner _ hmem) hk
      have hsorted := h.sorted
      rw [hchildren] at hsorted
      have hstored : (t.editAt f (d :: p)).1 = t ↔
          (child.editAt f p).1.stored.map (d, ·) = some (e, child) := by
        rw [LiveTree.editAt, h.withChild_eq_withChildren, h.withChildren_eq_self_iff, halong,
          hchildren, hsorted.store_middle hd, List.append_assoc, List.append_cancel_left_eq]
        cases (child.editAt f p).1.stored <;> simp
      rw [hstored, Stores, h.sorted.forall_beq_iff hmem hd]
      constructor
      · intro heq
        obtain ⟨k', hk', hpair⟩ := Option.map_eq_some_iff.1 heq
        cases hpair
        exact ⟨rfl, hrec.1 (of_mem_stored hk').1.symm⟩
      · rintro ⟨rfl, hbelow⟩
        rw [hrec.2 hbelow, stored, if_pos (h.live _ hmem)]
        rfl

/-- An observer that is not found is not taken off. -/
theorem fst_drop_of_false {o : Observer} (h : (t.drop o).2 = false) : (t.drop o).1 = t := by
  rw [snd_drop] at h
  rw [drop, if_neg (Bool.eq_false_iff.1 h)]

/-! ## coming and going -/

/-- **The coming and going of observers leaves what is held, and leaves the text just if the path is
spelled as it is there**; detaching and kicking leave it also where the path leads to no node.  To
take off an observer that is not found leaves the whole tree as it is just if the dimensions of the
path are those that are stored. -/
theorem text_kept_iff (ht : t.Reachable) (path : Path) (o : Observer) (ch : Channel)
    (deep : Bool) :
    ((t.attach path o).snapshot == t.snapshot ∧ (t.detach path o).1.snapshot == t.snapshot ∧
      (t.kick ch path deep).1.snapshot == t.snapshot) ∧
    ((t.attach path o).text = t.text ↔ t.snapshot.Spells path) ∧
    ((t.detach path o).1.text = t.text ↔ t.get? path = none ∨ t.snapshot.Spells path) ∧
    ((t.kick ch path deep).1.text = t.text ↔ t.get? path = none ∨ t.snapshot.Spells path) ∧
    ((t.detach path o).2 = false →
      ((t.detach path o).1 = t ↔ t.get? path = none ∨ t.Stores path)) := by
  have h := ht.valid
  have htext {t' : LiveTree} (hsnapshot : t'.snapshot = t.snapshot.editAt id path) :
      t'.text = t.text ↔ t.snapshot.Spells path := by
    rw [← text_snapshot t', ← text_snapshot t, hsnapshot, h.snapshot.text_editAt_id_iff]
  have hdetach := h.keeps_detach path o
  have hkick := h.keeps_kick ch path deep
  refine ⟨⟨snapshot_beq h (h.attach path o) (h.base_nodeAt_attach path o),
    snapshot_beq h hdetach.valid hdetach.base, snapshot_beq h hkick.valid hkick.base⟩,
    htext (h.snapshot_attach path o), ?_⟩
  -- only attaching makes nodes that are not there
  cases hnode : t.get? path with
  | none =>
    rw [detach_of_none hnode, kick_of_none hnode]
    simp
  | some k =>
    refine ⟨?_, ?_, fun hnone => ?_⟩
    · simpa using htext (h.snapshot_detach hnode o)
    · simpa using htext (h.snapshot_kick hnode ch deep)
    · rw [detach_of_some hnode] at hnone ⊢
      rw [snd_editAt, nodeAt_eq_getD, hnode] at hnone
      simpa using h.editAt_eq_iff hnode (fst_drop_of_false hnone)

/-- A name that cannot stand bare, quoted in the path and not in the tree: the text stays, though
not what is stored. -/
theorem text_kept_iff_of_quoted_name :
    let calm : Channel := ⟨fun _ => none, none⟩
    let t := (empty.changeAt calm [.name ['9'] false] (.patch (.setBaseAt [] .alpha .noop))).1
    let path : Path := [.name ['9'] true]
    t.Reachable ∧ (t.attach path ⟨0, true⟩).text = t.text ∧
      (t.detach path ⟨0, true⟩).1.text = t.text ∧ (t.kick calm path true).1.text = t.text ∧
      (t.detach path ⟨0, true⟩).2 = false ∧ (t.detach path ⟨0, true⟩).1 ≠ t := by
  intro calm t path
  have ht : t.Reachable := .changeAt .empty calm _ (.patch (.setBaseAt .noop [] .alpha))
  obtain ⟨-, hattach, hdetach, hkick, hnotFound⟩ := text_kept_iff ht path ⟨0, true⟩ calm true
  have hspells : t.snapshot.Spells path := by decide
  have hfalse : (t.detach path ⟨0, true⟩).2 = false := by decide
  have hstores : ¬ (t.get? path = none ∨ t.Stores path) := by
    rintro (hnode | hstores)
    · cases hnode
    · obtain ⟨k, hmem⟩ : ∃ k, (.name ['9'] false, k) ∈ t.children := ⟨_, List.mem_cons_self⟩
      cases (hstores _ hmem rfl).1
  exact ⟨ht, hattach.2 hspells, hdetach.2 (.inr hspells), hkick.2 (.inr hspells), hfalse,
    fun heq => hstores ((hnotFound hfalse).1 heq)⟩

/-- A bare name in the tree, quoted in the path: an observer that is not found is not taken off, nor
is anyone kicked, and still the name is quoted from then on, as it is when an observer comes. -/
theorem text_respelled_by_observing :
    let calm : Channel := ⟨fun _ => none, none⟩
    let t := (empty.changeAt calm [.name ['a'] false] (.patch (.setBaseAt [] .alpha .noop))).1
    let path : Path := [.name ['a'] true]
    t.Reachable ∧ t.text = "<a:<~>>".toList ∧
      (t.attach path ⟨0, true⟩).text = "<\"a\":<~>>".toList ∧
      (t.detach path ⟨0, true⟩).2 = false ∧
      (t.detach path ⟨0, true⟩).1.text = "<\"a\":<~>>".toList ∧
      (t.kick calm path true).1.text = "<\"a\":<~>>".toList := by
  refine ⟨.changeAt .empty _ _ (.patch (.setBaseAt .noop [] .alpha)), ?_⟩
  decide

end LiveTree

end Intension
