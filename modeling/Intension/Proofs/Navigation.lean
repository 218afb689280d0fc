import Intension.Context.Navigation
import Intension.LiveTree.Observing
import Intension.Proofs.LiveTree.Content
import Intension.Proofs.Path

/-!
# Intension.Proofs.Navigation

Walking about in trees.  A handle that was taken from a tree and moved along its
edges holds the node that its path leads to (`Reachable.sound`); so the nodes of
one tree stand to each other as their paths do, and the deepest node above two
others is the one at the end of their common front (`navigation_sound`).
-/

namespace Intension

/-! ## nodes in turn -/

/-- A node is found from any node on the way to it. -/
theorem Context.get?_of_after? {p q r : Path} (h : Path.after? p q = some r) (c : Context) :
    c.get? q = (c.get? p).bind (·.get? r) := by
  induction p generalizing q c with
  | nil =>
    obtain rfl : q = r := Option.some.inj h
    rfl
  | cons d p ih =>
    cases q with
    | nil => cases h
    | cons e q =>
      rw [Path.after?_cons] at h
      split at h
      · next hde =>
        rw [Context.get?, Context.get?, child?, child?, Keyed.get?_congr hde]
        cases Keyed.get? e c.children with
        | none => rfl
        | some k => exact ih h k
      · cases h

/-- A node is found from any node on the way to it. -/
theorem LiveTree.get?_of_after? {p q r : Path} (h : Path.after? p q = some r) (t : LiveTree) :
    t.get? q = (t.get? p).bind (·.get? r) := by
  induction p generalizing q t with
  | nil =>
    obtain rfl : q = r := Option.some.inj h
    rfl
  | cons d p ih =>
    cases q with
    | nil => cases h
    | cons e q =>
      rw [Path.after?_cons] at h
      split at h
      · next hde =>
        rw [LiveTree.get?, LiveTree.get?, child?, child?, Keyed.get?_congr hde]
        cases Keyed.get? e t.children with
        | none => rfl
        | some k => exact ih h k
      · cases h

/-- All that lies on the way to a node is there. -/
theorem Context.exists_get?_of_leads {p q : Path} (h : Path.leads p q) {c k : Context}
    (hk : c.get? q = some k) : ∃ j, c.get? p = some j := by
  rw [Path.leads_eq_isSome_after?] at h
  obtain ⟨r, hr⟩ := Option.isSome_iff_exists.1 h
  rw [get?_of_after? hr] at hk
  obtain ⟨j, hj, -⟩ := Option.bind_eq_some_iff.1 hk
  exact ⟨j, hj⟩

namespace Handle

/-! ## handles that can be had -/

/-- The tree of a number, where `forest` tells which trees there are. -/
abbrev planted (forest : Nat → Context) (id : Nat) : Tree := ⟨id, forest id⟩

/-- The handles on the nodes of some trees: taken at a path, or from another handle. -/
inductive Reachable (forest : Nat → Context) : Handle → Prop
  | at? {id : Nat} {p : Path} {h : Handle} (hh : Handle.at? (planted forest id) p = some h) :
      Reachable forest h
  | root {h : Handle} (hh : Reachable forest h) : Reachable forest h.root
  | parent? {h k : Handle} (hh : Reachable forest h) (hk : h.parent? = some k) :
      Reachable forest k
  | child? {h k : Handle} (hh : Reachable forest h) {d : Dimension} (hk : h.child? d = some k) :
      Reachable forest k
  | commonRoot {h k r : Handle} (hh : Reachable forest h) (hk : Reachable forest k)
      (hr : h.commonRoot k = .ok r) : Reachable forest r

/-- The handle is on a tree that there is, and holds the node its path leads to. -/
structure Sound (forest : Nat → Context) (h : Handle) : Prop where
  tree : h.tree = planted forest h.tree.id
  node : h.tree.root.get? h.path = some h.node

variable {forest : Nat → Context} {h k m : Handle}

/-- The handle at a path is the one of the node that is stored there. -/
theorem at?_eq_some_iff {t : Tree} {p : Path} :
    at? t p = some h ↔ h.tree = t ∧ h.path = p ∧ t.root.get? p = some h.node := by
  obtain ⟨tree, path, node⟩ := h
  rw [at?, Option.map_eq_some_iff]
  constructor
  · rintro ⟨c, hc, heq⟩
    cases heq
    exact ⟨rfl, rfl, hc⟩
  · rintro ⟨rfl, rfl, hc⟩
    exact ⟨node, hc, rfl⟩

/-- Two handles of a tree have the node at their common path as common root. -/
theorem commonRoot_of_sameTree (hhk : h.sameTree k) {r : Handle}
    (hr : at? h.tree (h.path.common k.path) = some r) : h.commonRoot k = .ok r := by
  rw [commonRoot, if_pos hhk, hr]

/-- A common root is the node at the common path. -/
theorem at?_of_commonRoot {r : Handle} (hr : h.commonRoot k = .ok r) :
    at? h.tree (h.path.common k.path) = some r := by
  rw [commonRoot] at hr
  split at hr
  · split at hr
    · next hat =>
      cases hr
      exact hat
    · cases hr
  · cases hr

/-- Taking a handle at another path of the same tree leaves it sound. -/
theorem Sound.at? (hh : h.Sound forest) {p : Path} (hk : Handle.at? h.tree p = some k) :
    k.Sound forest := by
  obtain ⟨htree, rfl, hnode⟩ := at?_eq_some_iff.1 hk
  exact ⟨htree ▸ hh.tree, htree ▸ hnode⟩

/-- A handle of a child is as sound as that of its parent. -/
theorem Sound.child? (hh : h.Sound forest) {d : Dimension} (hk : h.child? d = some k) :
    k.Sound forest := by
  obtain ⟨c, hc, rfl⟩ := Option.map_eq_some_iff.1 hk
  refine ⟨hh.tree, ?_⟩
  have hafter : Path.after? h.path (h.path ++ [d]) = some [d] :=
    Path.after?_append_of_some (Path.after?_eq_some_nil_iff.2 BEq.rfl) [d]
  rw [Context.get?_of_after? hafter, hh.node, Option.bind_some, Context.get?, hc]
  rfl

/-- **Every handle holds the node that its path leads to.** -/
theorem Reachable.sound (hh : h.Reachable forest) : h.Sound forest := by
  induction hh with
  | at? hh =>
    obtain ⟨htree, rfl, hnode⟩ := at?_eq_some_iff.1 hh
    exact ⟨by rw [htree], htree ▸ hnode⟩
  | root _ ih => exact ⟨ih.tree, rfl⟩
  | parent? _ hk ih =>
    obtain ⟨p, -, hp⟩ := Option.bind_eq_some_iff.1 hk
    exact ih.at? hp
  | child? _ hk ih => exact ih.child? hk
  | commonRoot _ _ hr ih _ => exact ih.at? (at?_of_commonRoot hr)

/-- Handles on one tree, told by its number, see the same nodes. -/
theorem Sound.tree_eq (hh : h.Sound forest) (hk : k.Sound forest) (hhk : h.sameTree k) :
    h.tree = k.tree := by
  rw [hh.tree, hk.tree, eq_of_beq hhk]

/-! ## above and below -/

/-- The handles are on the same node. -/
def IsSame (h k : Handle) : Prop := h.sameTree k ∧ h.path == k.path

/-- The first node is the second one or an ancestor of it. -/
def AtOrAbove (h k : Handle) : Prop := h.IsSame k ∨ h.isAncestor k

/-- A handle is an ancestor exactly of those of its tree whose paths are longer and led to by its
own. -/
theorem isAncestor_iff : h.isAncestor k ↔
    h.sameTree k ∧ h.path.length < k.path.length ∧ h.path.leads k.path := by
  rw [isAncestor, Bool.and_eq_true, Bool.and_eq_true, decide_eq_true_iff, and_assoc]

/-- A node is at or above those that its path leads to. -/
theorem atOrAbove_iff : h.AtOrAbove k ↔ h.sameTree k ∧ h.path.leads k.path := by
  constructor
  · rintro (⟨htree, hpath⟩ | habove)
    · exact ⟨htree, Path.leads_of_beq hpath⟩
    · obtain ⟨htree, -, hleads⟩ := isAncestor_iff.1 habove
      exact ⟨htree, hleads⟩
  · rintro ⟨htree, hleads⟩
    obtain hlt | hge := Nat.lt_or_ge h.path.length k.path.length
    · exact .inr (isAncestor_iff.2 ⟨htree, hlt, hleads⟩)
    · exact .inl ⟨htree, Path.beq_of_leads_of_length_le hleads hge⟩

theorem sameTree_trans (hhk : h.sameTree k) (hkm : k.sameTree m) : h.sameTree m :=
  BEq.trans (α := Nat) hhk hkm

/-- No node is its own ancestor. -/
theorem isAncestor_irrefl (h : Handle) : ¬ h.isAncestor h := by
  intro hself
  obtain ⟨-, hlt, -⟩ := isAncestor_iff.1 hself
  exact Nat.lt_irrefl _ hlt

theorem isAncestor_asymm (hhk : h.isAncestor k) : ¬ k.isAncestor h := by
  intro hkh
  obtain ⟨-, hlt, -⟩ := isAncestor_iff.1 hhk
  obtain ⟨-, hgt, -⟩ := isAncestor_iff.1 hkh
  exact Nat.lt_asymm hlt hgt

theorem isAncestor_trans (hhk : h.isAncestor k) (hkm : k.isAncestor m) : h.isAncestor m := by
  obtain ⟨htree, hlt, hleads⟩ := isAncestor_iff.1 hhk
  obtain ⟨htree', hlt', hleads'⟩ := isAncestor_iff.1 hkm
  exact isAncestor_iff.2
    ⟨sameTree_trans htree htree', Nat.lt_trans hlt hlt', Path.leads_trans hleads hleads'⟩

/-! ## the common root -/

/-- Below one root there always is a common node above, the node at the end of the common
front. -/
theorem Sound.exists_commonRoot (hh : h.Sound forest) (hhk : h.sameTree k) :
    ∃ r, h.commonRoot k = .ok r ∧ r.tree = h.tree ∧ r.path = h.path.common k.path := by
  obtain ⟨c, hc⟩ := Context.exists_get?_of_leads (Path.common_leads_left h.path k.path) hh.node
  have hat : Handle.at? h.tree (h.path.common k.path) = some ⟨h.tree, _, c⟩ :=
    at?_eq_some_iff.2 ⟨rfl, rfl, hc⟩
  exact ⟨_, commonRoot_of_sameTree hhk hat, rfl, rfl⟩

/-- The node at the end of the common front is the deepest one above both. -/
theorem least_of_common {r : Handle} (hhk : h.sameTree k) (htree : r.tree = h.tree)
    (hpath : r.path = h.path.common k.path) :
    r.AtOrAbove h ∧ r.AtOrAbove k ∧
      ∀ m : Handle, m.AtOrAbove h → m.AtOrAbove k → m.AtOrAbove r := by
  have hrh : r.sameTree h := by rw [sameTree, htree, BEq.rfl]
  have hhr : h.sameTree r := BEq.symm hrh
  simp only [atOrAbove_iff, hpath]
  refine ⟨⟨hrh, Path.common_leads_left _ _⟩, ⟨sameTree_trans hrh hhk, Path.common_leads_right _ _⟩,
    ?_⟩
  rintro m ⟨hmh, hleads⟩ ⟨-, hleads'⟩
  exact ⟨sameTree_trans hmh hhr, Path.leads_common hleads hleads'⟩

/-! ## the path between two nodes -/

/-- There is a path down to the nodes at and below. -/
theorem exists_pathTo_iff (hhk : h.sameTree k) : (∃ p, h.pathTo k = .ok p) ↔ h.AtOrAbove k := by
  rw [atOrAbove_iff, and_iff_right hhk, Path.leads_eq_isSome_after?, pathTo, if_pos hhk]
  cases Path.after? h.path k.path <;> simp

/-- The path to a handle is what is left of its path. -/
theorem after?_of_pathTo {p : Path} (hp : h.pathTo k = .ok p) :
    Path.after? h.path k.path = some p := by
  rw [pathTo] at hp
  split at hp
  · split at hp
    · next hafter =>
      cases hp
      exact hafter
    · cases hp
  · cases hp

/-- The path down leads from the one node to the other, and its end is the other's path. -/
theorem Sound.pathTo (hh : h.Sound forest) (hk : k.Sound forest) (hhk : h.sameTree k) {p : Path}
    (hp : h.pathTo k = .ok p) : h.node.get? p = some k.node ∧ h.path ++ p == k.path := by
  have hafter : Path.after? h.path k.path = some p := after?_of_pathTo hp
  have hnode := hk.node
  rw [← hh.tree_eq hk hhk, Context.get?_of_after? hafter, hh.node] at hnode
  exact ⟨hnode, Path.append_beq_of_after? hafter⟩

/-- A path down between nodes of a live tree leads from the one to the other there, too. -/
theorem Sound.pathTo_live (hh : h.Sound forest) (hk : k.Sound forest) (hhk : h.sameTree k)
    {t : LiveTree} (ht : h.tree.root = t.content) {p : Path} (hp : h.pathTo k = .ok p) :
    ∃ j j' : LiveTree, t.get? h.path = some j ∧ j.content = h.node ∧
      t.get? k.path = some j' ∧ j'.content = k.node ∧ j.get? p = some j' := by
  have hnode := hh.node
  have hnode' := hk.node
  rw [ht, LiveTree.get?_content] at hnode
  rw [← hh.tree_eq hk hhk, ht, LiveTree.get?_content] at hnode'
  obtain ⟨j, hj, hjcontent⟩ := Option.map_eq_some_iff.1 hnode
  obtain ⟨j', hj', hjcontent'⟩ := Option.map_eq_some_iff.1 hnode'
  have hbelow := hj'
  rw [LiveTree.get?_of_after? (after?_of_pathTo hp), hj] at hbelow
  exact ⟨j, j', hj, hjcontent, hj', hjcontent', hbelow⟩

/-! ## all together -/

/-- **Navigation is sound.**  Of any two nodes below one root there is a common root, it lies at
or above both, and whatever does so lies at or above it; there is a path from the one down to the
other just if the one lies at or above the other, and it leads there, in a context and in the
live tree that the context is the content of.  Nodes of different trees have neither a common
root nor a path between them, and none is an ancestor of the other.  Being an ancestor is a
strict order. -/
theorem navigation_sound (hh : h.Reachable forest) (hk : k.Reachable forest) :
    (h.sameTree k →
      (∃ r, h.commonRoot k = .ok r ∧ r.Reachable forest ∧ r.AtOrAbove h ∧ r.AtOrAbove k ∧
        ∀ m : Handle, m.AtOrAbove h → m.AtOrAbove k → m.AtOrAbove r) ∧
      ((∃ p, h.pathTo k = .ok p) ↔ h.AtOrAbove k) ∧
      ∀ p, h.pathTo k = .ok p →
        h.node.get? p = some k.node ∧ h.path ++ p == k.path ∧
        ∀ t : LiveTree, h.tree.root = t.content →
          ∃ j j' : LiveTree, t.get? h.path = some j ∧ j.content = h.node ∧
            t.get? k.path = some j' ∧ j'.content = k.node ∧ j.get? p = some j') ∧
    (¬ h.sameTree k →
      h.commonRoot k = .error (.noSharedRoot h.path k.path) ∧
      h.pathTo k = .error (.otherTree k.path h.path) ∧
      ¬ h.isAncestor k) ∧
    ¬ h.isAncestor h ∧
    (h.isAncestor k → ¬ k.isAncestor h) ∧
    ∀ m : Handle, h.isAncestor k → k.isAncestor m → h.isAncestor m := by
  refine ⟨fun hhk => ⟨?_, exists_pathTo_iff hhk, fun p hp => ?_⟩, fun hhk => ⟨?_, ?_, ?_⟩,
    isAncestor_irrefl h, isAncestor_asymm, fun m => isAncestor_trans⟩
  · obtain ⟨r, hr, htree, hpath⟩ := hh.sound.exists_commonRoot hhk
    exact ⟨r, hr, .commonRoot hh hk hr, least_of_common hhk htree hpath⟩
  · obtain ⟨hnode, hpath⟩ := hh.sound.pathTo hk.sound hhk hp
    exact ⟨hnode, hpath, fun t ht => hh.sound.pathTo_live hk.sound hhk ht hp⟩
  · rw [commonRoot, if_neg hhk]
  · rw [pathTo, if_neg hhk]
  · exact fun habove => hhk (isAncestor_iff.1 habove).1

/-- Two shells under a name that the one path quotes and the other does not: they part below it,
one of them has another shell below, and a twin of the tree has the same nodes but no common
root with it. -/
theorem navigation_sound_past_quoting :
    let a : Dimension := .name ['a'] false
    let quoted : Dimension := .name ['a'] true
    let t := (LiveTree.empty.attach [a, .integer 1, .integer 5] ⟨0, true⟩).attach [a, .integer 2]
      ⟨1, true⟩
    let forest : Nat → Context := fun _ => t.content
    ∃ h k m x : Handle,
      at? (planted forest 0) [quoted, .integer 1] = some h ∧
      at? (planted forest 0) [a, .integer 2] = some k ∧
      at? (planted forest 0) [a, .integer 1, .integer 5] = some m ∧
      at? (planted forest 1) [a, .integer 2] = some x ∧
      (∃ r, h.commonRoot k = .ok r ∧ r.path = [quoted] ∧ r.AtOrAbove h ∧ r.AtOrAbove k) ∧
      h.AtOrAbove m ∧ ¬ h.AtOrAbove k ∧
      h.node.get? [.integer 5] = some m.node ∧
      h.commonRoot x = .error (.noSharedRoot [quoted, .integer 1] [a, .integer 2]) := by
  intro a quoted t forest
  obtain ⟨h, hh⟩ : ∃ h, at? (planted forest 0) [quoted, .integer 1] = some h :=
    Option.isSome_iff_exists.1 (by decide +kernel)
  obtain ⟨k, hk⟩ : ∃ k, at? (planted forest 0) [a, .integer 2] = some k :=
    Option.isSome_iff_exists.1 (by decide +kernel)
  obtain ⟨m, hm⟩ : ∃ m, at? (planted forest 0) [a, .integer 1, .integer 5] = some m :=
    Option.isSome_iff_exists.1 (by decide +kernel)
  obtain ⟨x, hx⟩ : ∃ x, at? (planted forest 1) [a, .integer 2] = some x :=
    Option.isSome_iff_exists.1 (by decide +kernel)
  obtain ⟨hhtree, hhpath, -⟩ := at?_eq_some_iff.1 hh
  obtain ⟨hktree, hkpath, -⟩ := at?_eq_some_iff.1 hk
  obtain ⟨hmtree, hmpath, -⟩ := at?_eq_some_iff.1 hm
  obtain ⟨hxtree, hxpath, -⟩ := at?_eq_some_iff.1 hx
  obtain ⟨⟨r, hr, -, hrh, hrk, -⟩, hdown, -⟩ := (navigation_sound (.at? hh) (.at? hk)).1
    (by rw [sameTree, hhtree, hktree]; rfl)
  obtain ⟨-, hbelow, hto⟩ := (navigation_sound (.at? hh) (.at? hm)).1
    (by rw [sameTree, hhtree, hmtree]; rfl)
  obtain ⟨happart, -⟩ := (navigation_sound (.at? hh) (.at? hx)).2.1
    (by rw [sameTree, hhtree, hxtree]; decide)
  have hrpath := (at?_eq_some_iff.1 (at?_of_commonRoot hr)).2.1
  rw [hhpath, hkpath] at hrpath
  rw [hhpath, hxpath] at happart
  have hpath : h.pathTo m = .ok [.integer 5] := by
    rw [pathTo, sameTree, hhtree, hmtree, hhpath, hmpath]
    rfl
  have hnone : h.pathTo k = .error (.notBelow [a, .integer 2] [quoted, .integer 1]) := by
    rw [pathTo, sameTree, hhtree, hktree, hhpath, hkpath]
    rfl
  refine ⟨h, k, m, x, hh, hk, hm, hx, ⟨r, hr, hrpath.trans rfl, hrh, hrk⟩,
    hbelow.1 ⟨_, hpath⟩, ?_, (hto _ hpath).1, happart⟩
  rintro habove
  obtain ⟨p, hp⟩ := hdown.2 habove
  cases hnone.symm.trans hp

end Handle

end Intension
