import Intension.Proofs.LiveTree.Counting
import Intension.Proofs.LiveTree.Scripts

/-!
# Intension.Proofs.LiveTree.Attachments

Who is attached where, through everything that can be done to a live tree.
Changes move no one (`Valid.observersAt_changeAt`), whatever they clear and prune
on the way; attaching adds one observer at the end of a path, detaching takes one
away, and kicking takes those at the end of a path, or there and below, and sends
a notice to each of them.  The count at the root follows each time
(`attachments_conserved`).
-/

namespace Intension

namespace LiveTree

/-! ## who stands where -/

/-- The observers of the node at the end of a path, in the order they came. -/
def observersAt (t : LiveTree) (path : Path) : List Observer :=
  (t.get? path).elim [] observers

/-- The observers at a path are those of the node that stands there. -/
theorem observersAt_eq (t : LiveTree) (path : Path) :
    t.observersAt path = (t.nodeAt path).observers := by
  rw [observersAt, nodeAt_eq_getD]
  cases t.get? path <;> rfl

/-- The observers of all nodes at the ends of some paths, a node's before those below it. -/
def watching (place : Path → Bool) (t : LiveTree) : List Observer :=
  (t.nodes.filter (place ·.1)).flatMap (·.2.observers)

/-- The observers at the places with a property: those of the root, then those below each child. -/
theorem watching_eq (place : Path → Bool) (t : LiveTree) : watching place t =
    (if place [] then t.observers else []) ++
      t.children.flatMap fun e => watching (fun q => place (e.1 :: q)) e.2 := by
  have hchild : ∀ e : Dimension × LiveTree,
      (((nodesFrom [] e.2).map fun n => (e.1 :: n.1, n.2)).filter (place ·.1)).flatMap
        (·.2.observers) = watching (fun q => place (e.1 :: q)) e.2 := by
    intro e
    rw [List.filter_map, List.flatMap_map]
    rfl
  rw [watching, nodes, lists_nodes.nodesFrom_nil_eq, List.filter_cons, List.filter_flatMap]
  split
  · rw [List.flatMap_cons, List.flatMap_assoc, List.flatMap_congr fun e _ => hchild e]
  · rw [List.flatMap_assoc, List.flatMap_congr fun e _ => hchild e]
    rfl

theorem watching_none (t : LiveTree) : watching (fun _ => false) t = [] := by
  rw [watching, List.filter_false]
  rfl

/-- All observers in the tree, a node's before those below it. -/
def everyone (t : LiveTree) : List Observer := watching (fun _ => true) t

/-- All observers of a tree: those of the root, then those of the children. -/
theorem everyone_eq (t : LiveTree) :
    t.everyone = t.observers ++ t.children.flatMap fun e => e.2.everyone := watching_eq _ t

/-- The head count of a valid tree is the number of all its observers. -/
theorem Valid.length_everyone {t : LiveTree} (h : t.Valid) :
    t.everyone.length = t.headCount := by
  rw [h.headCount_eq_heads, everyone, watching, List.filter_true, List.length_flatMap]
  rfl

/-! ## the count at the root -/

/-- Where fewer stand at every node fewer are counted. -/
theorem Valid.headCount_le {t t' : LiveTree} (h : t.Valid) (h' : t'.Valid)
    (hle : ∀ q, (t.nodeAt q).observers.length ≤ (t'.nodeAt q).observers.length) :
    t.headCount ≤ t'.headCount := by
  induction h generalizing t' with
  | @intro t sorted bases heads live inner ih =>
    have hchildren : Keyed.total headCount t.children ≤ Keyed.total headCount t'.children := by
      refine Keyed.total_le_total sorted h'.sorted fun e he => ?_
      rw [← count_along headCount rfl]
      refine ih e he (h'.along e.1) fun q => ?_
      have hq := hle (e.1 :: q)
      rwa [LiveTree.nodeAt, LiveTree.along, child?, sorted.get?_of_mem he] at hq
    have hroot := hle []
    have hheads := h'.heads
    rw [totalHeads_eq] at heads hheads
    rw [LiveTree.nodeAt, LiveTree.nodeAt] at hroot
    omega

/-- Who stands where determines how many are counted. -/
theorem Valid.headCount_congr {t t' : LiveTree} (h : t.Valid) (h' : t'.Valid)
    (heq : ∀ q, (t'.nodeAt q).observers = (t.nodeAt q).observers) :
    t'.headCount = t.headCount :=
  Nat.le_antisymm (h'.headCount_le h fun q => by rw [heq]) (h.headCount_le h' fun q => by rw [heq])

/-- The count at the root changes with that of the node that is edited. -/
theorem Valid.headCount_editAt {α : Type} {t : LiveTree} (h : t.Valid)
    (f : LiveTree → LiveTree × α) (path : Path) :
    (t.editAt f path).1.headCount + (t.nodeAt path).headCount =
      t.headCount + (f (t.nodeAt path)).1.headCount := by
  induction path generalizing t with
  | nil => exact Nat.add_comm _ _
  | cons d path ih =>
    have hle := (h.along_le d).2
    have hchild := ih (h.along d)
    have hroot : (t.editAt f (d :: path)).1.headCount =
        t.headCount - (t.along d).headCount + ((t.along d).editAt f path).1.headCount := rfl
    rw [LiveTree.nodeAt]
    omega

/-! ## changes -/

/-- A change leaves the observers of every path as they are. -/
theorem Valid.observersAt_changeAt {t : LiveTree} (h : t.Valid) {x : Change} (hx : x.Sound)
    (ch : Channel) (path q : Path) :
    (t.changeAt ch path x).1.observersAt q = t.observersAt q := by
  rw [observersAt_eq, observersAt_eq, (h.carries_changeAt hx ch path).observers]

/-- A change leaves the head count as it is. -/
theorem Valid.headCount_changeAt {t : LiveTree} (h : t.Valid) {x : Change} (hx : x.Sound)
    (ch : Channel) (path : Path) : (t.changeAt ch path x).1.headCount = t.headCount :=
  have hcarries := h.carries_changeAt hx ch path
  h.headCount_congr hcarries.valid hcarries.observers

/-! ## attaching -/

/-- Attaching counts one more head. -/
theorem Valid.headCount_attach {t : LiveTree} (h : t.Valid) (path : Path) (o : Observer) :
    (t.attach path o).headCount = t.headCount + 1 := by
  have hcount := h.headCount_editAt (LiveTree.welcome o) path
  have hnode : (LiveTree.welcome o (t.nodeAt path)).1.headCount =
      (t.nodeAt path).headCount + 1 := rfl
  rw [attach_eq]
  omega

/-! ## detaching -/

/-- Dropping an observer says whether it was there. -/
theorem snd_drop (o : Observer) (t : LiveTree) :
    (t.drop o).2 = t.observers.any (·.id == o.id) := by
  rw [drop]
  split
  · next h => exact h.symm
  · next h => exact (Bool.eq_false_iff.2 h).symm

/-- One occurrence goes, the first, if there is one. -/
theorem observers_drop (o : Observer) (t : LiveTree) :
    (t.drop o).1.observers = t.observers.eraseP (·.id == o.id) := by
  rw [drop]
  split
  · rfl
  · next h =>
    refine (List.eraseP_of_forall_not fun x hx hid => h ?_).symm
    exact List.any_eq_true.2 ⟨x, hx, hid⟩

theorem children_drop (o : Observer) (t : LiveTree) : (t.drop o).1.children = t.children := by
  rw [drop]
  split <;> rfl

/-- Dropping an observer counts one head less if it was there. -/
theorem Valid.headCount_drop {t : LiveTree} (h : t.Valid) (o : Observer) :
    (t.drop o).1.headCount + (t.drop o).2.toNat = t.headCount := by
  have hheads := h.heads
  rw [drop]
  split
  · next hany =>
    obtain ⟨x, hx, -⟩ := List.any_eq_true.1 hany
    have hpos := List.length_pos_of_mem hx
    exact Nat.sub_add_cancel (by omega)
  · rfl

/-- What detaching an observer at the end of a path comes to: it tells whether the observer was
there, takes one occurrence of it away, and touches no one else. -/
structure Detached (t : LiveTree) (path : Path) (o : Observer) (outcome : LiveTree × Bool) :
    Prop where
  found : outcome.2 = true ↔ ∃ x ∈ t.observersAt path, x.id = o.id
  observers : ∀ q, outcome.1.observersAt q =
    if path == q then (t.observersAt q).eraseP (·.id == o.id) else t.observersAt q
  headCount : outcome.1.headCount + outcome.2.toNat = t.headCount

/-- Where no node is stored the empty tree is read. -/
theorem nodeAt_eq_empty {t : LiveTree} {path : Path} (h : t.get? path = none) :
    t.nodeAt path = empty := by
  rw [nodeAt_eq_getD, h]
  rfl

/-- Nobody stands at a node that is not there, nor below it. -/
theorem observersAt_eq_nil {t : LiveTree} {path q r : Path} (h : t.get? path = none)
    (hr : Path.after? path q = some r) : t.observersAt q = [] := by
  rw [observersAt_eq, nodeAt_of_after? hr, nodeAt_eq_empty h, nodeAt_empty]
  rfl

/-- The test for an observer by its identity. -/
theorem any_observersAt_iff (t : LiveTree) (path : Path) (o : Observer) :
    (t.observersAt path).any (·.id == o.id) = true ↔ ∃ x ∈ t.observersAt path, x.id = o.id := by
  simp

/-- Dropping an observer at a path takes its first attachment there and no other. -/
theorem Valid.observersAt_drop {t : LiveTree} (h : t.Valid) (path q : Path) (o : Observer) :
    (t.editAt (drop o) path).1.observersAt q =
      if path == q then (t.observersAt q).eraseP (·.id == o.id) else t.observersAt q := by
  have hlook := look_nodeAt_editAt LiveTree.observers (fun _ _ _ => rfl)
    (fun _ hk => (hk.keeps_drop o).valid) h path q
  rw [observersAt_eq, hlook, observersAt_eq]
  by_cases hpq : path == q
  · rw [if_pos hpq, Path.after?_eq_some_nil_iff.2 hpq, Option.elim_some, LiveTree.nodeAt,
      observers_drop, nodeAt_of_after? (Path.after?_eq_some_nil_iff.2 hpq)]
    rfl
  · rw [if_neg hpq]
    cases hr : Path.after? path q with
    | none => rfl
    | some r =>
      cases r with
      | nil => exact absurd (Path.after?_eq_some_nil_iff.1 hr) hpq
      | cons d r =>
        rw [Option.elim_some, nodeAt_of_after? hr, LiveTree.nodeAt, LiveTree.nodeAt,
          LiveTree.along, LiveTree.along, child?, child?, children_drop]

/-- Detaching where no node stands changes nothing. -/
theorem detach_of_none {t : LiveTree} {path : Path} (h : t.get? path = none) (o : Observer) :
    t.detach path o = (t, false) :=
  if_neg fun hsome => by rw [h] at hsome; cases hsome

/-- Detaching where a node stands drops the observer there. -/
theorem detach_of_some {t k : LiveTree} {path : Path} (h : t.get? path = some k) (o : Observer) :
    t.detach path o = t.editAt (drop o) path :=
  if_pos (Option.isSome_iff_exists.2 ⟨k, h⟩)

/-- Detaching does what it says: observers, head count and answer. -/
theorem Valid.detached {t : LiveTree} (h : t.Valid) (path : Path) (o : Observer) :
    Detached t path o (t.detach path o) := by
  cases hnode : t.get? path with
  | none =>
    have hnobody : ∀ q, path == q → t.observersAt q = [] := fun q hpq =>
      observersAt_eq_nil hnode (Path.after?_eq_some_nil_iff.2 hpq)
    rw [detach_of_none hnode]
    refine ⟨?_, fun q => ?_, rfl⟩
    · rw [hnobody path BEq.rfl]
      simp
    · split
      · next hpq =>
        rw [hnobody q hpq]
        rfl
      · rfl
  | some k =>
    have hdrop := (h.nodeAt path).headCount_drop o
    have hcount := h.headCount_editAt (drop o) path
    rw [detach_of_some hnode]
    refine ⟨?_, fun q => h.observersAt_drop path q o, ?_⟩
    · rw [snd_editAt, snd_drop, ← observersAt_eq]
      exact t.any_observersAt_iff path o
    · rw [snd_editAt]
      omega

/-! ## kicking -/

/-- Whether kicking at the end of `path`, and below it if `deep`, reaches the end of `q`. -/
def reaches (deep : Bool) (path q : Path) : Bool := if deep then path.leads q else path == q

/-- A kick reaches its own node, and those below if it is a deep one. -/
theorem reaches_eq (deep : Bool) (path q : Path) :
    reaches deep path q = (Path.after? path q).any fun r => deep || r.isEmpty := by
  cases deep with
  | true =>
    rw [reaches, if_pos rfl, Path.leads_eq_isSome_after?]
    cases Path.after? path q <;> rfl
  | false =>
    have hiff := @Path.after?_eq_some_nil_iff path q
    rw [reaches, if_neg Bool.false_ne_true, Bool.eq_iff_iff, ← hiff]
    cases Path.after? path q <;> simp

/-- Below a key a kick reaches what the rest of its path reaches. -/
theorem reaches_cons (deep : Bool) (d e : Dimension) (path q : Path) :
    reaches deep (d :: path) (e :: q) = (d == e && reaches deep path q) := by
  cases deep <;> rfl

/-- A kick at a path below the root does not reach the root. -/
theorem reaches_cons_nil (deep : Bool) (d : Dimension) (path : Path) :
    reaches deep (d :: path) [] = false := by
  cases deep <;> rfl

/-- Those whom kicking reaches, a node's before those below it. -/
def kicked (t : LiveTree) (path : Path) (deep : Bool) : List Observer :=
  watching (reaches deep path) t

/-- Nobody is kicked out of the empty tree. -/
theorem kicked_empty (path : Path) (deep : Bool) : empty.kicked path deep = [] := by
  rw [kicked, watching_eq]
  split <;> rfl

/-- Those kicked below a key are those kicked in the child. -/
theorem Valid.kicked_cons {t : LiveTree} (h : t.Valid) (d : Dimension) (path : Path)
    (deep : Bool) : t.kicked (d :: path) deep = (t.along d).kicked path deep := by
  have hchild : ∀ e : Dimension × LiveTree,
      watching (fun q => reaches deep (d :: path) (e.1 :: q)) e.2 =
        if d == e.1 then e.2.kicked path deep else [] := by
    intro e
    simp only [reaches_cons]
    split
    · next hd =>
      rw [hd]
      rfl
    · next hd =>
      rw [Bool.eq_false_iff.2 hd]
      exact watching_none e.2
  rw [kicked, watching_eq, reaches_cons_nil, List.flatMap_congr fun e _ => hchild e,
    Keyed.flatMap_of_key h.sorted d (kicked · path deep), LiveTree.along, child?]
  cases Keyed.get? d t.children with
  | none => exact (kicked_empty path deep).symm
  | some k => rfl

/-- Those who are kicked stand at the node at the end of the path, or there and below. -/
theorem Valid.kicked_eq {t : LiveTree} (h : t.Valid) (path : Path) (deep : Bool) :
    t.kicked path deep =
      if deep then (t.nodeAt path).everyone else (t.nodeAt path).observers := by
  induction path generalizing t with
  | nil =>
    cases deep with
    | true => rfl
    | false =>
      have hbelow : (t.children.flatMap fun e => watching (fun q => reaches false [] (e.1 :: q)) e.2)
          = [] := List.flatMap_eq_nil_iff.2 fun e _ => watching_none e.2
      rw [kicked, watching_eq, hbelow]
      exact List.append_nil _
  | cons d path ih => rw [h.kicked_cons, ih (h.along d), LiveTree.nodeAt]

/-- What kicking does to the node at the end of the path. -/
def kickNode (ch : Channel) (deep : Bool) (t : LiveTree) : LiveTree × Delivery × Nat :=
  if deep then kickAll ch t .start else kickHere ch t .start

/-- A kick where a node stands edits this node. -/
theorem kick_of_some {t k : LiveTree} {path : Path} (h : t.get? path = some k) (ch : Channel)
    (deep : Bool) : t.kick ch path deep = t.editAt (kickNode ch deep) path :=
  if_pos (Option.isSome_iff_exists.2 ⟨k, h⟩)

/-- A kick where no node stands tells nobody. -/
theorem kick_of_none {t : LiveTree} {path : Path} (h : t.get? path = none) (ch : Channel)
    (deep : Bool) : t.kick ch path deep = (t, .start, 0) :=
  if_neg fun hsome => by rw [h] at hsome; cases hsome

/-- What an observer is told that is kicked. -/
def farewell (ch : Channel) (o : Observer) : Notice := ⟨o, .kick, none, ch.origin⟩

/-- A kick goes to each observer of the node as its farewell. -/
theorem announce_kick (ch : Channel) (l : List Observer) (δ : Delivery) :
    δ.announce ch l .kick none = δ.post ch (l.map (farewell ch)) :=
  Delivery.announce_eq_post ch l .kick none δ

/-- What kicking tells some observers, and their number. -/
def tellKicked (ch : Channel) (l : List Observer) (δ : Delivery) : Delivery × Nat :=
  (δ.post ch (l.map (farewell ch)), l.length)

/-- Kicking all children tells their observers in the order of the children. -/
theorem kickChildren_told (ch : Channel) {l : List (Dimension × LiveTree)}
    (hl : ∀ e ∈ l, ∀ δ, (kickAll ch e.2 δ).2 = tellKicked ch e.2.everyone δ) (δ : Delivery) :
    (kickChildren ch l δ).2 = tellKicked ch (l.flatMap fun e => e.2.everyone) δ := by
  induction l generalizing δ with
  | nil => rfl
  | cons e l ih =>
    obtain ⟨d, k⟩ := e
    obtain ⟨hk, hl⟩ := List.forall_mem_cons.1 hl
    rw [kickChildren]
    dsimp only
    rw [ih hl, hk, List.flatMap_cons, tellKicked, tellKicked, tellKicked, List.map_append,
      Delivery.post_append, List.length_append]

/-- Everyone in a tree is told once, and counted once. -/
theorem kickAll_told (ch : Channel) (t : LiveTree) (δ : Delivery) :
    (kickAll ch t δ).2 = tellKicked ch t.everyone δ := by
  induction t using children_induction generalizing δ with
  | step t ih =>
    rw [kickAll_unfold, kickChildren_told ch ih, announce_kick, everyone_eq, tellKicked, tellKicked,
      List.map_append, Delivery.post_append, List.length_append]

/-- A kick tells exactly those it kicks out, in this order. -/
theorem Valid.kick_told {t : LiveTree} (h : t.Valid) (ch : Channel) (path : Path) (deep : Bool) :
    (t.kick ch path deep).2 = tellKicked ch (t.kicked path deep) .start := by
  rw [h.kicked_eq]
  cases hnode : t.get? path with
  | none =>
    rw [kick_of_none hnode, nodeAt_eq_empty hnode]
    cases deep <;> rfl
  | some k =>
    rw [kick_of_some hnode, snd_editAt]
    cases deep with
    | true => exact kickAll_told ch _ .start
    | false => exact congrArg (·, _) (announce_kick ch _ .start)

/-- Nobody is left where all were kicked. -/
theorem Valid.observers_kickAll {t : LiveTree} (h : t.Valid) (ch : Channel) (δ : Delivery)
    (q : Path) : ((kickAll ch t δ).1.nodeAt q).observers = [] := by
  induction h generalizing δ q with
  | @intro t sorted bases heads live inner ih =>
    have hkicked := reworked_kickChildren
      (R := fun _ k' => k'.Valid ∧ ∀ q, (k'.nodeAt q).observers = []) ch
      (fun e he δ => ⟨((inner e he).keeps_kickAll ch δ).valid, ih e he δ⟩)
      (δ.announce ch t.observers .kick none)
    rw [kickAll_unfold]
    cases q with
    | nil => rfl
    | cons d q =>
      rw [LiveTree.nodeAt, LiveTree.along, child?]
      obtain ⟨-, -, -, hk⟩ | ⟨-, hnone⟩ := hkicked.getD_get? sorted (fun _ _ _ hk => hk.1) d
      · exact hk.2 q
      · rw [show Keyed.get? d (t.dismiss.withChildren _).children = none from hnone,
          Option.getD_none, nodeAt_empty]
        rfl

/-- After a deep kick no head is left. -/
theorem Valid.headCount_kickAll {t : LiveTree} (h : t.Valid) (ch : Channel) (δ : Delivery) :
    (kickAll ch t δ).1.headCount = 0 := by
  refine Nat.le_zero.1 ((h.keeps_kickAll ch δ).valid.headCount_le valid_empty fun q => ?_)
  rw [h.observers_kickAll]
  exact Nat.zero_le _

/-- Kicking leaves nobody at the node itself, nor below it if `deep`. -/
theorem Valid.observers_kickNode {t : LiveTree} (h : t.Valid) (ch : Channel) (deep : Bool)
    (q : Path) : ((LiveTree.kickNode ch deep t).1.nodeAt q).observers =
      if deep || q.isEmpty then [] else (t.nodeAt q).observers := by
  cases deep with
  | true => exact h.observers_kickAll ch .start q
  | false => cases q <;> rfl

/-- Kicking at a node keeps the tree valid. -/
theorem Valid.kickNode {t : LiveTree} (h : t.Valid) (ch : Channel) (deep : Bool) :
    (LiveTree.kickNode ch deep t).1.Valid := by
  cases deep with
  | true => exact (h.keeps_kickAll ch .start).valid
  | false => exact h.keeps_dismiss.valid

/-- Kicking at a node takes those kicked off the head count. -/
theorem Valid.headCount_kickNode {t : LiveTree} (h : t.Valid) (ch : Channel) (deep : Bool) :
    (LiveTree.kickNode ch deep t).1.headCount +
      (if deep then t.everyone else t.observers).length = t.headCount := by
  cases deep with
  | true =>
    have hnobody : (LiveTree.kickNode ch true t).1.headCount = 0 := h.headCount_kickAll ch .start
    rw [hnobody, Nat.zero_add]
    exact h.length_everyone
  | false =>
    have hheads := h.heads
    exact Nat.sub_add_cancel (by omega)

/-- What kicking at the end of a path comes to: those who are reached are gone, all others stay
where they are, and when nobody refuses the notice each of those who are gone was told once. -/
structure Kicked (t : LiveTree) (ch : Channel) (path : Path) (deep : Bool)
    (outcome : LiveTree × Delivery × Nat) : Prop where
  observers : ∀ q, outcome.1.observersAt q =
    if reaches deep path q then [] else t.observersAt q
  headCount : outcome.1.headCount + (t.kicked path deep).length = t.headCount
  told : outcome.2.1.refusal? = none →
    outcome.2.1.sent = (t.kicked path deep).map (farewell ch) ∧
      outcome.2.1.result outcome.2.2 = .ok (t.kicked path deep).length

/-- After a kick nobody is attached where it reaches, and everybody else still is. -/
theorem Valid.observersAt_kick {t : LiveTree} (h : t.Valid) (ch : Channel) (path : Path)
    (deep : Bool) (q : Path) : (t.kick ch path deep).1.observersAt q =
      if reaches deep path q then [] else t.observersAt q := by
  rw [reaches_eq]
  cases hnode : t.get? path with
  | none =>
    rw [kick_of_none hnode]
    cases hr : Path.after? path q with
    | none => rfl
    | some r => rw [observersAt_eq_nil hnode hr, ite_self]
  | some k =>
    rw [kick_of_some hnode, observersAt_eq, look_nodeAt_editAt LiveTree.observers
      (fun _ _ _ => rfl) (fun _ hk => hk.kickNode ch deep) h, observersAt_eq]
    cases hr : Path.after? path q with
    | none => rfl
    | some r =>
      rw [Option.elim_some, (h.nodeAt path).observers_kickNode, nodeAt_of_after? hr]
      rfl

/-- The head count after a kick is what is left of it without those kicked. -/
theorem Valid.headCount_kick {t : LiveTree} (h : t.Valid) (ch : Channel) (path : Path)
    (deep : Bool) :
    (t.kick ch path deep).1.headCount + (t.kicked path deep).length = t.headCount := by
  rw [h.kicked_eq]
  cases hnode : t.get? path with
  | none =>
    rw [kick_of_none hnode, nodeAt_eq_empty hnode]
    cases deep <;> rfl
  | some k =>
    have hcount := h.headCount_editAt (LiveTree.kickNode ch deep) path
    have hkicked := (h.nodeAt path).headCount_kickNode ch deep
    rw [kick_of_some hnode]
    omega

/-- A kick does what it says: observers, head count and notices. -/
theorem Valid.kicked {t : LiveTree} (h : t.Valid) (ch : Channel) (path : Path) (deep : Bool) :
    Kicked t ch path deep (t.kick ch path deep) where
  observers := h.observersAt_kick ch path deep
  headCount := h.headCount_kick ch path deep
  told hunrefused := by
    rw [h.kick_told] at hunrefused ⊢
    have hsent := Delivery.post_eq_of_unrefused hunrefused
    rw [tellKicked, hsent]
    exact ⟨rfl, rfl⟩

/-! ## attachments -/

/-- **Attachments are conserved.**  A change, refused or not, leaves every observer where it was;
attaching adds the observer once, as the last one at the end of the path; detaching tells whether
the observer was there and takes it away once; kicking takes away those at the end of the path,
or there and below, and tells each of them once if no notice is refused.  All others stay, and
the count at the root changes by the number of those who come or go. -/
theorem attachments_conserved {t : LiveTree} (ht : t.Reachable) (ch : Channel) (path : Path) :
    (∀ x : Change, x.Reachable →
      (∀ q, (t.changeAt ch path x).1.observersAt q = t.observersAt q) ∧
        (t.changeAt ch path x).1.headCount = t.headCount) ∧
    (∀ o, (∀ q, (t.attach path o).observersAt q =
          t.observersAt q ++ if path == q then [o] else []) ∧
        (t.attach path o).headCount = t.headCount + 1) ∧
    (∀ o, Detached t path o (t.detach path o)) ∧
    ∀ deep, Kicked t ch path deep (t.kick ch path deep) := by
  have h := ht.valid
  refine ⟨fun x hx => ⟨h.observersAt_changeAt hx.sound ch path,
    h.headCount_changeAt hx.sound ch path⟩, fun o => ⟨fun q => ?_, h.headCount_attach path o⟩,
    h.detached path, h.kicked ch path⟩
  rw [observersAt_eq, observersAt_eq, h.observers_nodeAt_attach]

/-- One observer stands twice at a node, another one below it, and one beside both. -/
def crowd : LiveTree :=
  (((empty.attach [.integer 1] ⟨0, false⟩).attach [.integer 1] ⟨0, false⟩).attach
    [.integer 1, .integer 2] ⟨1, true⟩).attach [.integer 3] ⟨2, false⟩

/-- Three of the four are reached, and the one who stood there twice is told twice. -/
theorem attachments_conserved_crowd :
    let ch : Channel := ⟨fun _ => none, none⟩
    Kicked crowd ch [.integer 1] true (crowd.kick ch [.integer 1] true) ∧
      crowd.kicked [.integer 1] true = [⟨0, false⟩, ⟨0, false⟩, ⟨1, true⟩] ∧
      crowd.headCount = 4 := by
  intro ch
  have hcrowd : crowd.Reachable := .attach (.attach (.attach (.attach .empty _ _) _ _) _ _) _ _
  exact ⟨(attachments_conserved hcrowd ch [.integer 1]).2.2.2 true, by decide, by decide⟩

end LiveTree

end Intension
