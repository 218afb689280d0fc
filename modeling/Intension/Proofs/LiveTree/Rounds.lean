import Intension.Proofs.LiveTree.Attachments
import Intension.Proofs.LiveTree.Telling

/-!
# Intension.Proofs.LiveTree.Rounds

The notices of a change, node by node.  What is sent to the observers of one node,
one after the other, is a round (`Round`); a change is told in rounds that are known
beforehand, first upwards, from the nearest ancestor to the root, and then
downwards, each node before those below it (`told_in_rounds`).  No node has two
rounds, so nobody is told twice.
-/

namespace Intension

/-- All observers of the node at the end of `place` are told of one event, with one path. -/
structure Round where
  place : Path
  event : Event
  path : Option Path

namespace Round

/-- The notices of a round, in the order in which the observers came. -/
def notices (ch : Channel) (t : LiveTree) (r : Round) : List Notice :=
  (t.observersAt r.place).map fun o => ⟨o, r.event.toldTo o, r.path, ch.origin⟩

/-- The round as it looks from above, `p` leading down to where it looks like this. -/
def under (p : Path) (r : Round) : Round := { r with place := p ++ r.place }

/-- The rounds of some children as they look from the parent. -/
def ofChildren {α : Type} (rounds : Dimension × α → List Round) (l : List (Dimension × α)) :
    List Round := l.flatMap fun e => (rounds e).map (under [e.1])

/-- The rounds of some children: those of the first, seen from the parent, and then the others. -/
theorem ofChildren_cons {α : Type} (rounds : Dimension × α → List Round) (e : Dimension × α)
    (l : List (Dimension × α)) : ofChildren rounds (e :: l) =
      (rounds e).map (under [e.1]) ++ ofChildren rounds l := List.flatMap_cons

/-- A round of a child is of one of those that are listed. -/
theorem place_of_mem_ofChildren {α : Type} {rounds : Dimension × α → List Round}
    {l : List (Dimension × α)} {r : Round} (hr : r ∈ ofChildren rounds l) :
    ∃ e ∈ l, ∃ q, r.place = e.1 :: q := by
  obtain ⟨e, he, hr⟩ := List.mem_flatMap.1 hr
  obtain ⟨s, -, rfl⟩ := List.mem_map.1 hr
  exact ⟨e, he, s.place, rfl⟩

/-- A round seen from above has the notices that it has where it is. -/
theorem notices_under (ch : Channel) (t : LiveTree) (p : Path) (r : Round) :
    (r.under p).notices ch t = r.notices ch (t.nodeAt p) := by
  induction p generalizing t with
  | nil => rfl
  | cons d p ih =>
    rw [LiveTree.nodeAt, ← ih, notices, notices, LiveTree.observersAt_eq, LiveTree.observersAt_eq]
    rfl

end Round

namespace Delivery

/-- Tells the observers of a tree in rounds. -/
def tell (ch : Channel) (t : LiveTree) (rounds : List Round) (δ : Delivery) : Delivery :=
  δ.post ch (rounds.flatMap (Round.notices ch t))

variable {ch : Channel} {t t' : LiveTree} {rounds others : List Round} {δ : Delivery}

/-- Telling two lists of rounds is telling the one after the other. -/
theorem tell_append : δ.tell ch t (rounds ++ others) = (δ.tell ch t rounds).tell ch t others := by
  rw [tell, List.flatMap_append, post_append, tell, tell]

/-- Telling rounds starts with the first. -/
theorem tell_cons (r : Round) :
    δ.tell ch t (r :: rounds) = (δ.tell ch t [r]).tell ch t rounds := by
  rw [← tell_append, List.singleton_append]

/-- Telling rounds seen from above is telling them in the node where they are. -/
theorem tell_under (p : Path) :
    δ.tell ch t (rounds.map (.under p)) = δ.tell ch (t.nodeAt p) rounds := by
  rw [tell, List.flatMap_map, List.flatMap_congr fun r _ => Round.notices_under ch t p r, tell]

/-- It does not matter what the tree holds. -/
theorem tell_congr (h : ∀ q, (t'.nodeAt q).observers = (t.nodeAt q).observers) :
    δ.tell ch t' rounds = δ.tell ch t rounds := by
  have hround : ∀ r ∈ rounds, r.notices ch t' = r.notices ch t := fun r _ => by
    rw [Round.notices, Round.notices, LiveTree.observersAt_eq, LiveTree.observersAt_eq, h]
  rw [tell, List.flatMap_congr hround, tell]

/-- Announcing an event to the observers of a node is one round. -/
theorem announce_eq_tell (e : Event) (path : Option Path) :
    δ.announce ch t.observers e path = δ.tell ch t [⟨[], e, path⟩] := by
  rw [announce_eq_post, tell, List.flatMap_singleton]
  rfl

end Delivery

namespace LiveTree

/-! ## downwards -/

mutual

/-- The rounds of a clearing. -/
def clearRounds : LiveTree → List Round
  | ⟨_, children, _, _, _⟩ =>
    ⟨[], .change .clear, none⟩ :: clearedRounds (fun _ => false) children

/-- The rounds of a clearing of children that are not empty and not listed. -/
def clearedRounds (listed : Dimension → Bool) : List (Dimension × LiveTree) → List Round
  | [] => []
  | (d, k) :: rest =>
    if k.isEmpty || listed d then clearedRounds listed rest
    else (clearRounds k).map (.under [d]) ++ clearedRounds listed rest

end

mutual

/-- The rounds of a patch below the node where it is carried out, and there. -/
def patchRounds (p : Patch) (forced : Bool) (t : LiveTree) : List Round :=
  match p with
  | ⟨base, children, clearsBase, clearsDims, bases, blanks⟩ =>
    let whole : Patch := ⟨base, children, clearsBase, clearsDims, bases, blanks⟩
    ⟨[], .change (.patch (if forced then whole.setClearDimsAt [] else whole)), none⟩ ::
      ((if clearsDims || forced then clearedRounds (Keyed.contains · children) t.children else [])
        ++ patchesRounds children (clearsDims || forced) t)

/-- The rounds of patches to children. -/
def patchesRounds (children : List (Dimension × Patch)) (clearing : Bool) (t : LiveTree) :
    List Round :=
  match children with
  | [] => []
  | (d, p) :: rest =>
    (patchRounds p clearing (t.along d)).map (.under [d]) ++ patchesRounds rest clearing t

end

mutual

/-- The rounds of a context that is assigned. -/
def assignRounds (c : Context) (t : LiveTree) : List Round :=
  match c with
  | ⟨base, children, bases⟩ =>
    ⟨[], .change (.assign ⟨base, children, bases⟩), none⟩ ::
      (clearedRounds (Keyed.contains · children) t.children ++ assignsRounds children t)

/-- The rounds of contexts that are assigned to children. -/
def assignsRounds (children : List (Dimension × Context)) (t : LiveTree) : List Round :=
  match children with
  | [] => []
  | (d, c) :: rest => (assignRounds c (t.along d)).map (.under [d]) ++ assignsRounds rest t

end

/-- The rounds of a change at and below the node where it is carried out. -/
def changeRounds (x : Change) (t : LiveTree) : List Round :=
  match x with
  | .patch p => patchRounds p false t
  | .assign c => assignRounds c t
  | .clear => clearRounds t

theorem clearRounds_eq (t : LiveTree) :
    t.clearRounds = ⟨[], .change .clear, none⟩ :: clearedRounds (fun _ => false) t.children := by
  cases t
  rw [clearRounds]

theorem clearedRounds_eq (listed : Dimension → Bool) (l : List (Dimension × LiveTree)) :
    clearedRounds listed l = Round.ofChildren (fun e => e.2.clearRounds)
      (l.filter fun e => !(e.2.isEmpty || listed e.1)) := by
  induction l with
  | nil => rfl
  | cons e l ih =>
    rw [clearedRounds, ih, List.filter_cons]
    cases e.2.isEmpty || listed e.1 <;> rfl

theorem patchRounds_eq (p : Patch) (forced : Bool) (t : LiveTree) : patchRounds p forced t =
    ⟨[], .change (.patch (if forced then p.setClearDimsAt [] else p)), none⟩ ::
      ((if p.clearsDims || forced then clearedRounds (Keyed.contains · p.children) t.children
          else [])
        ++ patchesRounds p.children (p.clearsDims || forced) t) := by
  cases p
  rw [patchRounds]

theorem patchesRounds_eq (l : List (Dimension × Patch)) (clearing : Bool) (t : LiveTree) :
    patchesRounds l clearing t =
      Round.ofChildren (fun e => patchRounds e.2 clearing (t.along e.1)) l := by
  induction l with
  | nil => rfl
  | cons e l ih => rw [patchesRounds, ih, Round.ofChildren_cons]

theorem assignRounds_eq (c : Context) (t : LiveTree) : assignRounds c t =
    ⟨[], .change (.assign c), none⟩ ::
      (clearedRounds (Keyed.contains · c.children) t.children ++ assignsRounds c.children t) := by
  cases c
  rw [assignRounds]

theorem assignsRounds_eq (l : List (Dimension × Context)) (t : LiveTree) :
    assignsRounds l t = Round.ofChildren (fun e => assignRounds e.2 (t.along e.1)) l := by
  induction l with
  | nil => rfl
  | cons e l ih => rw [assignsRounds, ih, Round.ofChildren_cons]

/-! ### clearing -/

section clearing

variable {ch : Channel} {t : LiveTree}

/-- Clearing children in turn tells the rounds of those that are cleared. -/
theorem clearChildren_told (listed : Dimension → Bool) {l : List (Dimension × LiveTree)}
    (hl : ∀ e ∈ l, t.along e.1 = e.2)
    (hclear : ∀ e ∈ l, ∀ δ, (clearHere ch e.2 δ).2 = δ.tell ch e.2 e.2.clearRounds)
    (δ : Delivery) :
    (clearChildren ch listed l δ).2 = δ.tell ch t (clearedRounds listed l) := by
  induction l generalizing δ with
  | nil => rfl
  | cons e l ih =>
    obtain ⟨d, k⟩ := e
    obtain ⟨hk, hl⟩ := List.forall_mem_cons.1 hl
    obtain ⟨hkclear, hclear⟩ := List.forall_mem_cons.1 hclear
    rw [clearChildren, clearedRounds]
    split
    · exact ih hl hclear δ
    · have hchild : t.nodeAt [d] = k := hk
      rw [Delivery.tell_append, Delivery.tell_under, hchild, ← hkclear]
      exact ih hl hclear _

/-- A stored child is the one found under its key. -/
theorem Valid.along_of_mem (h : t.Valid) {e : Dimension × LiveTree} (he : e ∈ t.children) :
    t.along e.1 = e.2 := by
  rw [LiveTree.along, child?, h.sorted.get?_of_mem he]
  rfl

/-- A clearing tells its rounds, by induction on the tree. -/
theorem Valid.clearHere_told (h : t.Valid) (δ : Delivery) :
    (clearHere ch t δ).2 = δ.tell ch t t.clearRounds := by
  induction h generalizing δ with
  | @intro t sorted bases heads live inner ih =>
    have h : t.Valid := .intro sorted bases heads live inner
    rw [clearHere_eq, clearRounds_eq, Delivery.tell_cons,
      ← Delivery.announce_eq_tell]
    exact clearChildren_told (fun _ => false) (fun e he => h.along_of_mem he) ih _

/-- Clearing the children that are not listed tells the rounds of these children. -/
theorem Valid.clearUnlisted_told (h : t.Valid) (listed : Dimension → Bool) (δ : Delivery) :
    (t.clearUnlisted ch listed δ).2 = δ.tell ch t (clearedRounds listed t.children) :=
  clearChildren_told listed (fun _ he => h.along_of_mem he)
    (fun e he δ => (h.inner e he).clearHere_told δ) δ

/-- What is listed is not touched. -/
theorem Valid.along_clearUnlisted (h : t.Valid) {listed : Dimension → Bool}
    (hlisted : ∀ d e, d == e → listed d = listed e) {d : Dimension} (hd : listed d)
    (δ : Delivery) : (t.clearUnlisted ch listed δ).1.along d = t.along d := by
  have hcleared := reworked_clearChildren ch listed h.live h.inner
    (fun e he δ => (h.inner e he).carries_clearHere ch δ) δ
  rw [LiveTree.along, LiveTree.along, child?, child?]
  obtain ⟨-, e, hde, hk⟩ | ⟨hnone, hnone'⟩ :=
    hcleared.getD_get? h.sorted (fun _ _ _ hk => hk.valid) d
  · rw [Cleared, ← hlisted d e hde, hd, Bool.or_true, if_pos rfl] at hk
    exact hk.1
  · rw [hnone]
    exact congrArg (Option.getD · empty) hnone'

end clearing

/-! ### listed children in turn -/

/-- Changing children in turn tells their rounds in turn, since no change touches the children that
come later. -/
theorem Valid.inTurn_told {α : Type} {ch : Channel}
    {f : α → LiveTree → Delivery → LiveTree × Delivery} {g : α → LiveTree → List Round}
    {l : List (Dimension × α)} (hl : Keyed.Sorted l)
    (hvalid : ∀ e ∈ l, ∀ k : LiveTree, k.Valid → ∀ δ, (f e.2 k δ).1.Valid)
    (htold : ∀ e ∈ l, ∀ k : LiveTree, k.Valid → ∀ δ,
      (f e.2 k δ).2 = δ.tell ch k (g e.2 k))
    {t t' : LiveTree} (h : t'.Valid) (hsame : ∀ e ∈ l, t'.along e.1 = t.along e.1)
    (δ : Delivery) : (inTurn f l t' δ).2 =
      δ.tell ch t (Round.ofChildren (fun e => g e.2 (t.along e.1)) l) := by
  induction l generalizing t' δ with
  | nil => rfl
  | cons e l ih =>
    obtain ⟨hlt, hl⟩ := Keyed.sorted_cons.1 hl
    obtain ⟨hevalid, hvalid⟩ := List.forall_mem_cons.1 hvalid
    obtain ⟨hetold, htold⟩ := List.forall_mem_cons.1 htold
    obtain ⟨hesame, hsame⟩ := List.forall_mem_cons.1 hsame
    have hchild := hevalid _ (h.along e.1) δ
    have hrest : ∀ x ∈ l, (t'.withChild e.1 fun k => f e.2 k δ).1.along x.1 = t.along x.1 := by
      intro x hx
      have hne : (x.1 == e.1) = false := Keyed.beq_eq_false_of_lt (hlt x hx)
      rw [along_withChild hchild, hne, if_neg Bool.false_ne_true, hsame x hx]
    have hfirst : (t'.withChild e.1 fun k => f e.2 k δ).2 =
        δ.tell ch (t.nodeAt [e.1]) (g e.2 (t.along e.1)) := by
      rw [← hesame]
      exact (hetold _ (h.along e.1) δ).trans (hesame ▸ rfl)
    rw [Round.ofChildren_cons, Delivery.tell_append, Delivery.tell_under, ← hfirst]
    exact ih hl hvalid htold (h.withChild hchild) hrest _

/-! ### patches and contexts -/

/-- The head of a patch tells the rounds of the children that it drops. -/
theorem Valid.applyHead_told {ch : Channel} {t : LiveTree} (h : t.Valid) (p : Patch)
    (forced : Bool) (δ : Delivery) : (applyHead ch p forced t δ).2 = δ.tell ch t
      (if p.clearsDims || forced then clearedRounds (Keyed.contains · p.children) t.children
        else []) := by
  have hbase := h.carries_applyBase p
  rw [applyHead]
  split
  · rw [hbase.valid.clearUnlisted_told, children_applyBase, Delivery.tell_congr hbase.observers]
  · rfl

/-- The children that a patch lists are still the same after its head. -/
theorem Valid.along_applyHead {ch : Channel} {t : LiveTree} (h : t.Valid) (p : Patch)
    (forced : Bool) (δ : Delivery) {d : Dimension} (hd : Keyed.contains d p.children) :
    (applyHead ch p forced t δ).1.along d = t.along d := by
  have hsame : (applyBase p t).along d = t.along d := by
    rw [LiveTree.along, LiveTree.along, child?, child?, children_applyBase]
  rw [applyHead]
  split
  · rw [(h.carries_applyBase p).valid.along_clearUnlisted
      (fun _ _ he => Keyed.contains_congr he p.children) hd, hsame]
  · exact hsame

/-- A patch tells its rounds, by induction on the patch. -/
theorem Valid.applyHere_told {ch : Channel} {p : Patch} (hp : p.Ordered) (forced : Bool)
    {t : LiveTree} (h : t.Valid) (δ : Delivery) :
    (applyHere ch p forced t δ).2 = δ.tell ch t (patchRounds p forced t) := by
  induction hp generalizing forced t δ with
  | @intro p sorted inner ih =>
    have hhead := (h.carries_applyHead ch p forced (tellPatch ch p forced t δ)).valid
    have hsame : ∀ e ∈ p.children,
        (applyHead ch p forced t (tellPatch ch p forced t δ)).1.along e.1 = t.along e.1 :=
      fun e he => h.along_applyHead p forced _ (Keyed.contains_iff.2 ⟨e, he, BEq.rfl⟩)
    rw [applyHere_eq, patchRounds_eq, Delivery.tell_cons, Delivery.tell_append, patchesRounds_eq,
      ← Delivery.announce_eq_tell, ← h.applyHead_told]
    exact inTurn_told (f := fun k t δ => applyHere ch k (p.clearsDims || forced) t δ)
      (g := fun k t => patchRounds k (p.clearsDims || forced) t) sorted
      (fun e he k hk δ => (hk.carries_applyHere (inner e he) ch _ δ).valid)
      (fun e he k hk δ => ih e he _ hk δ) hhead hsame _

/-- An assigned context tells its rounds, by induction on the context. -/
theorem Valid.assignHere_told {ch : Channel} {c : Context} (hc : c.Valid) {t : LiveTree}
    (h : t.Valid) (δ : Delivery) :
    (assignHere ch c t δ).2 = δ.tell ch t (assignRounds c t) := by
  induction hc generalizing t δ with
  | @intro c sorted _ _ inner ih =>
    have hbase := h.carries_assignBase c
    have hhead := hbase.valid.carries_clearUnlisted ch (Keyed.contains · c.children)
      (tellAssign ch c t δ)
    have hsame : ∀ e ∈ c.children,
        (assignHead ch c t (tellAssign ch c t δ)).1.along e.1 = t.along e.1 := by
      intro e he
      rw [assignHead, hbase.valid.along_clearUnlisted
        (fun _ _ he => Keyed.contains_congr he c.children)
        (Keyed.contains_iff.2 ⟨e, he, BEq.rfl⟩), LiveTree.along, LiveTree.along, child?, child?,
        children_assignBase]
    have htold : (assignHead ch c t (tellAssign ch c t δ)).2 =
        (δ.announce ch t.observers (.change (.assign c)) none).tell ch t
          (clearedRounds (Keyed.contains · c.children) t.children) := by
      rw [assignHead, hbase.valid.clearUnlisted_told, children_assignBase,
        Delivery.tell_congr hbase.observers, tellAssign]
    rw [assignHere_eq, assignRounds_eq, Delivery.tell_cons, Delivery.tell_append, assignsRounds_eq,
      ← Delivery.announce_eq_tell, ← htold]
    exact inTurn_told (f := assignHere ch) (g := assignRounds) sorted
      (fun e he k hk δ => (hk.carries_assignHere (inner e he) ch δ).valid)
      (fun e he k hk δ => ih e he hk δ) hhead.valid hsame _

/-- A change at a node tells its rounds. -/
theorem Valid.changeHere_told {ch : Channel} {x : Change} (hx : x.Sound) {t : LiveTree}
    (h : t.Valid) (δ : Delivery) :
    (changeHere ch x t δ).2 = δ.tell ch t (changeRounds x t) := by
  cases x with
  | patch p => exact h.applyHere_told hx false δ
  | assign c => exact h.assignHere_told hx δ
  | clear => exact h.clearHere_told δ

/-! ## upwards -/

/-- The rounds above the end of a path, the nearest ancestor first: all of the change, with what
is left of the path. -/
def roundsAbove (path : Path) (x : Change) : List Round :=
  (List.range path.length).reverse.map fun i => ⟨path.take i, .change x, some (path.drop i)⟩

/-- The rounds above a path: those above its rest, seen from the parent, and then the root. -/
theorem roundsAbove_cons (d : Dimension) (path : Path) (x : Change) :
    roundsAbove (d :: path) x =
      (roundsAbove path x).map (.under [d]) ++ [⟨[], .change x, some (d :: path)⟩] := by
  rw [roundsAbove, List.length_cons, List.range_succ_eq_map, List.reverse_cons, List.map_append,
    ← List.map_reverse, List.map_map, roundsAbove, List.map_map]
  rfl

/-- Where nobody is counted nobody is told. -/
theorem Valid.tell_eq_self {t : LiveTree} (h : t.Valid) (ht : t.headCount = 0) (ch : Channel)
    (rounds : List Round) (δ : Delivery) : δ.tell ch t rounds = δ := by
  have hnobody : rounds.flatMap (Round.notices ch t) = [] := by
    refine List.flatMap_eq_nil_iff.2 fun r _ => ?_
    rw [Round.notices, observersAt_eq, h.observers_nodeAt_eq_nil ht, List.map_nil]
  rw [Delivery.tell, hnobody]
  rfl

/-- The announcement above a node tells the rounds above it. -/
theorem Valid.announceAbove_told {t : LiveTree} (h : t.Valid) (ch : Channel) (path : Path)
    (x : Change) (δ : Delivery) :
    t.announceAbove ch path (.change x) δ = δ.tell ch t (roundsAbove path x) := by
  induction path generalizing t with
  | nil => rfl
  | cons d path ih =>
    rw [announceAbove_cons]
    split
    · next hheads => exact (h.tell_eq_self hheads ch _ δ).symm
    · rw [roundsAbove_cons, Delivery.tell_append, Delivery.tell_under, ← Delivery.announce_eq_tell,
        ih (h.along d)]
      rfl

/-- **A change is told in rounds**, upwards from the nearest ancestor and then downwards from the
node where it is carried out. -/
theorem Valid.changeAt_told {t : LiveTree} (h : t.Valid) {x : Change} (hx : x.Sound)
    (ch : Channel) (path : Path) : (t.changeAt ch path x).2 = Delivery.start.tell ch t
      (roundsAbove path x ++ (changeRounds x (t.nodeAt path)).map (.under path)) := by
  rw [changeAt, snd_editAt, (h.nodeAt path).changeHere_told hx, h.announceAbove_told,
    Delivery.tell_append, Delivery.tell_under]

/-! ## order -/

/-- No node has a round after one of a node below it, or after its own; and rounds that go
downwards show no path. -/
structure Descends (rounds : List Round) : Prop where
  order : rounds.Pairwise fun a b => b.place.leads a.place = false
  silent : ∀ r ∈ rounds, r.path = none

namespace Descends

variable {rounds others : List Round}

theorem nil : Descends [] := ⟨.nil, nofun⟩

/-- Rounds that descend do so seen from above. -/
theorem under (h : Descends rounds) (p : Path) : Descends (rounds.map (.under p)) where
  order := List.pairwise_map.2 (h.order.imp fun hab =>
    (Path.leads_append_append p _ _).trans hab)
  silent := List.forall_mem_map.2 h.silent

/-- Rounds of different children do not come into each other's way. -/
theorem leads_eq_false {d e : Dimension} (h : (e == d) = false) {a b : Round} {p q : Path}
    (ha : a.place = d :: p) (hb : b.place = e :: q) : b.place.leads a.place = false := by
  rw [ha, hb, Path.leads_cons, h, Bool.false_and]

/-- The rounds of children descend if those of each child do, since no child is below another. -/
theorem ofChildren {α : Type} {l : List (Dimension × α)} (hl : Keyed.Sorted l)
    {f : Dimension × α → List Round} (hf : ∀ e ∈ l, Descends (f e)) :
    Descends (Round.ofChildren f l) where
  order := by
    refine List.pairwise_flatMap.2 ⟨fun e he => ((hf e he).under [e.1]).order, ?_⟩
    refine hl.imp fun hlt a ha b hb => ?_
    obtain ⟨r, -, rfl⟩ := List.mem_map.1 ha
    obtain ⟨s, -, rfl⟩ := List.mem_map.1 hb
    exact leads_eq_false (Keyed.beq_eq_false_of_lt hlt) rfl rfl
  silent r hr := by
    obtain ⟨e, he, hr⟩ := List.mem_flatMap.1 hr
    exact ((hf e he).under [e.1]).silent r hr

/-- Rounds of children that are not listed and of children that are, in either order. -/
theorem append {listed : Dimension → Bool} (hlisted : ∀ d e, d == e → listed d = listed e)
    (h : Descends rounds) (hothers : Descends others)
    (hout : ∀ r ∈ rounds, ∃ d q, r.place = d :: q ∧ listed d = false)
    (hin : ∀ r ∈ others, ∃ d q, r.place = d :: q ∧ listed d = true) :
    Descends (rounds ++ others) where
  order := by
    refine List.pairwise_append.2 ⟨h.order, hothers.order, fun a ha b hb => ?_⟩
    obtain ⟨d, p, hap, hd⟩ := hout a ha
    obtain ⟨e, q, hbq, he⟩ := hin b hb
    have hne : (e == d) = false := Bool.eq_false_iff.2 fun hed => by
      rw [← hlisted e d hed, he] at hd
      cases hd
    exact leads_eq_false hne hap hbq
  silent := List.forall_mem_append.2 ⟨h.silent, hothers.silent⟩

/-- The node itself comes before all children. -/
theorem cons (h : Descends rounds) (hbelow : ∀ r ∈ rounds, ∃ d q, r.place = d :: q) (e : Event) :
    Descends (⟨[], e, none⟩ :: rounds) where
  order := by
    refine List.pairwise_cons.2 ⟨fun r hr => ?_, h.order⟩
    obtain ⟨d, q, hplace⟩ := hbelow r hr
    rw [hplace]
    rfl
  silent := List.forall_mem_cons.2 ⟨rfl, h.silent⟩

end Descends

/-- A round of cleared children is at or below a child that is not listed. -/
theorem place_of_mem_clearedRounds {listed : Dimension → Bool}
    {l : List (Dimension × LiveTree)} {r : Round} (hr : r ∈ clearedRounds listed l) :
    ∃ d q, r.place = d :: q ∧ listed d = false := by
  rw [clearedRounds_eq] at hr
  obtain ⟨e, he, q, hplace⟩ := Round.place_of_mem_ofChildren hr
  obtain ⟨-, hkeep⟩ := List.mem_filter.1 he
  rw [Bool.not_eq_true', Bool.or_eq_false_iff] at hkeep
  exact ⟨e.1, q, hplace, hkeep.2⟩

/-- The rounds of cleared children descend. -/
theorem descends_clearedRounds {l : List (Dimension × LiveTree)} (hl : Keyed.Sorted l)
    (listed : Dimension → Bool) (hclear : ∀ e ∈ l, Descends e.2.clearRounds) :
    Descends (clearedRounds listed l) := by
  rw [clearedRounds_eq]
  exact .ofChildren (hl.filter _) fun e he => hclear e (List.mem_filter.1 he).1

/-- The rounds of a clearing descend. -/
theorem Valid.descends_clearRounds {t : LiveTree} (h : t.Valid) : Descends t.clearRounds := by
  induction h with
  | @intro t sorted bases heads live inner ih =>
    rw [clearRounds_eq]
    refine (descends_clearedRounds sorted _ ih).cons (fun r hr => ?_) _
    obtain ⟨d, q, hplace, -⟩ := place_of_mem_clearedRounds hr
    exact ⟨d, q, hplace⟩

/-- The rounds at a node, of what goes there and of what changes. -/
theorem Valid.descends_node {α : Type} {t : LiveTree} (h : t.Valid) {l : List (Dimension × α)}
    (hl : Keyed.Sorted l) {f : Dimension × α → List Round} (hf : ∀ e ∈ l, Descends (f e))
    (clearing : Bool) (e : Event) : Descends (⟨[], e, none⟩ ::
      ((if clearing then clearedRounds (Keyed.contains · l) t.children else []) ++
        Round.ofChildren f l)) := by
  have hout : ∀ r ∈ (if clearing then clearedRounds (Keyed.contains · l) t.children else []),
      ∃ d q, r.place = d :: q ∧ Keyed.contains d l = false := by
    intro r hr
    split at hr
    · exact place_of_mem_clearedRounds hr
    · cases hr
  have hin : ∀ r ∈ Round.ofChildren f l,
      ∃ d q, r.place = d :: q ∧ Keyed.contains d l = true := by
    intro r hr
    obtain ⟨e, he, q, hplace⟩ := Round.place_of_mem_ofChildren hr
    exact ⟨e.1, q, hplace, Keyed.contains_iff.2 ⟨e, he, BEq.rfl⟩⟩
  have hunlisted : Descends
      (if clearing then clearedRounds (Keyed.contains · l) t.children else []) := by
    split
    · exact descends_clearedRounds h.sorted _ fun e he => (h.inner e he).descends_clearRounds
    · exact .nil
  refine (hunlisted.append (fun _ _ he => Keyed.contains_congr he l) (.ofChildren hl hf) hout
    hin).cons ?_ e
  refine List.forall_mem_append.2 ⟨fun r hr => ?_, fun r hr => ?_⟩
  · obtain ⟨d, q, hplace, -⟩ := hout r hr
    exact ⟨d, q, hplace⟩
  · obtain ⟨d, q, hplace, -⟩ := hin r hr
    exact ⟨d, q, hplace⟩

/-- The rounds of a patch descend. -/
theorem Valid.descends_patchRounds {p : Patch} (hp : p.Ordered) (forced : Bool) {t : LiveTree}
    (h : t.Valid) : Descends (patchRounds p forced t) := by
  induction hp generalizing forced t with
  | @intro p sorted inner ih =>
    rw [patchRounds_eq, patchesRounds_eq]
    exact h.descends_node sorted (fun e he => ih e he _ (h.along e.1)) _ _

/-- The rounds of an assigned context descend. -/
theorem Valid.descends_assignRounds {c : Context} (hc : c.Valid) {t : LiveTree} (h : t.Valid) :
    Descends (assignRounds c t) := by
  induction hc generalizing t with
  | @intro c sorted _ _ inner ih =>
    rw [assignRounds_eq, assignsRounds_eq]
    exact h.descends_node sorted (fun e he => ih e he (h.along e.1)) true _

/-- The first round of a change is that of its own node, and the others are below. -/
theorem Valid.changeRounds {x : Change} (hx : x.Sound) {t : LiveTree} (h : t.Valid) :
    ∃ below, LiveTree.changeRounds x t = ⟨[], .change x, none⟩ :: below ∧
      Descends (⟨[], .change x, none⟩ :: below) := by
  cases x with
  | patch p =>
    have hdescends := h.descends_patchRounds hx false
    rw [patchRounds_eq] at hdescends
    exact ⟨_, patchRounds_eq p false t, hdescends⟩
  | assign c =>
    have hdescends := h.descends_assignRounds (c := c) hx
    rw [assignRounds_eq] at hdescends
    exact ⟨_, assignRounds_eq c t, hdescends⟩
  | clear =>
    have hdescends := h.descends_clearRounds
    rw [clearRounds_eq] at hdescends
    exact ⟨_, clearRounds_eq t, hdescends⟩

/-! ## whole changes -/

/-- A round above a path is at a shorter one. -/
theorem length_lt_of_mem_roundsAbove {path : Path} {x : Change} {r : Round}
    (hr : r ∈ roundsAbove path x) : r.place.length < path.length := by
  obtain ⟨i, hi, rfl⟩ := List.mem_map.1 hr
  have hi := List.mem_range.1 (List.mem_reverse.1 hi)
  rw [List.length_take]
  omega

/-- No node above a path has two rounds. -/
theorem roundsAbove_once (path : Path) (x : Change) :
    (roundsAbove path x).Pairwise fun a b => (a.place == b.place) = false := by
  induction path with
  | nil => exact .nil
  | cons d path ih =>
    rw [roundsAbove_cons]
    refine List.pairwise_append.2
      ⟨List.pairwise_map.2 (ih.imp fun hab => ?_), List.pairwise_singleton _ _, fun a ha b hb => ?_⟩
    · rw [Round.under, Round.under, List.singleton_append, List.singleton_append,
        List.cons_beq_cons, hab, Bool.and_false]
    · obtain ⟨r, -, rfl⟩ := List.mem_map.1 ha
      obtain rfl := List.mem_singleton.1 hb
      rfl

/-- No node has two rounds, if those above come before what goes downwards from the end of the
path. -/
theorem rounds_once {path : Path} {x : Change} {downwards : List Round}
    (hdescending : downwards.Pairwise fun a b => b.place.leads a.place = false)
    (hleads : ∀ r ∈ downwards, path.leads r.place) :
    (roundsAbove path x ++ downwards).Pairwise fun a b => (a.place == b.place) = false := by
  refine List.pairwise_append.2 ⟨roundsAbove_once path x, hdescending.imp fun hab => ?_, ?_⟩
  · refine Bool.eq_false_iff.2 fun heq => ?_
    rw [Path.leads_of_beq (BEq.symm heq)] at hab
    cases hab
  · intro a ha b hb
    refine Bool.eq_false_iff.2 fun heq => ?_
    have habove := length_lt_of_mem_roundsAbove ha
    have hlength := Path.length_eq_of_beq heq
    have hbelow := Path.length_le_of_leads (hleads b hb)
    omega

/-- What is sent of a change at the end of a path: the rounds above it, each with the whole
change and what is left of the path, the nearest ancestor first; then that of its own node; then
those `below`. -/
structure ToldInRounds (t : LiveTree) (ch : Channel) (path : Path) (x : Change)
    (below : List Round) (sent : List Notice) : Prop where
  sent : sent = (roundsAbove path x ++ ⟨path, .change x, none⟩ :: below).flatMap
    (Round.notices ch t)
  /-- No node has two rounds. -/
  once : (roundsAbove path x ++ ⟨path, .change x, none⟩ :: below).Pairwise fun a b =>
    (a.place == b.place) = false
  /-- A node comes before those below it. -/
  descending : (⟨path, .change x, none⟩ :: below).Pairwise fun a b =>
    b.place.leads a.place = false
  below : ∀ r ∈ below, path.leads r.place ∧ r.path = none

/-- **Delivery is exact and ordered.**  When no notice of a change is refused, the change is told
in rounds, at most one for a node: to all ancestors upwards, with the way down from each; and
then, without a path, to the node itself and downwards to nodes below it.  Nobody else is told. -/
theorem told_in_rounds {t : LiveTree} (ht : t.Reachable) (ch : Channel) (path : Path) {x : Change}
    (hx : x.Reachable) (h : (t.changeAt ch path x).2.refusal? = none) :
    ∃ below, ToldInRounds t ch path x below (t.changeAt ch path x).2.sent := by
  obtain ⟨below, hrounds, hdescends⟩ := (ht.valid.nodeAt path).changeRounds hx.sound
  have hunder : (⟨[], .change x, none⟩ :: below).map (Round.under path) =
      ⟨path, .change x, none⟩ :: below.map (.under path) := by
    rw [List.map_cons, Round.under, List.append_nil]
  have hdescending := (hdescends.under path).order
  rw [hunder] at hdescending
  have hleads : ∀ r ∈ below.map (Round.under path), path.leads r.place ∧ r.path = none := by
    intro r hr
    refine ⟨?_, (hdescends.under path).silent r (hunder ▸ List.mem_cons_of_mem _ hr)⟩
    obtain ⟨s, -, rfl⟩ := List.mem_map.1 hr
    exact Path.leads_append path s.place
  rw [ht.valid.changeAt_told hx.sound, hrounds, hunder] at h ⊢
  refine ⟨below.map (.under path), ⟨?_, rounds_once hdescending ?_, hdescending, hleads⟩⟩
  · exact congrArg Delivery.sent (Delivery.post_eq_of_unrefused h)
  · exact List.forall_mem_cons.2 ⟨Path.leads_of_beq BEq.rfl, fun r hr => (hleads r hr).1⟩

/-- A patch is told upwards, at its own node, where it clears, and where it puts a base; the one
who stands beside all this is told nothing. -/
theorem told_in_rounds_crowd :
    let ch : Channel := ⟨fun _ => none, none⟩
    let t := (((crowd.attach [] ⟨3, true⟩).attach [.integer 1, .integer 5] ⟨4, true⟩).changeAt ch
      [.integer 1, .integer 5] (.assign (.ofBase .omega))).1
    let x := Change.patch (.setBaseAt [.integer 2] .alpha (.setClearDimsAt [] .noop))
    (∃ below, ToldInRounds t ch [.integer 1] x below (t.changeAt ch [.integer 1] x).2.sent) ∧
      (t.changeAt ch [.integer 1] x).2.sent.map (fun n => (n.observer.id, n.path)) =
        [(3, some [.integer 1]), (0, none), (0, none), (4, none), (1, none)] := by
  intro ch t x
  have ht : t.Reachable := .changeAt (.attach (.attach
    (.attach (.attach (.attach (.attach .empty _ _) _ _) _ _) _ _) _ _) _ _) _ _
    (.assign (.ofBase .omega))
  have hx : x.Reachable := .patch (.setBaseAt (.setClearDimsAt .noop _) _ _)
  exact ⟨told_in_rounds ht ch [.integer 1] hx (by decide +kernel), rfl⟩

end LiveTree

end Intension
