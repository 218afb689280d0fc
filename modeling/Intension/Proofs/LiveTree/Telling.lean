import Intension.Proofs.LiveTree.Changing
import Intension.Proofs.Path

/-!
# Intension.Proofs.LiveTree.Telling

What one observer is told.  An observer that stands at a single place of a tree
(`Stands`) is told its part of a change at most once, and which part that is can
be read off the change and the path to its place (`Change.partAt`): the patch or
context at that place, a mark set where the patch is in a clearing region, a
clearing if the place is dropped with something in it, and else nothing.

Deliveries are followed by what they add for this observer (`Delivery.Tells`),
so long as nobody refuses a notice.
-/

namespace Intension

/-! ## deliveries -/

namespace Delivery

/-- The notices sent to an observer. -/
def sentTo (o : Observer) (δ : Delivery) : List Notice :=
  δ.sent.filter (·.observer.id == o.id)

/-- Unless a notice was refused, the observer was told just `told` from `δ` to `δ'`. -/
def Tells (o : Observer) (told : List Notice) (δ δ' : Delivery) : Prop :=
  δ'.refusal? = none → δ.refusal? = none ∧ δ'.sentTo o = δ.sentTo o ++ told

/-- Where nothing is sent the observer is told nothing. -/
theorem tells_nil (o : Observer) (δ : Delivery) : Tells o [] δ δ :=
  fun h => ⟨h, (List.append_nil _).symm⟩

/-- In two steps the observer is told what it is told in each. -/
theorem Tells.trans {o : Observer} {a b : List Notice} {δ δ' δ'' : Delivery}
    (h : Tells o a δ δ') (h' : Tells o b δ' δ'') : Tells o (a ++ b) δ δ'' := by
  intro hnone
  obtain ⟨hnone', hb⟩ := h' hnone
  obtain ⟨hnone, ha⟩ := h hnone'
  exact ⟨hnone, by rw [hb, ha, List.append_assoc]⟩

/-- The notices told may be replaced by equal ones. -/
theorem Tells.congr {o : Observer} {a b : List Notice} {δ δ' : Delivery} (h : Tells o a δ δ')
    (hab : b = a) : Tells o b δ δ' := hab ▸ h

/-- One notice is told to the observer that it is for. -/
theorem tells_send (o : Observer) (ch : Channel) (n : Notice) (δ : Delivery) :
    Tells o (if n.observer.id == o.id then [n] else []) δ (δ.send ch n) := by
  intro hnone
  cases hrefusal : δ.refusal? with
  | some r =>
    have hsame : δ.send ch n = δ := by rw [send, hrefusal]
    rw [hsame, hrefusal] at hnone
    cases hnone
  | none =>
    have hsent : (δ.send ch n).sent = δ.sent ++ [n] := by rw [send, hrefusal]
    refine ⟨rfl, ?_⟩
    rw [sentTo, hsent, List.filter_append, List.filter_cons, List.filter_nil, sentTo]

/-- The observers of a node are told in turn, those of another number to no avail. -/
theorem tells_announce (o : Observer) (ch : Channel) (observers : List Observer) (e : Event)
    (path : Option Path) (δ : Delivery) :
    Tells o ((observers.filter (·.id == o.id)).map fun x => ⟨x, e.toldTo x, path, ch.origin⟩) δ
      (δ.announce ch observers e path) := by
  induction observers generalizing δ with
  | nil => exact tells_nil o δ
  | cons x observers ih =>
    have hall := (tells_send o ch ⟨x, e.toldTo x, path, ch.origin⟩ δ).trans (ih _)
    rw [List.filter_cons]
    split
    · next hx =>
      rw [if_pos hx] at hall
      exact hall
    · next hx =>
      rw [if_neg hx] at hall
      exact hall

end Delivery

open Delivery

/-- The notice that an observer gets of a change, if it gets one. -/
def Observer.notes (o : Observer) (ch : Channel) (path : Option Path) (x? : Option Change) :
    List Notice :=
  x?.toList.map fun x => ⟨o, (Event.change x).toldTo o, path, ch.origin⟩

/-! ## one place -/

namespace LiveTree

/-- The observer, and nobody else of its number, stands at `place`; nowhere if there is
no place. -/
def Stands (o : Observer) (place : Option Path) (t : LiveTree) : Prop :=
  ∀ q, (t.nodeAt q).observers.filter (·.id == o.id) = if place.any (· == q) then [o] else []

namespace Stands

variable {o : Observer} {place : Option Path} {t t' : LiveTree}

/-- Where an observer stands is a matter of the observers of the nodes alone. -/
theorem congr (h : Stands o place t)
    (ht : ∀ q, (t'.nodeAt q).observers = (t.nodeAt q).observers) : Stands o place t' :=
  fun q => by rw [ht, h q]

/-- Seen from a child the place is what is left of it. -/
theorem along (h : Stands o place t) (d : Dimension) :
    Stands o (place.bind (Path.after? [d])) (t.along d) := by
  intro q
  rw [← LiveTree.nodeAt, h (d :: q)]
  cases place with
  | none => rfl
  | some r =>
    cases r with
    | nil => rfl
    | cons e r =>
      rw [Option.bind_some, Path.after?_cons, Path.after?_nil]
      have hcons : (e :: r == d :: q) = ((d == e) && (r == q)) := by
        rw [List.cons_beq_cons, BEq.comm (a := e)]
      cases hde : d == e <;> simp [hcons, hde]

/-- Seen from a node, the observer stands at what is left of its place. -/
theorem nodeAt (h : Stands o place t) (p : Path) :
    Stands o (place.bind (Path.after? p)) (t.nodeAt p) := by
  induction p generalizing t place with
  | nil =>
    cases place <;> exact h
  | cons d p ih =>
    have hplace : place.bind (Path.after? (d :: p)) =
        (place.bind (Path.after? [d])).bind (Path.after? p) := by
      cases place with
      | none => rfl
      | some r =>
        cases r with
        | nil => rfl
        | cons e r =>
          rw [Option.bind_some, Option.bind_some, Path.after?_cons, Path.after?_cons]
          split <;> rfl
    rw [hplace]
    exact ih (h.along d)

/-- What those are told who stand at the top. -/
theorem tells_announce (h : Stands o place t) (ch : Channel) (x : Change) (path : Option Path)
    (δ : Delivery) :
    Tells o (o.notes ch path (place.bind fun q => if q.isEmpty then some x else none)) δ
      (δ.announce ch t.observers (.change x) path) := by
  have hall := Delivery.tells_announce o ch t.observers (.change x) path δ
  rw [show t.observers = (t.nodeAt []).observers from rfl, h []] at hall
  cases place with
  | none => exact hall
  | some q => cases q <;> exact hall

end Stands

/-! ## which part is told -/

/-- What those are told at the end of a path below a node that is cleared unless it is empty:
a clearing, but nothing where there is nothing to clear. -/
def doomed (t : LiveTree) (q : Path) : Option Change :=
  if (t.nodeAt q).isEmpty then none else some .clear

theorem doomed_along (t : LiveTree) (d : Dimension) (q : Path) :
    (t.along d).doomed q = t.doomed (d :: q) := rfl

/-- What those below a cleared node are told does not depend on how their path is spelled. -/
theorem doomed_congr {d e : Dimension} (h : d == e) (t : LiveTree) (q : Path) :
    t.doomed (d :: q) = t.doomed (e :: q) := by
  rw [← doomed_along, along_congr h, doomed_along]

/-- A tree in which nothing changed along a dimension dooms those there as before. -/
theorem Valid.doomed_eq {t t' : LiveTree} (h : t.Valid) (h' : t'.Valid) {d : Dimension}
    (hd : t'.snapshot.along d = t.snapshot.along d) (q : Path) :
    t'.doomed (d :: q) = t.doomed (d :: q) := by
  rw [h.along_snapshot, h'.along_snapshot] at hd
  have hnode : ((t'.along d).nodeAt q).snapshot = ((t.along d).nodeAt q).snapshot := by
    rw [← (h'.along d).nodeAt_snapshot, hd, (h.along d).nodeAt_snapshot]
  rw [doomed, doomed, LiveTree.nodeAt, LiveTree.nodeAt, ← ((h.along d).nodeAt q).isEmpty_snapshot,
    ← ((h'.along d).nodeAt q).isEmpty_snapshot, hnode]

end LiveTree

/-- What is told at the end of a path below a patch; those whose node the patch drops are
told `doomed`. -/
def Patch.partAt (doomed : Option Change) (forced : Bool) (p : Patch) : Path → Option Change
  | [] => some (.patch (if forced then p.setClearDimsAt [] else p))
  | d :: q => match p.child? d with
    | some k => k.partAt doomed (p.clearsDims || forced) q
    | none => if p.clearsDims || forced then doomed else none

/-- Below a key a patch tells what its child tells, or what those are told whose node it drops. -/
theorem Patch.partAt_cons (doomed : Option Change) (forced : Bool) (p : Patch) (d : Dimension)
    (q : Path) : p.partAt doomed forced (d :: q) =
      (p.child? d).elim (if p.clearsDims || forced then doomed else none)
        fun k => k.partAt doomed (p.clearsDims || forced) q := by
  rw [partAt]
  cases p.child? d <;> rfl

/-- What is told at the end of a path below a context that is assigned. -/
def Context.partAt (doomed : Option Change) (c : Context) : Path → Option Change
  | [] => some (.assign c)
  | d :: q => match c.child? d with
    | some k => k.partAt doomed q
    | none => doomed

/-- Below a key an assigned context tells what its child tells, or what those are told whose node it
drops. -/
theorem Context.partAt_cons (doomed : Option Change) (c : Context) (d : Dimension) (q : Path) :
    c.partAt doomed (d :: q) = (c.child? d).elim doomed fun k => k.partAt doomed q := by
  rw [partAt]
  cases c.child? d <;> rfl

/-- What is told at the end of a path below a change. -/
def Change.partAt (doomed : Option Change) (x : Change) (q : Path) : Option Change :=
  match x with
  | .patch p => p.partAt doomed false q
  | .assign c => c.partAt doomed q
  | .clear => if q.isEmpty then some .clear else doomed

namespace LiveTree

/-- What is told at the end of a path below a node that drops the children that are not
listed. -/
def unlistedPart (listed : Dimension → Bool) (t : LiveTree) : Path → Option Change
  | [] => none
  | d :: q => if listed d then none else t.doomed (d :: q)

/-- What is told at the end of a path below a node whose listed children are changed. -/
def listedPart {α : Type} (part : Option Change → α → Path → Option Change)
    (l : List (Dimension × α)) (t : LiveTree) : Path → Option Change
  | [] => none
  | d :: q => (Keyed.get? d l).bind fun x => part (t.doomed (d :: q)) x q

/-! ## clearing -/

section clearing

variable {o : Observer} {place : Option Path}

/-- What is told below some children that are cleared if they are not listed. -/
def clearedPart (listed : Dimension → Bool) (l : List (Dimension × LiveTree)) :
    Path → Option Change
  | [] => none
  | d :: q => if listed d then none else (Keyed.get? d l).bind (·.doomed q)

/-- What is told below cleared children, for all children of a node. -/
theorem clearedPart_children (listed : Dimension → Bool) (t : LiveTree) :
    clearedPart listed t.children = t.unlistedPart listed := by
  funext q
  cases q with
  | nil => rfl
  | cons d q =>
    rw [clearedPart, unlistedPart, ← doomed_along, along, child?]
    cases Keyed.get? d t.children with
    | none => simp [doomed]
    | some k => rfl

/-- A child that is empty or listed is passed over. -/
theorem clearedPart_cons_of_kept {listed : Dimension → Bool}
    (hlisted : ∀ d e, d == e → listed d = listed e) {e : Dimension × LiveTree}
    {l : List (Dimension × LiveTree)} (hlt : ∀ k ∈ l, compare e.1 k.1 = .lt) (he : e.2.Valid)
    (hkept : (e.2.isEmpty || listed e.1) = true) :
    clearedPart listed (e :: l) = clearedPart listed l := by
  funext q
  cases q with
  | nil => rfl
  | cons d q =>
    rw [clearedPart, clearedPart, Keyed.get?_cons]
    by_cases hd : d == e.1
    · rw [if_pos hd, Keyed.get?_eq_none_of_beq hd hlt, hlisted d e.1 hd]
      obtain hempty | hlist := Bool.or_eq_true_iff.1 hkept
      · rw [Option.bind_some, doomed, if_pos (he.isEmpty_nodeAt hempty q)]
        rfl
      · rw [if_pos hlist, if_pos hlist]
    · rw [if_neg hd]

/-- Clearing children in turn tells the observer below them of the clearing. -/
theorem tells_clearChildren (listed : Dimension → Bool)
    (hlisted : ∀ d e, d == e → listed d = listed e) (ch : Channel) {l : List (Dimension × LiveTree)}
    (hsorted : Keyed.Sorted l) (hvalid : ∀ e ∈ l, e.2.Valid)
    (hclear : ∀ e ∈ l, e.2.isEmpty = false → ∀ place, Stands o place e.2 → ∀ δ,
      Tells o (o.notes ch none (place.bind e.2.doomed)) δ (clearHere ch e.2 δ).2)
    (hstands : ∀ e ∈ l, Stands o (place.bind (Path.after? [e.1])) e.2) (δ : Delivery) :
    Tells o (o.notes ch none (place.bind (clearedPart listed l))) δ
      (clearChildren ch listed l δ).2 := by
  induction l generalizing δ with
  | nil =>
    have hnone : place.bind (clearedPart listed []) = none := by
      cases place with
      | none => rfl
      | some q => cases q <;> simp [clearedPart]
    rw [hnone]
    exact tells_nil o δ
  | cons e l ih =>
    obtain ⟨d, k⟩ := e
    obtain ⟨hlt, hsorted⟩ := Keyed.sorted_cons.1 hsorted
    obtain ⟨hk, hvalid⟩ := List.forall_mem_cons.1 hvalid
    obtain ⟨hkclear, hclear⟩ := List.forall_mem_cons.1 hclear
    obtain ⟨hkstands, hstands⟩ := List.forall_mem_cons.1 hstands
    have ih := ih hsorted hvalid hclear hstands
    rw [clearChildren]
    by_cases hkeep : k.isEmpty || listed d
    · rw [if_pos hkeep]
      rw [clearedPart_cons_of_kept hlisted hlt hk hkeep]
      exact ih δ
    · rw [if_neg hkeep]
      obtain ⟨hempty, hd⟩ := Bool.or_eq_false_iff.1 (Bool.eq_false_iff.2 hkeep)
      refine ((hkclear hempty _ hkstands δ).trans (ih _)).congr ?_
      rcases place with _ | _ | ⟨e, q⟩
      · rfl
      · rfl
      rw [Option.bind_some, Option.bind_some, Option.bind_some, clearedPart, clearedPart,
        Keyed.get?_cons, Path.after?_cons, BEq.comm (a := d)]
      by_cases he : e == d
      · rw [if_pos he, if_pos he, Keyed.get?_eq_none_of_beq he hlt, hlisted e d he, hd]
        exact (List.append_nil _).symm
      · rw [if_neg he, if_neg he]
        rfl

/-- A node that is not empty has something to clear. -/
theorem bind_partAt_clear {t : LiveTree} (h : t.isEmpty = false) (place : Option Path) :
    (place.bind fun q => Change.clear.partAt (t.doomed q) q) = place.bind t.doomed := by
  rcases place with _ | _ | ⟨d, q⟩
  · rfl
  · rw [Option.bind_some, Option.bind_some, doomed, LiveTree.nodeAt, h]
    rfl
  · rfl

/-- Seen from a stored child, the observer stands at what is left of its place. -/
theorem Stands.of_mem {t : LiveTree} (h : Stands o place t) (ht : t.Valid)
    {e : Dimension × LiveTree} (he : e ∈ t.children) :
    Stands o (place.bind (Path.after? [e.1])) e.2 := by
  have hk := h.along e.1
  rwa [LiveTree.along, child?, ht.sorted.get?_of_mem he] at hk

/-- Those at the top are told of a clearing, and those below it if they lose anything. -/
theorem Valid.tells_clearHere {t : LiveTree} (h : t.Valid) (hs : Stands o place t)
    (ch : Channel) (δ : Delivery) :
    Tells o (o.notes ch none (place.bind fun q => Change.clear.partAt (t.doomed q) q)) δ
      (clearHere ch t δ).2 := by
  induction h generalizing place δ with
  | @intro t sorted bases heads live inner ih =>
    have h : t.Valid := .intro sorted bases heads live inner
    have hbelow := tells_clearChildren (fun _ => false) (fun _ _ _ => rfl) ch sorted inner
      (fun e he hempty place hs δ => bind_partAt_clear hempty place ▸ ih e he hs δ)
      (fun e he => hs.of_mem h he) (δ.announce ch t.observers (.change .clear) none)
    rw [clearHere_eq]
    refine ((hs.tells_announce ch .clear none δ).trans hbelow).congr ?_
    rw [clearedPart_children]
    rcases place with _ | _ | ⟨d, q⟩ <;> rfl

/-- Clearing the children that are not listed tells the observer below one of them. -/
theorem Valid.tells_clearUnlisted {t : LiveTree} (h : t.Valid) (hs : Stands o place t)
    (listed : Dimension → Bool) (hlisted : ∀ d e, d == e → listed d = listed e) (ch : Channel)
    (δ : Delivery) :
    Tells o (o.notes ch none (place.bind (t.unlistedPart listed))) δ
      (t.clearUnlisted ch listed δ).2 := by
  rw [← clearedPart_children]
  exact tells_clearChildren listed hlisted ch h.sorted h.inner
    (fun e he hempty place hs δ =>
      bind_partAt_clear hempty place ▸ (h.inner e he).tells_clearHere hs ch δ)
    (fun e he => hs.of_mem h he) δ

end clearing

/-! ## listed children in turn -/

/-- Changing children in turn tells the observer what the change of its child tells. -/
theorem Valid.tells_inTurn {α : Type} {o : Observer} {place : Option Path} {ch : Channel}
    {f : α → LiveTree → Delivery → LiveTree × Delivery} {g : α → Context → Context}
    (part : Option Change → α → Path → Option Change) {l : List (Dimension × α)}
    (hcarries : ∀ e ∈ l, ∀ k : LiveTree, k.Valid → ∀ δ, Carries (g e.2) k (f e.2 k δ).1)
    (htells : ∀ e ∈ l, ∀ k : LiveTree, k.Valid → ∀ place, Stands o place k → ∀ δ,
      Tells o (o.notes ch none (place.bind fun q => part (k.doomed q) e.2 q)) δ (f e.2 k δ).2)
    (hsorted : Keyed.Sorted l) {t : LiveTree} (h : t.Valid) (hs : Stands o place t)
    (δ : Delivery) :
    Tells o (o.notes ch none (place.bind (listedPart part l t))) δ (inTurn f l t δ).2 := by
  induction l generalizing t δ with
  | nil =>
    have hnone : place.bind (listedPart part [] t) = none := by
      rcases place with _ | _ | ⟨d, q⟩ <;> rfl
    rw [hnone]
    exact tells_nil o δ
  | cons e l ih =>
    obtain ⟨hlt, hsorted⟩ := Keyed.sorted_cons.1 hsorted
    obtain ⟨hecarries, hcarries⟩ := List.forall_mem_cons.1 hcarries
    obtain ⟨hetells, htells⟩ := List.forall_mem_cons.1 htells
    have hk := hecarries _ (h.along e.1) δ
    have ht' := h.carries_withChild (f := fun k => f e.2 k δ) hk
    have hfirst := hetells _ (h.along e.1) _ (hs.along e.1) δ
    have hrest := ih hcarries htells hsorted ht'.valid (hs.congr ht'.observers)
      (t.withChild e.1 fun k => f e.2 k δ).2
    refine (hfirst.trans hrest).congr ?_
    rcases place with _ | _ | ⟨d, q⟩
    · rfl
    · rfl
    rw [Option.bind_some, Option.bind_some, Option.bind_some, Path.after?_cons, Path.after?_nil,
      listedPart, listedPart, Keyed.get?_cons, BEq.comm (a := e.1)]
    by_cases hd : d == e.1
    · rw [if_pos hd, if_pos hd, Keyed.get?_eq_none_of_beq hd hlt, Option.bind_some,
        Option.bind_some, doomed_along, doomed_congr hd]
      exact (List.append_nil _).symm
    · have hsame : (t.withChild e.1 fun k => f e.2 k δ).1.doomed (d :: q) = t.doomed (d :: q) := by
        rw [← doomed_along, along_withChild hk.valid, if_neg hd, doomed_along]
      rw [if_neg hd, if_neg hd, hsame]
      rfl

/-! ## merging a patch -/

/-- What is told below unlisted children depends on the children alone. -/
theorem unlistedPart_congr {listed : Dimension → Bool} {t t' : LiveTree}
    (h : t'.children = t.children) : t'.unlistedPart listed = t.unlistedPart listed := by
  rw [← clearedPart_children, h, clearedPart_children]

/-- The head of a patch tells the observers below the children that it drops. -/
theorem Valid.tells_applyHead {o : Observer} {place : Option Path} {t : LiveTree} (h : t.Valid)
    (hs : Stands o place t) (ch : Channel) (p : Patch) (forced : Bool) (δ : Delivery) :
    Tells o (o.notes ch none (place.bind fun q =>
        if p.clearsDims || forced then t.unlistedPart (Keyed.contains · p.children) q else none))
      δ (applyHead ch p forced t δ).2 := by
  rw [applyHead]
  cases p.clearsDims || forced with
  | false =>
    have hnone : (place.bind fun _ => (none : Option Change)) = none := by cases place <;> rfl
    simp only [Bool.false_eq_true, if_false, hnone]
    exact tells_nil o δ
  | true =>
    have hbase := h.carries_applyBase p
    simp only [if_true, ← unlistedPart_congr (children_applyBase p t)]
    exact hbase.valid.tells_clearUnlisted (hs.congr hbase.observers) _
      (fun _ _ he => Keyed.contains_congr he _) ch δ

/-- **What is told of a patch**, at every place. -/
theorem Valid.tells_applyHere {p : Patch} (hp : p.Ordered) (forced : Bool) {o : Observer}
    {place : Option Path} {t : LiveTree} (h : t.Valid) (hs : Stands o place t) (ch : Channel)
    (δ : Delivery) :
    Tells o (o.notes ch none (place.bind fun q => p.partAt (t.doomed q) forced q)) δ
      (applyHere ch p forced t δ).2 := by
  induction hp generalizing forced place t δ with
  | @intro p sorted inner ih =>
    have hhead := h.carries_applyHead ch p forced (tellPatch ch p forced t δ)
    have htop := hs.tells_announce ch (.patch (if forced then p.setClearDimsAt [] else p)) none δ
    have hunlisted := h.tells_applyHead hs ch p forced (tellPatch ch p forced t δ)
    have hlisted := hhead.valid.tells_inTurn
      (f := fun k t δ => applyHere ch k (p.clearsDims || forced) t δ)
      (g := fun k => k.mergeInto (p.clearsDims || forced))
      (fun doomed k q => k.partAt doomed (p.clearsDims || forced) q)
      (fun e he k hk δ => hk.carries_applyHere (inner e he) ch _ δ)
      (fun e he k hk place hs δ => ih e he (p.clearsDims || forced) hk hs δ)
      sorted (hs.congr hhead.observers) (applyHead ch p forced t (tellPatch ch p forced t δ)).2
    rw [applyHere_eq]
    refine ((htop.trans hunlisted).trans hlisted).congr ?_
    rcases place with _ | _ | ⟨d, q⟩
    · rfl
    · simp [Observer.notes, Patch.partAt, unlistedPart, listedPart]
    simp only [Option.bind_some, Patch.partAt_cons, unlistedPart, listedPart, Patch.child?]
    obtain hget | ⟨k, hget⟩ := Option.eq_none_or_eq_some (Keyed.get? d p.children)
    · have hcontains : Keyed.contains d p.children = false := by rw [Keyed.contains, hget]; rfl
      rw [hget]
      cases p.clearsDims || forced <;> simp [Observer.notes, hcontains]
    · have hcontains : Keyed.contains d p.children = true := by rw [Keyed.contains, hget]; rfl
      have halong : (applyHead ch p forced t (tellPatch ch p forced t δ)).1.snapshot.along d =
          t.snapshot.along d := by
        rw [hhead.snapshot, Patch.along_mergeHead, hcontains]
        simp
      rw [hget, h.doomed_eq hhead.valid halong]
      simp [Observer.notes, hcontains]

/-! ## assigning a context -/

/-- **What is told of a context that is assigned**, at every place. -/
theorem Valid.tells_assignHere {c : Context} (hc : c.Valid) {o : Observer}
    {place : Option Path} {t : LiveTree} (h : t.Valid) (hs : Stands o place t) (ch : Channel)
    (δ : Delivery) :
    Tells o (o.notes ch none (place.bind fun q => c.partAt (t.doomed q) q)) δ
      (assignHere ch c t δ).2 := by
  induction hc generalizing place t δ with
  | @intro c sorted _ _ inner ih =>
    have hkeep : ∀ d e : Dimension, d == e →
        Keyed.contains d c.children = Keyed.contains e c.children :=
      fun _ _ he => Keyed.contains_congr he _
    have hbase := h.carries_assignBase c
    have hhead := hbase.trans (hbase.valid.carries_clearUnlisted ch (Keyed.contains · c.children)
      (tellAssign ch c t δ))
    have htop := hs.tells_announce ch (.assign c) none δ
    have hunlisted := hbase.valid.tells_clearUnlisted (hs.congr hbase.observers) _ hkeep ch
      (tellAssign ch c t δ)
    have hlisted := hhead.valid.tells_inTurn (f := assignHere ch) (g := fun c _ => c)
      (fun doomed c q => c.partAt doomed q)
      (fun e he k hk δ => hk.carries_assignHere (inner e he) ch δ)
      (fun e he k hk place hs δ => ih e he hk hs δ)
      sorted (hs.congr hhead.observers) (assignHead ch c t (tellAssign ch c t δ)).2
    rw [assignHere_eq]
    refine ((htop.trans hunlisted).trans hlisted).congr ?_
    rw [unlistedPart_congr (children_assignBase c t)]
    rcases place with _ | _ | ⟨d, q⟩
    · rfl
    · simp [Observer.notes, Context.partAt, unlistedPart, listedPart]
    simp only [Option.bind_some, Context.partAt_cons, unlistedPart, listedPart, Context.child?]
    obtain hget | ⟨k, hget⟩ := Option.eq_none_or_eq_some (Keyed.get? d c.children)
    · have hcontains : Keyed.contains d c.children = false := by rw [Keyed.contains, hget]; rfl
      rw [hget]
      simp [Observer.notes, hcontains]
    · have hcontains : Keyed.contains d c.children = true := by rw [Keyed.contains, hget]; rfl
      have halong : (assignHead ch c t (tellAssign ch c t δ)).1.snapshot.along d =
          t.snapshot.along d := by
        refine (congrArg (Context.along · d) hhead.snapshot).trans ?_
        rw [Context.along_retain hkeep, hcontains]
        rfl
      rw [hget, h.doomed_eq hhead.valid halong]
      simp [Observer.notes, hcontains]

/-- What a change at a node tells an observer at or below this node. -/
theorem Valid.tells_changeHere {x : Change} (hx : x.Sound) {o : Observer} {place : Option Path}
    {t : LiveTree} (h : t.Valid) (hs : Stands o place t) (ch : Channel) (δ : Delivery) :
    Tells o (o.notes ch none (place.bind fun q => x.partAt (t.doomed q) q)) δ
      (changeHere ch x t δ).2 := by
  cases x with
  | patch p => exact h.tells_applyHere hx false hs ch δ
  | assign c => exact h.tells_assignHere hx hs ch δ
  | clear => exact h.tells_clearHere hs ch δ

/-! ## those above -/

theorem above_empty (path : Path) : above path empty = [] := by
  cases path <;> rfl

/-- Those above a path: the root, unless nobody is attached at all, and those above the rest. -/
theorem above_cons (d : Dimension) (path : Path) (t : LiveTree) : above (d :: path) t =
    if t.headCount = 0 then [] else (d :: path, t.observers) :: above path (t.along d) := by
  rw [above, along]
  cases t.child? d with
  | none => rw [Option.getD_none, above_empty]
  | some k => rfl

/-- The announcement above a path: first above its rest, then to the root, if anybody is attached at
all. -/
theorem announceAbove_cons (ch : Channel) (d : Dimension) (path : Path) (e : Event)
    (t : LiveTree) (δ : Delivery) : t.announceAbove ch (d :: path) e δ =
      if t.headCount = 0 then δ
      else ((t.along d).announceAbove ch path e δ).announce ch t.observers e
        (some (d :: path)) := by
  rw [announceAbove, above_cons]
  split
  · rfl
  · rw [List.reverse_cons, List.foldl_append]
    rfl

/-- The notice of those above the end of a path from whom `rest?` leads down to it. -/
def notesAbove (o : Observer) (ch : Channel) (x : Change) : (rest? : Option Path) → List Notice
  | some (d :: q) => o.notes ch (some (d :: q)) (some x)
  | _ => []

/-- What a change tells an observer above its node: the whole change, with what is left of the path.
-/
theorem Valid.tells_announceAbove {t : LiveTree} (h : t.Valid) {o : Observer}
    {place : Option Path} (hs : Stands o place t) (ch : Channel) (path : Path) (x : Change)
    (δ : Delivery) :
    Tells o (notesAbove o ch x (place.bind (Path.after? · path))) δ
      (t.announceAbove ch path (.change x) δ) := by
  induction path generalizing t place with
  | nil =>
    have hnone : notesAbove o ch x (place.bind (Path.after? · [])) = [] := by
      rcases place with _ | _ | ⟨e, q⟩ <;> rfl
    rw [hnone]
    exact tells_nil o δ
  | cons d path ih =>
    rw [announceAbove_cons]
    split
    · next hheads =>
      cases place with
      | none => exact tells_nil o δ
      | some p =>
        have hp := hs p
        rw [h.observers_nodeAt_eq_nil hheads] at hp
        simp at hp
    · have hbelow := ih (h.along d) (hs.along d)
      refine (hbelow.trans (hs.tells_announce ch x (some (d :: path)) _)).congr ?_
      rcases place with _ | _ | ⟨e, q⟩
      · rfl
      · rfl
      simp only [Option.bind_some, Path.after?_cons, Path.after?_nil]
      rw [BEq.comm (a := d)]
      by_cases he : e == d
      · rw [if_pos he, if_pos he]
        exact (List.append_nil _).symm
      · rw [if_neg he, if_neg he]
        rfl

/-- **What is told of a change at the end of a path**: to those above all of it, to those
there and below their part. -/
theorem Valid.tells_changeAt {x : Change} (hx : x.Sound) {t : LiveTree} (h : t.Valid)
    {o : Observer} {place : Option Path} (hs : Stands o place t) (ch : Channel) (path : Path) :
    Tells o (notesAbove o ch x (place.bind (Path.after? · path)) ++
        o.notes ch none ((place.bind (Path.after? path)).bind fun q =>
          x.partAt ((t.nodeAt path).doomed q) q))
      .start (t.changeAt ch path x).2 := by
  refine (h.tells_announceAbove hs ch path x .start).trans ?_
  rw [changeAt, snd_editAt]
  exact (h.nodeAt path).tells_changeHere hx (hs.nodeAt path) ch _

end LiveTree

end Intension
