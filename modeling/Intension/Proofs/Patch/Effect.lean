import Intension.Patch.Compose
import Intension.Proofs.Context.Equality
import Intension.Proofs.Patch.Shape

/-!
# Intension.Proofs.Patch.Effect

What patches do to contexts, path by path: the base at a path afterwards is
what the head of the patch at that path makes of the base there before
(`baseAt_mergeInto`).  The patch of a context makes just this context of any
other, counts and all (`mergeInto_ofContext`).
-/

namespace Intension

open Std

/-! ## heads -/

/-- What a head makes of a base. -/
def Patch.Head.act (h : Head) (old : Option Scalar) : Option Scalar :=
  match h.base with
  | some v => some v
  | none => if h.clearsBase then none else old

namespace Patch

/-- Outside a clearing region an absent child keeps every base, inside it keeps none. -/
theorem act_head_absent (clearing : Bool) (old : Option Scalar) :
    (absent clearing).head.act old = if clearing then none else old := by
  cases clearing <;> rfl

/-- Equal bases are changed alike. -/
theorem Head.act_congr (h : Head) {old old' : Option Scalar} (ho : old == old') :
    h.act old == h.act old' := by
  unfold Head.act
  cases h.base with
  | some v => exact BEq.rfl
  | none =>
    cases h.clearsBase with
    | true => exact BEq.rfl
    | false => exact ho

/-! ## one node -/

/-- The node with its base as a patch wants it. -/
def mergeBase (p : Patch) (c : Context) : Context :=
  let c := if p.clearsBase then c.takeBase else c
  match p.base with
  | some v => c.putBase v
  | none => c

/-- The node after the head of a patch, its listed children still to be changed. -/
def mergeHead (p : Patch) (forced : Bool) (c : Context) : Context :=
  if p.clearsDims || forced then (p.mergeBase c).retain (Keyed.contains · p.children)
  else p.mergeBase c

/-- Merging a patch: its head, and then its children in turn. -/
theorem mergeInto_eq (p : Patch) (forced : Bool) (c : Context) : p.mergeInto forced c =
    mergeChildren p.children (p.clearsDims || forced) (p.mergeHead forced c) := by
  cases p
  rw [mergeInto.eq_def]
  rfl

/-- The base after the head of a patch. -/
theorem base_mergeBase (p : Patch) (c : Context) :
    (p.mergeBase c).base = p.head.act c.base := by
  obtain ⟨base, children, clearsBase, clearsDims, _, _⟩ := p
  cases base <;> cases clearsBase <;> rfl

theorem along_mergeBase (p : Patch) (c : Context) (d : Dimension) :
    (p.mergeBase c).along d = c.along d := by
  unfold mergeBase
  cases p.base <;> cases p.clearsBase <;> rfl

/-- The base of a patch keeps a context valid. -/
theorem valid_mergeBase (p : Patch) {c : Context} (hc : c.Valid) : (p.mergeBase c).Valid := by
  have hclear : (if p.clearsBase then c.takeBase else c).Valid := by
    split
    · exact hc.takeBase
    · exact hc
  unfold mergeBase
  cases p.base with
  | none => exact hclear
  | some v => exact hclear.putBase v

theorem base_mergeHead (p : Patch) (forced : Bool) (c : Context) :
    (p.mergeHead forced c).base = p.head.act c.base := by
  rw [← base_mergeBase, mergeHead]
  split
  · exact Context.base_retain _ _
  · rfl

/-- The head of a patch empties, where it clears, the children that it does not list. -/
theorem along_mergeHead (p : Patch) (forced : Bool) (c : Context) (d : Dimension) :
    (p.mergeHead forced c).along d =
      if (p.clearsDims || forced) && !Keyed.contains d p.children then .empty
      else c.along d := by
  have hkeep : ∀ d e : Dimension, d == e →
      Keyed.contains d p.children = Keyed.contains e p.children :=
    fun d e h => Keyed.contains_congr h _
  rw [mergeHead]
  cases p.clearsDims || forced with
  | false => exact along_mergeBase p c d
  | true =>
    rw [if_pos rfl, Context.along_retain hkeep, along_mergeBase]
    cases Keyed.contains d p.children <;> rfl

/-- The head of a patch keeps a context valid. -/
theorem valid_mergeHead (p : Patch) (forced : Bool) {c : Context} (hc : c.Valid) :
    (p.mergeHead forced c).Valid := by
  rw [mergeHead]
  split
  · exact (valid_mergeBase p hc).retain _
  · exact valid_mergeBase p hc

/-! ## the listed children -/

theorem mergeChildren_cons (e : Dimension × Patch) (l : List (Dimension × Patch))
    (clearing : Bool) (c : Context) : mergeChildren (e :: l) clearing c =
      mergeChildren l clearing (c.withChild e.1 (e.2.mergeInto clearing)) := by
  obtain ⟨d, p⟩ := e
  rw [mergeChildren]

/-- Merging children is editing them in turn. -/
theorem mergeChildren_eq (l : List (Dimension × Patch)) (clearing : Bool) (c : Context) :
    mergeChildren l clearing c =
      l.foldl (fun c e => c.withChild e.1 (e.2.mergeInto clearing)) c := by
  induction l generalizing c with
  | nil => rfl
  | cons e l ih => rw [mergeChildren_cons, ih, List.foldl_cons]

/-- Merging children leaves the base of the node as it is. -/
theorem base_mergeChildren (l : List (Dimension × Patch)) (clearing : Bool) (c : Context) :
    (mergeChildren l clearing c).base = c.base := by
  induction l generalizing c with
  | nil => rfl
  | cons e l ih => rw [mergeChildren_cons, ih, Context.base_withChild]

section

variable {clearing : Bool} {l : List (Dimension × Patch)}
  (hl : ∀ e ∈ l, ∀ c : Context, c.Valid → (e.2.mergeInto clearing c).Valid)
include hl

/-- Merging children keeps a context valid if merging each of them does. -/
theorem valid_mergeChildren {c : Context} (hc : c.Valid) :
    (mergeChildren l clearing c).Valid := by
  induction l generalizing c with
  | nil => exact hc
  | cons e l ih =>
    obtain ⟨he, hl⟩ := List.forall_mem_cons.1 hl
    rw [mergeChildren_cons]
    exact ih hl (hc.withChild (he _ (hc.along e.1)))

/-- Each listed child is changed by its own part, the others not at all. -/
theorem along_mergeChildren (hsorted : Keyed.Sorted l) {c : Context} (hc : c.Valid)
    (d : Dimension) : (mergeChildren l clearing c).along d =
      (Keyed.get? d l).elim (c.along d) fun p => p.mergeInto clearing (c.along d) := by
  induction l generalizing c with
  | nil => rfl
  | cons e l ih =>
    obtain ⟨he, hl⟩ := List.forall_mem_cons.1 hl
    obtain ⟨hlt, hsorted⟩ := Keyed.sorted_cons.1 hsorted
    have hvalid := he _ (hc.along e.1)
    rw [mergeChildren_cons, ih hl hsorted (hc.withChild hvalid),
      Context.along_withChild hvalid, Keyed.get?_cons]
    by_cases hd : d == e.1
    · have hnone : Keyed.get? d l = none := Keyed.get?_eq_none_of_beq hd hlt
      rw [if_pos hd, if_pos hd, hnone, Context.along_congr hd]
      rfl
    · rw [if_neg hd, if_neg hd]

end

/-! ## whole patches -/

/-- A patch keeps the shape of contexts. -/
theorem Ordered.valid_mergeInto {p : Patch} (hp : p.Ordered) (forced : Bool) {c : Context}
    (hc : c.Valid) : (p.mergeInto forced c).Valid := by
  induction hp generalizing forced c with
  | @intro p _ _ ih =>
    rw [mergeInto_eq]
    exact valid_mergeChildren (fun e he c hc => ih e he _ hc) (valid_mergeHead p forced hc)

/-- A child after a patch: merged with its part of the patch, and else emptied or left. -/
theorem Ordered.along_mergeInto {p : Patch} (hp : p.Ordered) (forced : Bool) {c : Context}
    (hc : c.Valid) (d : Dimension) : (p.mergeInto forced c).along d =
      (p.child? d).elim (if p.clearsDims || forced then .empty else c.along d)
        fun k => k.mergeInto (p.clearsDims || forced) (c.along d) := by
  rw [mergeInto_eq, along_mergeChildren (fun e he c hc => (hp.inner e he).valid_mergeInto _ hc)
    hp.sorted (valid_mergeHead p forced hc), along_mergeHead, Keyed.contains, Patch.child?]
  cases Keyed.get? d p.children <;> simp

/-- **A patch acts on each base through its head at that path.** -/
theorem baseAt_mergeInto {p : Patch} (hp : p.Ordered) (forced : Bool) {c : Context}
    (hc : c.Valid) (q : Path) :
    (p.mergeInto forced c).baseAt q = (p.headAt forced q).act (c.baseAt q) := by
  induction hp generalizing forced c q with
  | @intro p sorted inner ih =>
    have hp : p.Ordered := .intro sorted inner
    cases q with
    | nil =>
      rw [Context.baseAt_nil, mergeInto_eq, base_mergeChildren, base_mergeHead]
      rfl
    | cons d q =>
      rw [Context.baseAt_cons, Context.baseAt_cons, hp.along_mergeInto forced hc, headAt_cons,
        along]
      cases hk : p.child? d with
      | none =>
        rw [Option.getD_none, headAt_absent, act_head_absent]
        cases p.clearsDims || forced <;> simp
      | some k =>
        obtain ⟨e, -, he⟩ := Keyed.mem_of_get? hk
        exact ih _ he _ (hc.along d) q

/-- A patch with the mark to clear dimensions set acts as it does in a clearing region. -/
theorem act_headAt_setDimsMark {p : Patch} (hp : p.Ordered) (q : Path) (old : Option Scalar) :
    ((p.setDimsMark true false).headAt false q).act old = (p.headAt true q).act old := by
  rw [setDimsMark]
  by_cases hclears : p.clearsDims
  · rw [if_pos (by simp [hclears])]
    cases q with
    | nil => rfl
    | cons d q => simp [headAt_cons, along, hclears]
  · rw [if_neg (by simp [hclears]),
      headAt_normalize (hp.of_children_eq (k := { p with clearsDims := true }) rfl)]
    cases q with
    | nil => rfl
    | cons d q => simp [headAt_cons, along, child?]

/-! ## the patch of a context -/

theorem ofContext_eq (c : Context) :
    ofContext c = node c.base true true (ofContexts c.children) := by
  cases c
  rw [ofContext]

theorem children_ofContext (c : Context) : (ofContext c).children = ofContexts c.children := by
  rw [ofContext_eq]
  rfl

theorem clearsDims_ofContext (c : Context) : (ofContext c).clearsDims = true := by
  rw [ofContext_eq]
  rfl

theorem ofContexts_eq (l : List (Dimension × Context)) :
    ofContexts l = l.map fun e => (e.1, ofContext e.2) := by
  induction l with
  | nil => rfl
  | cons e l ih =>
    obtain ⟨d, c⟩ := e
    rw [ofContexts, ih]
    rfl

/-- The patch of a context lists the children of the context. -/
theorem contains_ofContext (d : Dimension) (c : Context) :
    Keyed.contains d (ofContext c).children = Keyed.contains d c.children := by
  rw [children_ofContext, ofContexts_eq, Keyed.contains, Keyed.get?_map_value, Option.isSome_map]
  rfl

/-- The patch of a context is in order. -/
theorem ordered_ofContext {c : Context} (hc : c.Valid) : (ofContext c).Ordered := by
  induction hc with
  | @intro c sorted _ _ _ ih =>
    rw [ofContext_eq, ofContexts_eq]
    refine ordered_node (List.pairwise_map.2 sorted) fun e he => ?_
    obtain ⟨k, hk, rfl⟩ := List.mem_map.1 he
    exact ih k hk

/-- The patch of a context says everywhere to put the base that the context has there. -/
theorem headAt_ofContext (c : Context) (forced : Bool) (q : Path) :
    (ofContext c).headAt forced q = ⟨c.baseAt q, true, true⟩ := by
  induction q generalizing c forced with
  | nil =>
    rw [ofContext_eq]
    rfl
  | cons d q ih =>
    rw [headAt_cons, along, ofContext_eq, Context.baseAt_cons, Context.along]
    show ((Keyed.get? d (ofContexts c.children)).getD clearAll).headAt true q = _
    rw [ofContexts_eq, Keyed.get?_map_value, Context.child?]
    cases Keyed.get? d c.children with
    | none =>
      rw [Option.map_none, Option.getD_none, Option.getD_none, Context.baseAt_empty]
      exact headAt_absent true q
    | some k => exact ih k true

/-- The patches of contexts, carried out in turn, store these contexts in turn. -/
theorem children_mergeChildren_ofContexts {l : List (Dimension × Context)}
    (hmade : ∀ e ∈ l, ∀ c : Context, c.Valid → (ofContext e.2).mergeInto true c = e.2)
    (hvalid : ∀ e ∈ l, e.2.Valid) (hnonempty : ∀ e ∈ l, e.2.isEmpty = false) {c : Context}
    (hc : c.Valid) : (mergeChildren (ofContexts l) true c).children =
      l.foldl (fun done e => Keyed.insert e.1 e.2 done) c.children := by
  induction l generalizing c with
  | nil => rfl
  | cons e l ih =>
    obtain ⟨he, hmade⟩ := List.forall_mem_cons.1 hmade
    obtain ⟨hevalid, hvalid⟩ := List.forall_mem_cons.1 hvalid
    obtain ⟨hne, hnonempty⟩ := List.forall_mem_cons.1 hnonempty
    have hchild : (ofContext e.2).mergeInto true (c.along e.1) = e.2 := he _ (hc.along e.1)
    have hchildren : (c.withChild e.1 ((ofContext e.2).mergeInto true)).children =
        Keyed.insert e.1 e.2 c.children := by
      rw [Context.children_withChild, hchild, Context.stored, hne, if_neg Bool.false_ne_true,
        Keyed.store]
    have hstep : (c.withChild e.1 ((ofContext e.2).mergeInto true)).Valid :=
      hc.withChild (hchild.symm ▸ hevalid)
    rw [ofContexts_eq, List.map_cons, ← ofContexts_eq, mergeChildren_cons,
      ih hmade hvalid hnonempty hstep, hchildren, List.foldl_cons]

/-- A patch of a context keeps no child that the context does not have. -/
theorem contains_of_mem_mergeHead_ofContext {c d : Context} (forced : Bool)
    {e : Dimension × Context} (he : e ∈ ((ofContext d).mergeHead forced c).children) :
    Keyed.contains e.1 d.children := by
  rw [mergeHead, clearsDims_ofContext, Bool.true_or, if_pos rfl, Context.children_retain] at he
  rw [← contains_ofContext]
  exact (List.mem_filter.1 he).2

/-- **The patch of a context makes it of any other**: the same tree, keys and counts included. -/
theorem mergeInto_ofContext {d : Context} (hd : d.Valid) (forced : Bool) {c : Context}
    (hc : c.Valid) : (ofContext d).mergeInto forced c = d := by
  induction hd generalizing forced c with
  | @intro d sorted count nonempty inner ih =>
    have hd : d.Valid := .intro sorted count nonempty inner
    have hhead := valid_mergeHead (ofContext d) forced hc
    refine ((ordered_ofContext hd).valid_mergeInto forced hc).ext hd ?_ ?_
    · rw [mergeInto_eq, base_mergeChildren, base_mergeHead, ofContext_eq]
      cases hbase : d.base <;> rfl
    · rw [mergeInto_eq, children_ofContext, clearsDims_ofContext, Bool.true_or,
        children_mergeChildren_ofContexts (fun e he c hc => ih e he true hc) inner nonempty hhead]
      exact Keyed.foldl_insert_eq sorted hhead.sorted fun _ he =>
        contains_of_mem_mergeHead_ofContext forced he

end Patch

namespace Context

/-- A patch of a context makes any other equal to it. -/
theorem act_head_ofContext (v old : Option Scalar) :
    (⟨v, true, true⟩ : Patch.Head).act old = v := by
  cases v <;> rfl

/-- A context stays valid when a patch is applied. -/
theorem Valid.apply {c : Context} (hc : c.Valid) {p : Patch} (hp : p.Ordered) :
    (c.apply p).Valid := hp.valid_mergeInto false hc

/-- The base at a path after a patch is what the head of the patch there makes of it. -/
theorem baseAt_apply {c : Context} (hc : c.Valid) {p : Patch} (hp : p.Ordered) (q : Path) :
    (c.apply p).baseAt q = (p.headAt false q).act (c.baseAt q) :=
  Patch.baseAt_mergeInto hp false hc q

/-- Applying the patch of a context gives this context, whatever was there. -/
theorem apply_ofContext {c d : Context} (hc : c.Valid) (hd : d.Valid) :
    c.apply (.ofContext d) = d := Patch.mergeInto_ofContext hd false hc

/-- The context of a context's patch is the context. -/
theorem ofPatch_ofContext {c : Context} (hc : c.Valid) : ofPatch (Patch.ofContext c) = c :=
  apply_ofContext valid_empty hc

end Context

end Intension
