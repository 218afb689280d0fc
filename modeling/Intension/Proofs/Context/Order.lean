import Intension.Proofs.Context.Equality

/-!
# Intension.Proofs.Context.Order

The total order of contexts as the lexicographic order of a flat listing
(`compareListings_append`).  The order of listings is total on all lists, so
what holds of it holds of contexts of the right shape.
-/

namespace Intension.Context

open Std

/-! ## listings -/

/-- One entry of a listing: the base of a node, the dimension of a child, or the end of the
children, which has neither and lies below every dimension. -/
abbrev Piece := Option Scalar × Option Dimension

/-- The order of pieces. -/
def comparePieces : Piece → Piece → Ordering :=
  compareLex (compareOn Prod.fst) (compareOn Prod.snd)

instance : TransCmp comparePieces := by
  unfold comparePieces
  infer_instance

mutual

/-- A context as it is compared: the base and then the children in turn, each after its
dimension. -/
def listing : Context → List Piece
  | ⟨base, children, _⟩ => (base, none) :: listings children

/-- Children as they are compared. -/
def listings : List (Dimension × Context) → List Piece
  | [] => [(none, none)]
  | (d, c) :: rest => (none, some d) :: (listing c ++ listings rest)

end

/-- A listing starts with the base of the node. -/
theorem listing_eq (c : Context) : c.listing = (c.base, none) :: listings c.children := by
  cases c
  rw [listing]

/-- The order of listings. -/
def compareListings : List Piece → List Piece → Ordering := List.compareLex comparePieces

instance : TransCmp compareListings := by
  unfold compareListings
  infer_instance

/-- Listings are compared piece by piece, from the first. -/
@[simp] theorem compareListings_cons_cons (x y : Piece) (s t : List Piece) :
    compareListings (x :: s) (y :: t) = (comparePieces x y).then (compareListings s t) :=
  List.compareLex_cons_cons

/-- Pieces that are bases are compared as bases. -/
@[simp] theorem comparePieces_base (v w : Option Scalar) :
    comparePieces (v, none) (w, none) = compare v w := by
  simp [comparePieces, compareLex, compareOn, compare]

/-- Pieces that are dimensions are compared as dimensions. -/
@[simp] theorem comparePieces_dimension (d e : Dimension) :
    comparePieces (none, some d) (none, some e) = compare d e := by
  simp [comparePieces, compareLex, compareOn, compare]

/-- The order of children as that of their listings, whatever follows. -/
theorem compareListings_listings_append {byCount : Ordering} {l m : List (Dimension × Context)}
    (hl : ∀ e ∈ l, e.2.Valid ∧ e.2.isEmpty = false)
    (hm : ∀ k ∈ m, k.2.Valid ∧ k.2.isEmpty = false)
    (hpair : ∀ e ∈ l, ∀ k ∈ m, ∀ s t, compareListings (e.2.listing ++ s) (k.2.listing ++ t) =
      (cmp e.2 k.2).then (compareListings s t))
    (hcount : byCount = .eq → totalBases l = totalBases m) (s t : List Piece) :
    compareListings (listings l ++ s) (listings m ++ t) =
      (cmpChildren byCount l m).then (compareListings s t) := by
  induction l generalizing m with
  | nil =>
    cases m with
    | nil => simp [listings, cmpChildren, comparePieces, compareLex, compareOn, compare]
    | cons k m =>
      have hne : byCount ≠ .eq := fun hc =>
        totalBases_cons_ne (hm k List.mem_cons_self).2 (hcount hc).symm
      simp [listings, cmpChildren, comparePieces, compareLex, compareOn, compare, hne]
  | cons e l ih =>
    obtain ⟨⟨hvalid, he⟩, hl⟩ := List.forall_mem_cons.1 hl
    cases m with
    | nil =>
      have hne : byCount ≠ .eq := fun hc => totalBases_cons_ne he (hcount hc)
      rw [cmpChildren_cons_nil he]
      simp [listings, comparePieces, compareLex, compareOn, compare, hne]
    | cons k m =>
      obtain ⟨⟨hvalid', _⟩, hm⟩ := List.forall_mem_cons.1 hm
      have hek := hpair e List.mem_cons_self k List.mem_cons_self
      rw [cmpChildren_cons_cons he]
      simp only [listings, List.cons_append, List.append_assoc, compareListings_cons_cons,
        comparePieces_dimension, hek]
      -- the tails matter only where the first children compare equal, and so count alike
      cases hcmp : cmp e.2 k.2 with
      | lt => cases compare e.1 k.1 <;> rfl
      | gt => cases compare e.1 k.1 <;> rfl
      | eq =>
        have hsame := baseCount_eq_of_cmp_eq hvalid hvalid' hcmp
        rw [ih hl hm ?_ ?_]
        · cases compare e.1 k.1 <;> rfl
        · exact fun x hx y hy => hpair x (List.mem_cons_of_mem _ hx) y (List.mem_cons_of_mem _ hy)
        · exact fun hc => totalBases_tail hsame (hcount hc)

/-- **The order of contexts is that of their listings**, whatever follows them. -/
theorem compareListings_append {a b : Context} (ha : a.Valid) (hb : b.Valid) (s t : List Piece) :
    compareListings (a.listing ++ s) (b.listing ++ t) = (cmp a b).then (compareListings s t) := by
  induction ha generalizing b s t with
  | @intro a sorted count nonempty inner ih =>
    have ha : a.Valid := .intro sorted count nonempty inner
    rw [listing_eq, listing_eq, cmp_eq, live_children hb]
    simp only [List.cons_append, compareListings_cons_cons, comparePieces_base]
    cases hbase : compare a.base b.base with
    | lt => rfl
    | gt => rfl
    | eq =>
      rw [compareListings_listings_append (fun e he => ⟨inner e he, nonempty e he⟩)
        (fun k hk => ⟨hb.inner k hk, hb.nonempty k hk⟩)
        (fun e he k hk => ih e he (hb.inner k hk)) (fun hc => ?_)]
      · rfl
      · exact (totalBases_eq_iff ha hb (compare_eq_iff_beq.1 hbase)).2 (Nat.compare_eq_eq.1 hc)

/-- **Contexts of the right shape are compared as their listings are**, which is a lexicographic
order. -/
theorem compare_eq_compareListings {a b : Context} (ha : a.Valid) (hb : b.Valid) :
    compare a b = compareListings a.listing b.listing := by
  have h := compareListings_append ha hb [] []
  rw [List.append_nil, List.append_nil] at h
  rw [h]
  show cmp a b = (cmp a b).then .eq
  cases cmp a b <;> rfl

/-! ## a total order -/

/-- The order of contexts of the right shape. -/
def compareValid (a b : {c : Context // c.Valid}) : Ordering := compare a.1 b.1

theorem compareValid_eq (a b : {c : Context // c.Valid}) :
    compareValid a b = compareListings a.1.listing b.1.listing :=
  compare_eq_compareListings a.2 b.2

instance : TransCmp compareValid where
  eq_swap {a b} := by
    rw [compareValid_eq, compareValid_eq]
    exact OrientedCmp.eq_swap
  isLE_trans {a b c} hab hbc := by
    rw [compareValid_eq] at hab hbc ⊢
    exact TransCmp.isLE_trans hab hbc

namespace Valid

variable {a b c : Context}

/-- The order is the reverse of itself from the other side. -/
theorem compare_swap (ha : a.Valid) (hb : b.Valid) : compare a b = (compare b a).swap :=
  @OrientedCmp.eq_swap _ compareValid _ ⟨a, ha⟩ ⟨b, hb⟩

/-- The order is transitive. -/
theorem isLE_trans (ha : a.Valid) (hb : b.Valid) (hc : c.Valid) (hab : (compare a b).isLE)
    (hbc : (compare b c).isLE) : (compare a c).isLE :=
  @TransCmp.isLE_trans _ compareValid _ ⟨a, ha⟩ ⟨b, hb⟩ ⟨c, hc⟩ hab hbc

theorem lt_trans (ha : a.Valid) (hb : b.Valid) (hc : c.Valid) (hab : compare a b = .lt)
    (hbc : compare b c = .lt) : compare a c = .lt :=
  @TransCmp.lt_trans _ compareValid _ ⟨a, ha⟩ ⟨b, hb⟩ ⟨c, hc⟩ hab hbc

/-- What is equal to a smaller context is smaller. -/
theorem lt_of_eq_of_lt (ha : a.Valid) (hb : b.Valid) (hc : c.Valid) (hab : compare a b = .eq)
    (hbc : compare b c = .lt) : compare a c = .lt :=
  @TransCmp.lt_of_eq_of_lt _ compareValid _ ⟨a, ha⟩ ⟨b, hb⟩ ⟨c, hc⟩ hab hbc

end Valid

end Intension.Context
