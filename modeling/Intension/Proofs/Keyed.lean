import Intension.Dimension
import Intension.Proofs.Ordering
import Mathlib.Data.List.Forall2
import Mathlib.Tactic.Tauto

/-!
# Intension.Proofs.Keyed

Entries through look-ups.  What is found after an insertion or a removal needs
no order (`get?_insert`, `get?_erase`); that entries stay sorted does, and so
does the way back: sorted entries that find related values under every key are
related one by one (`forall₂_of_rel_get?`).  The edits of trees come down to
one operation, which stores a child or drops it (`store`).
-/

namespace Intension.Keyed

open Std

variable {α β : Type}

/-! ## looking up -/

@[simp] theorem get?_nil (d : Dimension) : get? d ([] : List (Dimension × α)) = none := rfl

/-- Reading a key: the first entry if the keys are equal, and else the rest. -/
theorem get?_cons (d k : Dimension) (v : α) (rest : List (Dimension × α)) :
    get? d ((k, v) :: rest) = if d == k then some v else get? d rest := rfl

/-- Equal keys read the same entry, whatever their spelling. -/
theorem get?_congr {d e : Dimension} (h : d == e) (l : List (Dimension × α)) :
    get? d l = get? e l := by
  induction l with
  | nil => rfl
  | cons entry rest ih => rw [get?_cons, get?_cons, BEq.congr_left h, ih]

/-- Equal keys are there together, whatever their spelling. -/
theorem contains_congr {d e : Dimension} (h : d == e) (l : List (Dimension × α)) :
    contains d l = contains e l := by
  rw [contains, contains, get?_congr h]

/-- What is found is stored under an equal key. -/
theorem mem_of_get? {d : Dimension} {v : α} {l : List (Dimension × α)}
    (h : get? d l = some v) : ∃ k, d == k ∧ (k, v) ∈ l := by
  induction l with
  | nil => cases h
  | cons entry rest ih =>
    obtain ⟨k, w⟩ := entry
    rw [get?_cons] at h
    split at h
    · next hk =>
      cases h
      exact ⟨k, hk, List.mem_cons_self⟩
    · obtain ⟨k', hk', hmem⟩ := ih h
      exact ⟨k', hk', List.mem_cons_of_mem _ hmem⟩

/-- Nothing is read at a key exactly if no entry has an equal key. -/
theorem get?_eq_none_iff {d : Dimension} {l : List (Dimension × α)} :
    get? d l = none ↔ ∀ e ∈ l, (d == e.1) = false := by
  induction l with
  | nil => simp
  | cons entry rest ih =>
    rw [List.forall_mem_cons, ← ih, get?_cons]
    cases d == entry.1 <;> simp

/-- A key is there exactly if some entry has an equal key. -/
theorem contains_iff {d : Dimension} {l : List (Dimension × α)} :
    contains d l ↔ ∃ e ∈ l, d == e.1 := by
  rw [contains, Option.isSome_iff_ne_none, ne_eq, get?_eq_none_iff]
  simp

/-! ## inserting and removing -/

/-- An insertion is seen under its key and nowhere else. -/
theorem get?_insert (d e : Dimension) (v : α) (l : List (Dimension × α)) :
    get? e (insert d v l) = if e == d then some v else get? e l := by
  induction l with
  | nil => rfl
  | cons entry rest ih =>
    obtain ⟨k, w⟩ := entry
    rw [insert]
    cases hdk : compare d k with
    | lt => rfl
    | eq =>
      have hk : (e == d) = (e == k) := BEq.congr_right (compare_eq_iff_beq.1 hdk)
      simp only [get?_cons, hk]
      split <;> rfl
    | gt =>
      have hk : (d == k) = false := not_compare_eq_iff_beq_eq_false.1 (by simp [hdk])
      simp only [get?_cons, ih]
      by_cases hed : e == d
      · simp [hed, BEq.congr_left hed, hk]
      · simp [hed]

/-- After an insertion its key is there, and those that were there before. -/
theorem contains_insert (d e : Dimension) (v : α) (l : List (Dimension × α)) :
    contains e (insert d v l) = (e == d || contains e l) := by
  rw [contains, get?_insert, contains]
  cases e == d <;> rfl

/-- Inserting a new key makes the list one longer. -/
theorem length_insert_of_not_contains {d : Dimension} {l : List (Dimension × α)}
    (h : contains d l = false) (v : α) : (insert d v l).length = l.length + 1 := by
  induction l with
  | nil => rfl
  | cons entry rest ih =>
    rw [contains, get?_cons] at h
    rw [insert]
    cases hdk : compare d entry.1 with
    | lt => rfl
    | eq =>
      rw [if_pos (compare_eq_iff_beq.1 hdk)] at h
      cases h
    | gt =>
      have hne : (d == entry.1) = false := not_compare_eq_iff_beq_eq_false.1 (by simp [hdk])
      rw [hne, if_neg Bool.false_ne_true] at h
      exact congrArg (· + 1) (ih h)

/-- A choice among entries by their keys is seen through look-ups as a choice of keys. -/
theorem get?_filter {keep : Dimension → Bool}
    (hkeep : ∀ d e, d == e → keep d = keep e) (d : Dimension) (l : List (Dimension × α)) :
    get? d (l.filter (keep ·.1)) = if keep d then get? d l else none := by
  induction l with
  | nil => simp
  | cons entry rest ih =>
    obtain ⟨k, w⟩ := entry
    by_cases hk : keep k
    · rw [List.filter_cons_of_pos (by simpa using hk), get?_cons, get?_cons, ih]
      by_cases hdk : d == k
      · rw [if_pos hdk, if_pos hdk, hkeep d k hdk, if_pos hk]
      · rw [if_neg hdk, if_neg hdk]
    · rw [List.filter_cons_of_neg (by simpa using hk), ih, get?_cons]
      by_cases hdk : d == k
      · rw [hkeep d k hdk, if_neg hk, if_neg hk]
      · rw [if_neg hdk]

/-- An erased key reads nothing and the others read as before. -/
theorem get?_erase (d e : Dimension) (l : List (Dimension × α)) :
    get? e (erase d l) = if e == d then none else get? e l := by
  have hkeep : ∀ j k : Dimension, j == k → (!(d == j)) = (!(d == k)) :=
    fun j k hjk => by rw [BEq.congr_right hjk]
  have hget := get?_filter hkeep e l
  rw [erase, hget, BEq.comm (a := d)]
  cases e == d <;> rfl

/-- Reading a key of mapped values maps what is read. -/
theorem get?_map_value (f : α → β) (d : Dimension) (l : List (Dimension × α)) :
    get? d (l.map fun e => (e.1, f e.2)) = (get? d l).map f := by
  induction l with
  | nil => rfl
  | cons entry rest ih =>
    rw [List.map_cons, get?_cons, get?_cons, ih]
    split <;> rfl

/-- What is stored after an insertion is the new entry or was there before. -/
theorem mem_insert {d : Dimension} {v : α} {l : List (Dimension × α)} {e : Dimension × α}
    (h : e ∈ insert d v l) : e = (d, v) ∨ e ∈ l := by
  induction l with
  | nil => exact .inl (List.mem_singleton.1 h)
  | cons entry rest ih =>
    obtain ⟨k, w⟩ := entry
    rw [insert] at h
    split at h
    · exact List.mem_cons.1 h
    · exact (List.mem_cons.1 h).imp_right (List.mem_cons_of_mem _)
    · obtain rfl | h := List.mem_cons.1 h
      · exact .inr List.mem_cons_self
      · exact (ih h).imp_right (List.mem_cons_of_mem _)

/-- Erasing adds no entries. -/
theorem mem_of_mem_erase {d : Dimension} {l : List (Dimension × α)} {e : Dimension × α}
    (h : e ∈ erase d l) : e ∈ l := (List.mem_filter.1 h).1

/-! ## order -/

@[simp] theorem sorted_nil : Sorted ([] : List (Dimension × α)) := List.Pairwise.nil

theorem sorted_cons {e : Dimension × α} {l : List (Dimension × α)} :
    Sorted (e :: l) ↔ (∀ k ∈ l, compare e.1 k.1 = .lt) ∧ Sorted l := List.pairwise_cons

theorem Sorted.tail {e : Dimension × α} {l : List (Dimension × α)} (h : Sorted (e :: l)) :
    Sorted l := (sorted_cons.1 h).2

/-- A key below the first one lies below all. -/
theorem Sorted.forall_lt {d : Dimension} {e : Dimension × α} {l : List (Dimension × α)}
    (h : Sorted (e :: l)) (hd : compare d e.1 = .lt) : ∀ k ∈ e :: l, compare d k.1 = .lt :=
  List.forall_mem_cons.2 ⟨hd, fun k hk => TransCmp.lt_trans hd ((sorted_cons.1 h).1 k hk)⟩

/-- A selection of the entries keeps the keys in order. -/
theorem Sorted.filter {l : List (Dimension × α)} (h : Sorted l) (p : Dimension × α → Bool) :
    Sorted (l.filter p) := List.Pairwise.filter p h

/-- Erasing keeps the keys in order. -/
theorem Sorted.erase {l : List (Dimension × α)} (h : Sorted l) (d : Dimension) :
    Sorted (Keyed.erase d l) := h.filter _

/-- Inserting keeps the keys in order. -/
theorem Sorted.insert {l : List (Dimension × α)} (h : Sorted l) (d : Dimension) (v : α) :
    Sorted (Keyed.insert d v l) := by
  induction l with
  | nil => exact List.pairwise_singleton _ _
  | cons entry rest ih =>
    obtain ⟨k, w⟩ := entry
    obtain ⟨hk, hrest⟩ := sorted_cons.1 h
    rw [Keyed.insert]
    cases hdk : compare d k with
    | lt => exact sorted_cons.2 ⟨h.forall_lt hdk, h⟩
    | eq => exact sorted_cons.2 ⟨fun e he => TransCmp.lt_of_eq_of_lt hdk (hk e he), hrest⟩
    | gt =>
      refine sorted_cons.2 ⟨fun e he => ?_, ih hrest⟩
      obtain rfl | he := mem_insert he
      · exact OrientedCmp.lt_of_gt hdk
      · exact hk e he

/-- A key that comes later is another key. -/
theorem beq_eq_false_of_lt {d e : Dimension} (h : compare d e = .lt) : (e == d) = false :=
  not_compare_eq_iff_beq_eq_false.1 (by simp [OrientedCmp.gt_of_lt h])

/-- A key below the first one finds nothing. -/
theorem get?_eq_none_of_lt {d : Dimension} {l : List (Dimension × α)}
    (h : ∀ e ∈ l, compare d e.1 = .lt) : get? d l = none :=
  get?_eq_none_iff.2 fun e he => not_compare_eq_iff_beq_eq_false.1 (by simp [h e he])

/-- What is stored under a key is not stored again above it. -/
theorem get?_eq_none_of_beq {d k : Dimension} {l : List (Dimension × α)} (hd : d == k)
    (h : ∀ e ∈ l, compare k e.1 = .lt) : get? d l = none :=
  get?_eq_none_of_lt fun e he => by rw [Dimension.compare_congr_left hd, h e he]

/-- Each entry of a sorted list is found under its key. -/
theorem Sorted.get?_of_mem {l : List (Dimension × α)} (h : Sorted l) {e : Dimension × α}
    (he : e ∈ l) : get? e.1 l = some e.2 := by
  induction l with
  | nil => cases he
  | cons entry rest ih =>
    obtain ⟨hentry, hrest⟩ := sorted_cons.1 h
    obtain rfl | he := List.mem_cons.1 he
    · rw [get?_cons, if_pos BEq.rfl]
    · have hne : (e.1 == entry.1) = false := beq_eq_false_of_lt (hentry e he)
      rw [get?_cons, hne, if_neg Bool.false_ne_true]
      exact ih hrest he

/-- No two entries of a sorted list have equal keys. -/
theorem Sorted.eq_of_beq {l : List (Dimension × α)} (h : Sorted l) {e e' : Dimension × α}
    (he : e ∈ l) (he' : e' ∈ l) (hkey : e.1 == e'.1) : e = e' := by
  induction l with
  | nil => cases he
  | cons entry rest ih =>
    obtain ⟨hentry, hrest⟩ := sorted_cons.1 h
    obtain heq | hmem := List.mem_cons.1 he <;> obtain heq' | hmem' := List.mem_cons.1 he'
    · rw [heq, heq']
    · rw [heq, BEq.comm, beq_eq_false_of_lt (hentry e' hmem')] at hkey
      cases hkey
    · rw [heq', beq_eq_false_of_lt (hentry e hmem)] at hkey
      cases hkey
    · exact ih hrest hmem hmem'

/-- To ask something of all entries under a key is to ask it of the one that there is. -/
theorem Sorted.forall_beq_iff {l : List (Dimension × α)} (h : Sorted l) {e : Dimension × α}
    (he : e ∈ l) {d : Dimension} (hd : d == e.1) {P : Dimension × α → Prop} :
    (∀ e' ∈ l, d == e'.1 → P e') ↔ P e := by
  refine ⟨fun hall => hall e he hd, fun hP e' he' hd' => ?_⟩
  rwa [← h.eq_of_beq he he' (BEq.trans (BEq.symm hd) hd')]

/-! ## totals

The caches of a tree are totals over its children, so an edit of one child changes
them by the difference of what that child counts for. -/

/-- What all entries count for together, each for `weight` of its value. -/
def total (weight : α → Nat) (l : List (Dimension × α)) : Nat := (l.map (weight ·.2)).sum

@[simp] theorem total_nil (weight : α → Nat) : total weight [] = 0 := rfl

@[simp] theorem total_cons (weight : α → Nat) (e : Dimension × α) (l : List (Dimension × α)) :
    total weight (e :: l) = weight e.2 + total weight l := rfl

/-- Erasing takes the weight of the entry off the total. -/
theorem total_erase {l : List (Dimension × α)} (h : Sorted l) (weight : α → Nat)
    (d : Dimension) :
    total weight (erase d l) + (get? d l).elim 0 weight = total weight l := by
  induction l with
  | nil => rfl
  | cons entry rest ih =>
    obtain ⟨k, w⟩ := entry
    obtain ⟨hk, hrest⟩ := sorted_cons.1 h
    have ih := ih hrest
    rw [erase] at ih ⊢
    by_cases hdk : d == k
    · have hnone : get? d rest = none := get?_eq_none_of_beq hdk hk
      rw [List.filter_cons_of_neg (by simp [hdk]), get?_cons, if_pos hdk]
      rw [hnone] at ih
      simp only [Option.elim, total_cons] at ih ⊢
      omega
    · rw [List.filter_cons_of_pos (by simp [hdk]), get?_cons, if_neg hdk, total_cons, total_cons]
      omega

/-- No entry counts for more than all of them. -/
theorem elim_get?_le_total {l : List (Dimension × α)} (h : Sorted l) (weight : α → Nat)
    (d : Dimension) : (get? d l).elim 0 weight ≤ total weight l := by
  have := total_erase h weight d
  omega

/-- Inserting takes the weight of the entry it replaces off the total and adds the new weight. -/
theorem total_insert {l : List (Dimension × α)} (h : Sorted l) (weight : α → Nat)
    (d : Dimension) (v : α) :
    total weight (insert d v l) + (get? d l).elim 0 weight = total weight l + weight v := by
  induction l with
  | nil => simp [insert]
  | cons entry rest ih =>
    obtain ⟨k, w⟩ := entry
    obtain ⟨hk, hrest⟩ := sorted_cons.1 h
    have ih := ih hrest
    rw [insert]
    cases hdk : compare d k with
    | lt =>
      have hnone : get? d ((k, w) :: rest) = none := get?_eq_none_of_lt (h.forall_lt hdk)
      rw [hnone]
      simp only [Option.elim, total_cons]
      omega
    | eq =>
      rw [get?_cons, if_pos (compare_eq_iff_beq.1 hdk)]
      simp only [Option.elim, total_cons]
      omega
    | gt =>
      have hne : (d == k) = false := not_compare_eq_iff_beq_eq_false.1 (by simp [hdk])
      rw [get?_cons, hne, if_neg Bool.false_ne_true]
      simp only [total_cons]
      omega

/-- A choice and what it leaves out count for the whole together. -/
theorem total_filter_add (weight : α → Nat) (p : Dimension × α → Bool)
    (l : List (Dimension × α)) :
    total weight (l.filter p) + total weight (l.filter fun e => !p e) = total weight l := by
  induction l with
  | nil => rfl
  | cons e rest ih =>
    by_cases hp : p e
    · rw [List.filter_cons_of_pos hp, List.filter_cons_of_neg (by simp [hp]), total_cons,
        total_cons]
      omega
    · rw [List.filter_cons_of_neg hp, List.filter_cons_of_pos (by simp [hp]), total_cons,
        total_cons]
      omega

/-- Totals are equal if the weights of all entries are. -/
theorem total_congr {weight weight' : α → Nat} {l : List (Dimension × α)}
    (h : ∀ e ∈ l, weight e.2 = weight' e.2) : total weight l = total weight' l :=
  congrArg List.sum (List.map_congr_left h)

/-- The total of mapped values. -/
theorem total_map (weight : β → Nat) (k : Dimension → Dimension) (f : α → β)
    (l : List (Dimension × α)) :
    total weight (l.map fun e => (k e.1, f e.2)) = total (fun v => weight (f v)) l := by
  rw [total, List.map_map, total]
  rfl

/-- No entry weighs more than all of them. -/
theorem le_total_of_mem {weight : α → Nat} {e : Dimension × α} {l : List (Dimension × α)}
    (h : e ∈ l) : weight e.2 ≤ total weight l := by
  induction l with
  | nil => cases h
  | cons k rest ih =>
    rw [total_cons]
    obtain rfl | h := List.mem_cons.1 h
    · omega
    · have := ih h
      omega

/-- Entries that count for no more than what others have under their keys count for no more
than those do together. -/
theorem total_le_total {weight : α → Nat} {weight' : β → Nat} {l : List (Dimension × α)}
    {m : List (Dimension × β)} (hl : Sorted l) (hm : Sorted m)
    (h : ∀ e ∈ l, weight e.2 ≤ (get? e.1 m).elim 0 weight') : total weight l ≤ total weight' m := by
  induction l generalizing m with
  | nil => exact Nat.zero_le _
  | cons e l ih =>
    obtain ⟨hlt, hl⟩ := sorted_cons.1 hl
    obtain ⟨he, h⟩ := List.forall_mem_cons.1 h
    have hrest : total weight l ≤ total weight' (erase e.1 m) := by
      refine ih hl (hm.erase e.1) fun x hx => ?_
      have hne : (x.1 == e.1) = false := beq_eq_false_of_lt (hlt x hx)
      rw [get?_erase, hne, if_neg Bool.false_ne_true]
      exact h x hx
    have herase := total_erase hm weight' e.1
    rw [total_cons]
    omega

/-- What all entries under one key give is what the one that is found gives. -/
theorem flatMap_of_key {l : List (Dimension × α)} (h : Sorted l) (d : Dimension)
    (f : α → List β) :
    (l.flatMap fun e => if d == e.1 then f e.2 else []) = (get? d l).elim [] f := by
  induction l with
  | nil => rfl
  | cons e l ih =>
    obtain ⟨hlt, hl⟩ := sorted_cons.1 h
    rw [List.flatMap_cons, ih hl, get?_cons]
    by_cases hd : d == e.1
    · rw [if_pos hd, if_pos hd, get?_eq_none_of_beq hd hlt]
      exact List.append_nil _
    · rw [if_neg hd, if_neg hd]
      rfl

/-! ## entries with some value

What a view of a tree shows of the children: those for which a part is shown. -/

/-- The entries for whose value `f` gives some, with what it gives. -/
def select (f : α → Option β) (l : List (Dimension × α)) : List (Dimension × β) :=
  l.filterMap fun e => (f e.2).map (e.1, ·)

variable {f : α → Option β}

theorem select_cons (e : Dimension × α) (l : List (Dimension × α)) :
    select f (e :: l) = (f e.2).elim (select f l) fun v => (e.1, v) :: select f l := by
  unfold select
  cases hv : f e.2 with
  | none =>
    rw [List.filterMap_cons_none (by rw [hv]; rfl)]
    rfl
  | some v =>
    rw [List.filterMap_cons_some (by rw [hv]; rfl)]
    rfl

/-- A selected entry comes from an entry with the same key. -/
theorem mem_select {e : Dimension × β} {l : List (Dimension × α)} (h : e ∈ select f l) :
    ∃ v, (e.1, v) ∈ l ∧ f v = some e.2 := by
  obtain ⟨⟨k, v⟩, hmem, hv⟩ := List.mem_filterMap.1 h
  obtain ⟨w, hw, rfl⟩ := Option.map_eq_some_iff.1 hv
  exact ⟨v, hmem, hw⟩

/-- A key before all entries is before the selected ones. -/
theorem lt_of_mem_select {d : Dimension} {l : List (Dimension × α)}
    (h : ∀ e ∈ l, compare d e.1 = .lt) : ∀ e ∈ select f l, compare d e.1 = .lt := by
  intro e he
  obtain ⟨v, hmem, -⟩ := mem_select he
  exact h _ hmem

/-- Selecting keeps the keys in order. -/
theorem Sorted.select {l : List (Dimension × α)} (h : Sorted l) (f : α → Option β) :
    Sorted (Keyed.select f l) := by
  induction l with
  | nil => exact sorted_nil
  | cons e l ih =>
    obtain ⟨he, hl⟩ := sorted_cons.1 h
    rw [select_cons]
    cases f e.2 with
    | none => exact ih hl
    | some v => exact sorted_cons.2 ⟨lt_of_mem_select he, ih hl⟩

/-- Reading a key of a selection selects what is read. -/
theorem get?_select {l : List (Dimension × α)} (h : Sorted l) (d : Dimension) :
    get? d (select f l) = (get? d l).bind f := by
  induction l with
  | nil => rfl
  | cons e l ih =>
    obtain ⟨he, hl⟩ := sorted_cons.1 h
    have ih := ih hl
    rw [select_cons, get?_cons]
    by_cases hd : d == e.1
    · have hnone : get? d l = none := get?_eq_none_of_beq hd he
      rw [hnone] at ih
      rw [if_pos hd]
      cases hv : f e.2 with
      | none => simpa [hv] using ih
      | some v => simp [get?_cons, hd, hv]
    · rw [if_neg hd, ← ih]
      cases f e.2 with
      | none => rfl
      | some v => rw [Option.elim_some, get?_cons, if_neg hd]

/-- Selecting and keeping keys may change places. -/
theorem select_filter (f : α → Option β) (keep : Dimension → Bool)
    (l : List (Dimension × α)) :
    select f (l.filter (keep ·.1)) = (select f l).filter (keep ·.1) := by
  induction l with
  | nil => rfl
  | cons e l ih =>
    by_cases hk : keep e.1
    · rw [List.filter_cons_of_pos (by simpa using hk), select_cons, select_cons, ih]
      cases f e.2 with
      | none => rfl
      | some v =>
        rw [Option.elim_some, Option.elim_some, List.filter_cons_of_pos (by simpa using hk)]
    · rw [List.filter_cons_of_neg (by simpa using hk), select_cons, ih]
      cases f e.2 with
      | none => rfl
      | some v => rw [Option.elim_some, List.filter_cons_of_neg (by simpa using hk)]

/-- Selecting and erasing may change places. -/
theorem select_erase (f : α → Option β) (d : Dimension) (l : List (Dimension × α)) :
    select f (erase d l) = erase d (select f l) := select_filter f (fun k => !(d == k)) l

/-- Entries of which nothing is shown must count for nothing. -/
theorem total_select {weight : α → Nat} {weight' : β → Nat} {l : List (Dimension × α)}
    (h : ∀ e ∈ l, (f e.2).elim 0 weight' = weight e.2) :
    total weight' (select f l) = total weight l := by
  induction l with
  | nil => rfl
  | cons e l ih =>
    obtain ⟨he, hl⟩ := List.forall_mem_cons.1 h
    rw [select_cons, total_cons, ← he, ← ih hl]
    cases f e.2 with
    | none => exact (Nat.zero_add _).symm
    | some v => rfl

/-- A key below all others goes to the front. -/
theorem insert_of_lt {d : Dimension} {l : List (Dimension × α)}
    (h : ∀ e ∈ l, compare d e.1 = .lt) (v : α) : insert d v l = (d, v) :: l := by
  cases l with
  | nil => rfl
  | cons e l => rw [insert, h e List.mem_cons_self]

theorem erase_cons (d : Dimension) (e : Dimension × α) (l : List (Dimension × α)) :
    erase d (e :: l) = if d == e.1 then erase d l else e :: erase d l := by
  rw [erase, List.filter_cons]
  cases d == e.1 <;> rfl

/-- Erasing a key before all entries changes nothing. -/
theorem erase_of_lt {d : Dimension} {l : List (Dimension × α)}
    (h : ∀ e ∈ l, compare d e.1 = .lt) : erase d l = l :=
  List.filter_eq_self.2 fun e he => by
    rw [get?_eq_none_iff.1 (get?_eq_none_of_lt h) e he]
    rfl

/-- An insertion is shown as one, or as a removal if nothing is shown of the value. -/
theorem select_insert {l : List (Dimension × α)} (h : Sorted l) (d : Dimension) (v : α) :
    select f (insert d v l) =
      (f v).elim (erase d (select f l)) fun w => insert d w (select f l) := by
  induction l with
  | nil =>
    rw [insert, select_cons]
    rfl
  | cons e l ih =>
    obtain ⟨he, hl⟩ := sorted_cons.1 h
    rw [insert]
    cases hde : compare d e.1 with
    | lt =>
      have hlt : ∀ x ∈ select f (e :: l), compare d x.1 = .lt :=
        lt_of_mem_select (h.forall_lt hde)
      dsimp only
      rw [select_cons, erase_of_lt hlt, funext (insert_of_lt hlt)]
    | eq =>
      have hbeq : d == e.1 := compare_eq_iff_beq.1 hde
      have hlt : ∀ x ∈ select f l, compare d x.1 = .lt :=
        lt_of_mem_select fun x hx => TransCmp.lt_of_eq_of_lt hde (he x hx)
      dsimp only
      rw [select_cons, select_cons]
      cases f e.2 with
      | none => simp [erase_of_lt hlt, insert_of_lt hlt]
      | some u => simp [erase_cons, insert, hbeq, hde, erase_of_lt hlt]
    | gt =>
      have hne : (d == e.1) = false := not_compare_eq_iff_beq_eq_false.1 (by simp [hde])
      dsimp only
      rw [select_cons, select_cons, ih hl]
      cases f e.2 with
      | none => rfl
      | some u => cases f v <;> simp [erase_cons, insert, hne, hde]

/-! ### entries in turn -/

/-- A key after none of the entries is inserted in front, in place of an equal one. -/
theorem insert_of_ne_gt {d : Dimension} {l : List (Dimension × α)} (hl : Sorted l)
    (h : ∀ e ∈ l, compare d e.1 ≠ .gt) (v : α) : insert d v l = (d, v) :: erase d l := by
  cases l with
  | nil => rfl
  | cons e l =>
    obtain ⟨he, _⟩ := sorted_cons.1 hl
    rw [insert]
    cases hde : compare d e.1 with
    | lt => rw [erase_of_lt (hl.forall_lt hde)]
    | eq =>
      have hlt : ∀ x ∈ l, compare d x.1 = .lt := fun x hx => TransCmp.lt_of_eq_of_lt hde (he x hx)
      rw [erase_cons, if_pos (compare_eq_iff_beq.1 hde), erase_of_lt hlt]
    | gt => exact absurd hde (h e List.mem_cons_self)

/-- After a run of insertions there are the keys from before and those inserted. -/
theorem contains_foldl_insert (d : Dimension) (l m : List (Dimension × α)) :
    contains d (l.foldl (fun m e => insert e.1 e.2 m) m) ↔ contains d m ∨ ∃ e ∈ l, d == e.1 := by
  induction l generalizing m with
  | nil => simp
  | cons e l ih =>
    rw [List.foldl_cons, ih, contains_insert, Bool.or_eq_true]
    simp only [List.mem_cons, exists_eq_or_imp]
    tauto

/-- A run of insertions adds no other entries. -/
theorem mem_foldl_insert {e : Dimension × α} {l m : List (Dimension × α)}
    (h : e ∈ l.foldl (fun m e => insert e.1 e.2 m) m) : e ∈ l ∨ e ∈ m := by
  induction l generalizing m with
  | nil => exact .inr h
  | cons k l ih =>
    obtain h | h := ih h
    · exact .inl (List.mem_cons_of_mem _ h)
    · obtain rfl | h := mem_insert h
      · exact .inl List.mem_cons_self
      · exact .inr h

/-- Insertions above the first key leave it in front. -/
theorem foldl_insert_cons {l m : List (Dimension × α)} {d : Dimension}
    (h : ∀ e ∈ l, compare d e.1 = .lt) (v : α) :
    l.foldl (fun m e => insert e.1 e.2 m) ((d, v) :: m) =
      (d, v) :: l.foldl (fun m e => insert e.1 e.2 m) m := by
  induction l generalizing m with
  | nil => rfl
  | cons e l ih =>
    obtain ⟨he, hl⟩ := List.forall_mem_cons.1 h
    rw [List.foldl_cons, insert, OrientedCmp.gt_of_lt he]
    exact ih hl

/-- Entries inserted in turn among others, under whose keys each of those stood, are left
alone in the end. -/
theorem foldl_insert_eq {l m : List (Dimension × α)} (hl : Sorted l) (hm : Sorted m)
    (h : ∀ e ∈ m, contains e.1 l) : l.foldl (fun m e => insert e.1 e.2 m) m = l := by
  induction l generalizing m with
  | nil =>
    refine List.eq_nil_iff_forall_not_mem.2 fun e he => ?_
    exact Bool.false_ne_true (h e he)
  | cons e l ih =>
    obtain ⟨he, hl⟩ := sorted_cons.1 hl
    have hge : ∀ x ∈ m, compare e.1 x.1 ≠ .gt := by
      intro x hx
      obtain ⟨y, hy, hxy⟩ := contains_iff.1 (h x hx)
      rw [Dimension.compare_congr_right hxy]
      obtain rfl | hy := List.mem_cons.1 hy
      · simp
      · simp [he y hy]
    rw [List.foldl_cons, insert_of_ne_gt hm hge, foldl_insert_cons he,
      ih hl (hm.erase e.1) fun x hx => ?_]
    obtain ⟨hx, hne⟩ := List.mem_filter.1 hx
    obtain ⟨y, hy, hxy⟩ := contains_iff.1 (h x hx)
    obtain rfl | hy := List.mem_cons.1 hy
    · simp [BEq.symm hxy] at hne
    · exact contains_iff.2 ⟨y, hy, hxy⟩

/-! ## storing or dropping

An edit of a child stores what comes of it or, if that is not worth storing, drops the
entry. -/

/-- The entries with `v?` for what is stored under a key, nothing being stored for `none`. -/
def store (d : Dimension) (v? : Option α) (l : List (Dimension × α)) : List (Dimension × α) :=
  match v? with
  | some v => insert d v l
  | none => erase d l

/-- Storing at a key changes what is read there and at no other key. -/
theorem get?_store (d e : Dimension) (v? : Option α) (l : List (Dimension × α)) :
    get? e (store d v? l) = if e == d then v? else get? e l := by
  cases v? with
  | none => exact get?_erase d e l
  | some v => exact get?_insert d e v l

/-- Storing keeps the keys in order. -/
theorem Sorted.store {l : List (Dimension × α)} (h : Sorted l) (d : Dimension)
    (v? : Option α) : Sorted (Keyed.store d v? l) := by
  cases v? with
  | none => exact h.erase d
  | some v => exact h.insert d v

/-- Storing adds no entry but the stored one. -/
theorem mem_store {d : Dimension} {v? : Option α} {l : List (Dimension × α)}
    {e : Dimension × α} (h : e ∈ store d v? l) : (∃ v ∈ v?, e = (d, v)) ∨ e ∈ l := by
  cases v? with
  | none => exact .inr (mem_of_mem_erase h)
  | some v => exact (mem_insert h).imp_left fun he => ⟨v, rfl, he⟩

/-- What holds of all entries and of what is stored holds of all entries after it. -/
theorem forall_mem_store {P : α → Prop} {d : Dimension} {v? : Option α}
    {l : List (Dimension × α)} (hl : ∀ e ∈ l, P e.2) (hv : ∀ v ∈ v?, P v) :
    ∀ e ∈ store d v? l, P e.2 := by
  intro e he
  obtain ⟨v, hv?, rfl⟩ | he := mem_store he
  · exact hv v hv?
  · exact hl e he

/-- Storing takes the weight from before off the total and adds that of what is stored. -/
theorem total_store {l : List (Dimension × α)} (h : Sorted l) (weight : α → Nat)
    (d : Dimension) (v? : Option α) :
    total weight (store d v? l) + (get? d l).elim 0 weight =
      total weight l + v?.elim 0 weight := by
  cases v? with
  | none => exact total_erase h weight d
  | some v => exact total_insert h weight d v

/-- Storing under a key equal to that of an entry exchanges that entry or drops it. -/
theorem Sorted.store_middle {l m : List (Dimension × α)} {d k : Dimension} {v : α}
    (h : Sorted (l ++ (k, v) :: m)) (hd : d == k) (w? : Option α) :
    Keyed.store d w? (l ++ (k, v) :: m) = l ++ (w?.map (d, ·)).toList ++ m := by
  induction l with
  | nil =>
    obtain ⟨hlt, -⟩ := sorted_cons.1 h
    have hlt : ∀ e ∈ m, compare d e.1 = .lt :=
      fun e he => (Dimension.compare_congr_left hd _).trans (hlt e he)
    cases w? with
    | none => simp [Keyed.store, erase_cons, hd, erase_of_lt hlt]
    | some w => simp [Keyed.store, Keyed.insert, compare_eq_iff_beq.2 hd]
  | cons e l ih =>
    obtain ⟨hlt, hrest⟩ := sorted_cons.1 h
    have hgt : compare d e.1 = .gt :=
      (Dimension.compare_congr_left hd _).trans (OrientedCmp.gt_of_lt (hlt (k, v) (by simp)))
    have hne : (d == e.1) = false := not_compare_eq_iff_beq_eq_false.1 (by simp [hgt])
    have ih := ih hrest
    cases w? with
    | none =>
      simp only [Keyed.store] at ih ⊢
      rw [List.cons_append, erase_cons, hne, if_neg Bool.false_ne_true, ih]
      rfl
    | some w =>
      simp only [Keyed.store] at ih ⊢
      rw [List.cons_append, Keyed.insert, hgt]
      exact congrArg (e :: ·) ih

/-- Selecting after storing stores what is selected. -/
theorem select_store {l : List (Dimension × α)} (h : Sorted l) (d : Dimension)
    (v? : Option α) : select f (store d v? l) = store d (v?.bind f) (select f l) := by
  cases v? with
  | none => exact select_erase f d l
  | some v =>
    rw [store, select_insert h, Option.bind_some]
    cases f v <;> rfl

/-! ## related entries -/

/-- Entries that are related one by one find related values. -/
theorem rel_get?_of_forall₂ {R : α → β → Prop} {l : List (Dimension × α)}
    {m : List (Dimension × β)} (h : List.Forall₂ (fun e k => e.1 == k.1 ∧ R e.2 k.2) l m)
    (d : Dimension) : Option.Rel R (get? d l) (get? d m) := by
  induction h with
  | nil => exact .none
  | cons hek _ ih =>
    rw [get?_cons, get?_cons, BEq.congr_right hek.1]
    split
    · exact .some hek.2
    · exact ih

/-- Sorted entries that find related values under every key are related one by one. -/
theorem forall₂_of_rel_get? {R : α → β → Prop} {l : List (Dimension × α)}
    {m : List (Dimension × β)} (hel : Sorted l) (hkm : Sorted m)
    (h : ∀ d, Option.Rel R (get? d l) (get? d m)) :
    List.Forall₂ (fun e k => e.1 == k.1 ∧ R e.2 k.2) l m := by
  induction l generalizing m with
  | nil =>
    cases m with
    | nil => exact .nil
    | cons k m =>
      have hk := h k.1
      rw [get?_cons, if_pos BEq.rfl] at hk
      cases hk
  | cons e l ih =>
    obtain ⟨he, hl⟩ := sorted_cons.1 hel
    cases m with
    | nil =>
      have he := h e.1
      rw [get?_cons, if_pos BEq.rfl] at he
      cases he
    | cons k m =>
      obtain ⟨hk, hm⟩ := sorted_cons.1 hkm
      -- the first keys are equal, for the smaller one would be missing on the other side
      have hek : compare e.1 k.1 = .eq := by
        cases hcmp : compare e.1 k.1 with
        | eq => rfl
        | lt =>
          have hnone : get? e.1 (k :: m) = none := get?_eq_none_of_lt (hkm.forall_lt hcmp)
          have hrel := h e.1
          rw [hnone, get?_cons, if_pos BEq.rfl] at hrel
          cases hrel
        | gt =>
          have hnone : get? k.1 (e :: l) = none :=
            get?_eq_none_of_lt (hel.forall_lt (OrientedCmp.lt_of_gt hcmp))
          have hrel := h k.1
          rw [hnone, get?_cons, if_pos BEq.rfl] at hrel
          cases hrel
      have hbeq : e.1 == k.1 := compare_eq_iff_beq.1 hek
      have hR : R e.2 k.2 := by
        have hrel := h e.1
        rw [get?_cons, get?_cons, if_pos BEq.rfl, if_pos hbeq] at hrel
        cases hrel
        assumption
      refine .cons ⟨hbeq, hR⟩ (ih hl hm fun d => ?_)
      by_cases hd : d == e.1
      · rw [get?_eq_none_of_beq hd he, get?_eq_none_of_beq (BEq.trans hd hbeq) hk]
        exact .none
      · have hrel := h d
        rw [get?_cons, get?_cons, if_neg hd, if_neg (by rwa [← BEq.congr_right hbeq])] at hrel
        exact hrel

/-- Lists with entries of equal weight have the same total. -/
theorem total_eq_of_forall₂ {R : Dimension × α → Dimension × β → Prop} {weight : α → Nat}
    {weight' : β → Nat} {l : List (Dimension × α)} {m : List (Dimension × β)}
    (h : List.Forall₂ R l m)
    (hw : ∀ e ∈ l, ∀ k ∈ m, R e k → weight e.2 = weight' k.2) :
    total weight l = total weight' m := by
  induction h with
  | nil => rfl
  | cons hek _ ih =>
    rw [total_cons, total_cons, hw _ List.mem_cons_self _ List.mem_cons_self hek,
      ih fun e he k hk => hw e (List.mem_cons_of_mem _ he) k (List.mem_cons_of_mem _ hk)]

end Intension.Keyed
