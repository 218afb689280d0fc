import Intension.Dimension
import Intension.Proofs.Ordering

/-!
# Intension.Proofs.Path

What is left of a path after a front of it.  As all looking goes by equality of
dimensions, so does this: what is left after a front, put behind the front again,
gives an equal path.  A path leads another one if something is left of that one
after it.
-/

namespace Intension.Path

@[simp] theorem after?_nil (q : Path) : after? [] q = some q := rfl

theorem after?_cons (d e : Dimension) (p q : Path) :
    after? (d :: p) (e :: q) = if d == e then after? p q else none := rfl

/-- Nothing is left of a path just after a path equal to it. -/
theorem after?_eq_some_nil_iff {p q : Path} : after? p q = some [] ↔ p == q := by
  induction p generalizing q with
  | nil => cases q <;> simp
  | cons d p ih =>
    cases q with
    | nil => simp [after?]
    | cons e q =>
      rw [after?_cons, List.cons_beq_cons, Bool.and_eq_true, ← ih]
      split <;> simp_all

theorem leads_cons (d e : Dimension) (p q : Path) :
    leads (d :: p) (e :: q) = (d == e && leads p q) := rfl

/-- A path leads those of which something is left after it. -/
theorem leads_eq_isSome_after? (p q : Path) : leads p q = (after? p q).isSome := by
  induction p generalizing q with
  | nil => rfl
  | cons d p ih =>
    cases q with
    | nil => rfl
    | cons e q =>
      rw [leads_cons, ih, after?_cons]
      cases d == e <;> rfl

/-- A path with a rest leads there. -/
theorem leads_of_after? {p q r : Path} (h : after? p q = some r) : leads p q := by
  rw [leads_eq_isSome_after?, h, Option.isSome_some]

/-- There is no rest exactly if the path does not lead there. -/
theorem after?_eq_none_iff {p q : Path} : after? p q = none ↔ ¬ leads p q := by
  rw [leads_eq_isSome_after?, Option.not_isSome_iff_eq_none]

theorem leads_of_beq {p q : Path} (h : p == q) : leads p q :=
  leads_of_after? (after?_eq_some_nil_iff.2 h)

/-- A common front does not change whether one path leads to another. -/
theorem leads_append_append (p q r : Path) : leads (p ++ q) (p ++ r) = leads q r := by
  induction p with
  | nil => rfl
  | cons d p ih => rw [List.cons_append, List.cons_append, leads_cons, ih, BEq.rfl, Bool.true_and]

theorem leads_append (p r : Path) : leads p (p ++ r) := by
  have happend := leads_append_append p [] r
  rwa [List.append_nil] at happend

/-- Of two paths that lead one path, one leads the other. -/
theorem leads_total {p q r : Path} (hp : leads p r) (hq : leads q r) :
    leads p q ∨ leads q p := by
  induction p generalizing q r with
  | nil => exact .inl rfl
  | cons d p ih =>
    cases q with
    | nil => exact .inr rfl
    | cons e q =>
      cases r with
      | nil => cases hp
      | cons k r =>
        rw [leads_cons, Bool.and_eq_true] at hp hq
        have hde : d == e := BEq.trans hp.1 (BEq.symm hq.1)
        rw [leads_cons, leads_cons, BEq.comm (a := e), hde, Bool.true_and, Bool.true_and]
        exact ih hp.2 hq.2

/-- A path leads to longer ones only, or as long. -/
theorem length_le_of_leads {p q : Path} (h : leads p q) : p.length ≤ q.length := by
  induction p generalizing q with
  | nil => exact Nat.zero_le _
  | cons d p ih =>
    cases q with
    | nil => cases h
    | cons e q =>
      rw [leads_cons, Bool.and_eq_true] at h
      exact Nat.succ_le_succ (ih h.2)

theorem length_eq_of_beq {p q : Path} (h : p == q) : p.length = q.length :=
  Nat.le_antisymm (length_le_of_leads (leads_of_beq h))
    (length_le_of_leads (leads_of_beq (BEq.symm h)))

/-- What is left of a longer path is what was left and what came on. -/
theorem after?_append_of_some {p q s : Path} (h : after? p q = some s) (r : Path) :
    after? p (q ++ r) = some (s ++ r) := by
  induction p generalizing q with
  | nil =>
    obtain rfl : q = s := Option.some.inj h
    rfl
  | cons d p ih =>
    cases q with
    | nil => cases h
    | cons e q =>
      rw [after?_cons] at h
      rw [List.cons_append, after?_cons]
      split at h
      · next hde => rw [if_pos hde, ih h]
      · cases h

/-- Past the end of a front, what was left of the front itself is still to be gone. -/
theorem after?_append_of_front {p q s : Path} (h : after? q p = some s) (r : Path) :
    after? p (q ++ r) = after? s r := by
  induction q generalizing p with
  | nil =>
    obtain rfl : p = s := Option.some.inj h
    rfl
  | cons e q ih =>
    cases p with
    | nil => cases h
    | cons d p =>
      rw [after?_cons, BEq.comm] at h
      rw [List.cons_append, after?_cons]
      split at h
      · next hde => rw [if_pos hde, ih h]
      · cases h

/-- Paths that part ways do not meet again. -/
theorem after?_append_of_none {p q : Path} (hpq : after? p q = none) (hqp : after? q p = none)
    (r : Path) : after? p (q ++ r) = none := by
  induction p generalizing q with
  | nil => cases hpq
  | cons d p ih =>
    cases q with
    | nil => cases hqp
    | cons e q =>
      rw [after?_cons] at hpq
      rw [after?_cons, BEq.comm] at hqp
      rw [List.cons_append, after?_cons]
      split at hpq
      · next hde =>
        rw [if_pos hde] at hqp
        rw [if_pos hde, ih hpq hqp]
      · next hde => rw [if_neg hde]

/-- Of two different paths only one leads the other. -/
theorem after?_eq_none_of_cons {p q s : Path} {d : Dimension} (h : after? q p = some (d :: s)) :
    after? p q = none := by
  induction q generalizing p with
  | nil =>
    obtain rfl : p = d :: s := Option.some.inj h
    rfl
  | cons e q ih =>
    cases p with
    | nil => cases h
    | cons c p =>
      rw [after?_cons, BEq.comm] at h
      rw [after?_cons]
      split at h
      · next hce => rw [if_pos hce, ih h]
      · next hce => rw [if_neg hce]

/-! ## fronts

Leading is an order of the paths up to equality, in which the common front of two paths is
their meet. -/

/-- What is left after a front comes behind it. -/
theorem append_beq_of_after? {p q s : Path} (h : after? p q = some s) : p ++ s == q := by
  induction p generalizing q with
  | nil =>
    obtain rfl : q = s := Option.some.inj h
    exact BEq.rfl
  | cons d p ih =>
    cases q with
    | nil => cases h
    | cons e q =>
      rw [after?_cons] at h
      rw [List.cons_append, List.cons_beq_cons, Bool.and_eq_true]
      split at h
      · next hde => exact ⟨hde, ih h⟩
      · cases h

/-- A path leads to where one leads that it leads to. -/
theorem leads_trans {p q r : Path} (hpq : leads p q) (hqr : leads q r) : leads p r := by
  induction p generalizing q r with
  | nil => rfl
  | cons d p ih =>
    cases q with
    | nil => cases hpq
    | cons e q =>
      cases r with
      | nil => cases hqr
      | cons k r =>
        rw [leads_cons, Bool.and_eq_true] at hpq hqr ⊢
        exact ⟨BEq.trans hpq.1 hqr.1, ih hpq.2 hqr.2⟩

/-- A path leads none that is shorter, and of those of its length only its equals. -/
theorem beq_of_leads_of_length_le {p q : Path} (h : leads p q) (hlen : q.length ≤ p.length) :
    p == q := by
  induction p generalizing q with
  | nil =>
    obtain rfl : q = [] := List.eq_nil_of_length_eq_zero (Nat.le_zero.1 hlen)
    rfl
  | cons d p ih =>
    cases q with
    | nil => cases h
    | cons e q =>
      rw [leads_cons, Bool.and_eq_true] at h
      rw [List.cons_beq_cons, Bool.and_eq_true]
      exact ⟨h.1, ih h.2 (Nat.le_of_succ_le_succ hlen)⟩

theorem common_cons (d e : Dimension) (p q : Path) :
    common (d :: p) (e :: q) = if d == e then d :: common p q else [] := rfl

/-- The common path leads to the first. -/
theorem common_leads_left (p q : Path) : leads (common p q) p := by
  induction p generalizing q with
  | nil => rfl
  | cons d p ih =>
    cases q with
    | nil => rfl
    | cons e q =>
      rw [common_cons]
      split
      · rw [leads_cons, BEq.rfl, ih, Bool.and_self]
      · rfl

/-- The common path leads to the second. -/
theorem common_leads_right (p q : Path) : leads (common p q) q := by
  induction p generalizing q with
  | nil => rfl
  | cons d p ih =>
    cases q with
    | nil => rfl
    | cons e q =>
      rw [common_cons]
      split
      · next hde => rw [leads_cons, hde, ih, Bool.and_self]
      · rfl

/-- What leads two paths leads their common front. -/
theorem leads_common {m p q : Path} (hp : leads m p) (hq : leads m q) :
    leads m (common p q) := by
  induction m generalizing p q with
  | nil => rfl
  | cons c m ih =>
    cases p with
    | nil => cases hp
    | cons d p =>
      cases q with
      | nil => cases hq
      | cons e q =>
        rw [leads_cons, Bool.and_eq_true] at hp hq
        have hde : d == e := BEq.trans (BEq.symm hp.1) hq.1
        rw [common_cons, if_pos hde, leads_cons, hp.1, ih hp.2 hq.2, Bool.and_self]

end Intension.Path
