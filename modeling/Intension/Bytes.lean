/-!
# Intension.Bytes

Numbers as bytes, the most significant first.  What powers and sums of natural numbers mean is
set here for the modules that build on this one.
-/

-- as in the core library, whatever is imported beside it
attribute [instance (2000)] instPowNat Zero.ofOfNat0

namespace Intension.Bytes

/-- The lowest `count` bytes of a number. -/
def bigEndian : (count n : Nat) → List UInt8
  | 0, _ => []
  | count + 1, n => UInt8.ofNat (n / 256 ^ count) :: bigEndian count n

/-- The number that bytes stand for. -/
def toNat (bs : List UInt8) : Nat := bs.foldl (fun n b => n * 256 + b.toNat) 0

/-- A number is written in as many bytes as are asked for. -/
@[simp] theorem length_bigEndian (count n : Nat) : (bigEndian count n).length = count := by
  induction count with
  | zero => rfl
  | succ count ih => simp [bigEndian, ih]

/-! ## back and forth -/

theorem foldl_eq (n : Nat) (bs : List UInt8) :
    bs.foldl (fun n b => n * 256 + b.toNat) n = n * 256 ^ bs.length + toNat bs := by
  induction bs generalizing n with
  | nil => simp [toNat]
  | cons b bs ih =>
    rw [toNat, List.foldl_cons, List.foldl_cons, ih, ih (0 * 256 + b.toNat), Nat.add_mul,
      Nat.zero_mul, Nat.zero_add, Nat.add_assoc, Nat.mul_assoc, List.length_cons, Nat.pow_succ']

/-- The first byte counts the most. -/
theorem toNat_cons (b : UInt8) (bs : List UInt8) :
    toNat (b :: bs) = b.toNat * 256 ^ bs.length + toNat bs := by
  have h := foldl_eq b.toNat bs
  rw [toNat, List.foldl_cons, Nat.zero_mul, Nat.zero_add, h]

/-- What some bytes say is below the power of 256. -/
theorem toNat_lt (bs : List UInt8) : toNat bs < 256 ^ bs.length := by
  induction bs with
  | nil => decide
  | cons b bs ih =>
    have hb : (b.toNat + 1) * 256 ^ bs.length ≤ 256 * 256 ^ bs.length :=
      Nat.mul_le_mul_right _ b.toNat_lt
    rw [Nat.add_mul, Nat.one_mul] at hb
    rw [toNat_cons, List.length_cons, Nat.pow_succ']
    omega

/-- The first byte is the highest digit. -/
theorem toNat_cons_div (b : UInt8) (bs : List UInt8) :
    toNat (b :: bs) / 256 ^ bs.length = b.toNat := by
  rw [toNat_cons, Nat.add_comm, Nat.add_mul_div_right _ _ (Nat.pow_pos (by decide)),
    Nat.div_eq_of_lt (toNat_lt bs), Nat.zero_add]

/-- Bytes hold of a number what fits into so many of them. -/
theorem toNat_bigEndian (count n : Nat) : toNat (bigEndian count n) = n % 256 ^ count := by
  induction count with
  | zero => simp [bigEndian, toNat, Nat.mod_one]
  | succ count ih =>
    have hdigit : (UInt8.ofNat (n / 256 ^ count)).toNat = n / 256 ^ count % 256 :=
      UInt8.toNat_ofNat'
    rw [bigEndian, toNat_cons, ih, length_bigEndian, hdigit, Nat.pow_succ, Nat.mod_mul,
      Nat.mul_comm, Nat.add_comm]

/-- A number that fits is read back. -/
theorem toNat_bigEndian_of_lt {count n : Nat} (h : n < 256 ^ count) :
    toNat (bigEndian count n) = n := by
  rw [toNat_bigEndian, Nat.mod_eq_of_lt h]

/-- As many bytes stand for one number only once. -/
theorem eq_of_toNat_eq {bs cs : List UInt8} (hlength : bs.length = cs.length)
    (h : toNat bs = toNat cs) : bs = cs := by
  induction bs generalizing cs with
  | nil => exact (List.length_eq_zero_iff.1 hlength.symm).symm
  | cons b bs ih =>
    cases cs with
    | nil => cases hlength
    | cons c cs =>
      have hlength : bs.length = cs.length := Nat.succ.inj hlength
      have hhigh : b.toNat = c.toNat := by
        rw [← toNat_cons_div b bs, h, hlength, toNat_cons_div]
      rw [toNat_cons, toNat_cons, hhigh, hlength] at h
      rw [UInt8.toNat_inj.1 hhigh, ih hlength (Nat.add_left_cancel h)]

/-- The bytes of the number that bytes stand for are those bytes. -/
theorem bigEndian_toNat (bs : List UInt8) : bigEndian bs.length (toNat bs) = bs :=
  eq_of_toNat_eq (length_bigEndian _ _) (toNat_bigEndian_of_lt (toNat_lt bs))

end Intension.Bytes
