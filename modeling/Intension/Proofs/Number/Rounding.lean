import Intension.Number.Shortest
import Mathlib.Data.Int.Log
import Mathlib.Data.Rat.Floor

/-!
# Intension.Proofs.Number.Rounding

The double nearest to a quotient depends on the quotient alone, not on how it is
put as a numerator and a denominator; and the double nearest to the value of a
finite number is that number.  The exponent that rounding starts from is the
logarithm of a rational, which settles both.
-/

namespace Intension.Number

/-- A quotient against a power of two, without division. -/
theorem zpow_le_div_iff {n d : Nat} (hd : 0 < d) (e : Int) :
    (2 : ℚ) ^ e ≤ (n : ℚ) / d ↔ d * 2 ^ e.toNat ≤ n * 2 ^ (-e).toNat := by
  have hd' : (0 : ℚ) < d := by exact_mod_cast hd
  rw [le_div_iff₀ hd']
  obtain ⟨k, rfl | rfl⟩ := e.eq_nat_or_neg
  · have hpow : (2 : ℚ) ^ (k : Int) * d ≤ n ↔ d * 2 ^ k ≤ n := by
      rw [zpow_natCast, mul_comm]
      exact_mod_cast Iff.rfl
    simpa using hpow
  · have hpos : (0 : ℚ) < 2 ^ k := by positivity
    have hpow : (2 : ℚ) ^ (-(k : Int)) * d ≤ n ↔ d ≤ n * 2 ^ k := by
      rw [zpow_neg, zpow_natCast, inv_mul_le_iff₀ hpos, mul_comm]
      exact_mod_cast Iff.rfl
    simpa using hpow

/-- The logarithms of two numbers enclose that of their quotient. -/
theorem zpow_enclose_div {n d : Nat} (hn : 0 < n) (hd : 0 < d) :
    (2 : ℚ) ^ ((n.log2 : Int) - d.log2 - 1) ≤ (n : ℚ) / d ∧
      (n : ℚ) / d < (2 : ℚ) ^ ((n.log2 : Int) - d.log2 + 1) := by
  have hnlow : (2 : ℚ) ^ n.log2 ≤ n := by exact_mod_cast Nat.log2_self_le hn.ne'
  have hnhigh : (n : ℚ) < 2 ^ (n.log2 + 1) := by exact_mod_cast Nat.lt_log2_self
  have hdlow : (2 : ℚ) ^ d.log2 ≤ d := by exact_mod_cast Nat.log2_self_le hd.ne'
  have hdhigh : (d : ℚ) < 2 ^ (d.log2 + 1) := by exact_mod_cast Nat.lt_log2_self
  have hd' : (0 : ℚ) < d := by exact_mod_cast hd
  have hlow : (2 : ℚ) ^ ((n.log2 : Int) - d.log2 - 1) = 2 ^ n.log2 / 2 ^ (d.log2 + 1) := by
    rw [sub_sub, zpow_sub₀ two_ne_zero]
    norm_cast
  have hhigh : (2 : ℚ) ^ ((n.log2 : Int) - d.log2 + 1) = 2 ^ (n.log2 + 1) / 2 ^ d.log2 := by
    rw [sub_add_eq_add_sub, zpow_sub₀ two_ne_zero]
    norm_cast
  constructor
  · rw [hlow]
    gcongr
  · rw [hhigh]
    gcongr

/-- The logarithm of a quotient of naturals is that of the rational number. -/
theorem log2Quotient_eq {n d : Nat} (hn : 0 < n) (hd : 0 < d) :
    log2Quotient n d = Int.log 2 ((n : ℚ) / d) := by
  have hq : (0 : ℚ) < (n : ℚ) / d := by positivity
  have hle (e : Int) : (2 : ℚ) ^ e ≤ (n : ℚ) / d ↔ e ≤ Int.log 2 ((n : ℚ) / d) := by
    rw [← Int.zpow_le_iff_le_log (by decide) hq, Nat.cast_ofNat]
  have hlt (e : Int) : (n : ℚ) / d < (2 : ℚ) ^ e ↔ Int.log 2 ((n : ℚ) / d) < e := by
    rw [← Int.lt_zpow_iff_log_lt (by decide) hq, Nat.cast_ofNat]
  have hlow := (hle _).1 (zpow_enclose_div hn hd).1
  have hhigh := (hlt _).1 (zpow_enclose_div hn hd).2
  unfold log2Quotient
  simp only [← zpow_le_div_iff hd, hle]
  split <;> omega

/-! ## scaling -/

/-- The logarithm of a quotient is that of the reduced fraction. -/
theorem log2Quotient_mul_right {n d c : Nat} (hn : 0 < n) (hd : 0 < d) (hc : 0 < c) :
    log2Quotient (n * c) (d * c) = log2Quotient n d := by
  have hc' : (c : ℚ) ≠ 0 := by exact_mod_cast hc.ne'
  rw [log2Quotient_eq (by positivity) (by positivity), log2Quotient_eq hn hd, Nat.cast_mul,
    Nat.cast_mul, mul_div_mul_right _ _ hc']

/-- Rounding a quotient is rounding the reduced fraction. -/
theorem roundQuotient_mul_right (n d : Nat) {c : Nat} (hc : 0 < c) :
    roundQuotient (n * c) (d * c) = roundQuotient n d := by
  have hlt (a b : Nat) : a * c < b * c ↔ a < b := Nat.mul_lt_mul_right hc
  unfold roundQuotient
  rw [Nat.mul_mod_mul_right, Nat.mul_div_mul_right _ _ hc, ← Nat.mul_assoc]
  simp only [hlt]

/-- **Only the quotient matters** to the double nearest to it. -/
theorem nearestMagnitude_mul_right (n : Nat) {d c : Nat} (hd : 0 < d) (hc : 0 < c) :
    nearestMagnitude (n * c) (d * c) = nearestMagnitude n d := by
  obtain rfl | hn := n.eq_zero_or_pos
  · rw [Nat.zero_mul, nearestMagnitude, nearestMagnitude]
    simp
  · have hnc : n * c ≠ 0 := by positivity
    unfold nearestMagnitude
    simp only [if_neg hn.ne', if_neg hnc, log2Quotient_mul_right hn hd hc,
      Nat.mul_right_comm _ c, roundQuotient_mul_right _ _ hc]

/-! ## exact values -/

variable {x : Number}

/-- A power of two with an integer exponent, as a quotient of naturals. -/
theorem zpow_toNat_div (e : Int) : (2 : ℚ) ^ e.toNat / 2 ^ (-e).toNat = 2 ^ e := by
  obtain ⟨k, rfl | rfl⟩ := e.eq_nat_or_neg
  · simp
  · simp

/-- The value of a finite number, its sign aside. -/
theorem div_ratio (x : Number) :
    (x.ratio.1 : ℚ) / x.ratio.2 = x.significand * (2 : ℚ) ^ x.exponent := by
  rw [← zpow_toNat_div, ratio]
  push_cast
  rw [mul_div_assoc]

/-- Significands fill the numbers of fifty-three bits, except next to zero, where the exponent
stays at its least. -/
theorem significand_cases (x : Number) :
    (x.significand < 2 ^ 52 ∧ x.exponent = -1074 ∧ x.significand = x.magnitude) ∨
      (2 ^ 52 ≤ x.significand ∧ x.significand < 2 ^ 53 ∧ -1074 ≤ x.exponent ∧
        (x.exponent + 1074).toNat * 2 ^ 52 + x.significand = x.magnitude) := by
  unfold significand exponent
  have hmod := Nat.div_add_mod x.magnitude (2 ^ 52)
  have hlt := Nat.mod_lt x.magnitude (show 0 < 2 ^ 52 by decide)
  split
  · next hsmall =>
    rw [Nat.div_eq_of_lt hsmall]
    exact .inl ⟨hsmall, by decide, rfl⟩
  · next hlarge =>
    have hexp : 1 ≤ x.magnitude / 2 ^ 52 := (Nat.one_le_div_iff (by decide)).2 (by omega)
    rw [Nat.max_eq_right hexp]
    refine .inr ⟨by omega, by omega, by omega, by omega⟩

theorem significand_pos (h : x.magnitude ≠ 0) : 0 < x.significand := by
  obtain ⟨-, -, heq⟩ | ⟨hle, -⟩ := x.significand_cases <;> omega

theorem ratio_pos (h : x.magnitude ≠ 0) : 0 < x.ratio.1 ∧ 0 < x.ratio.2 := by
  have hsig := significand_pos h
  constructor
  · exact Nat.mul_pos hsig (by positivity)
  · exact Nat.pow_pos (by decide)

/-- The exponent that rounding starts from is that of the number. -/
theorem max_log2Quotient_ratio (h : x.magnitude ≠ 0) :
    max (-1074) (log2Quotient x.ratio.1 x.ratio.2 - 52) = x.exponent := by
  obtain ⟨hn, hd⟩ := ratio_pos h
  have hq : (0 : ℚ) < (x.ratio.1 : ℚ) / x.ratio.2 := by positivity
  have hpow (k : Nat) : (2 : ℚ) ^ k * 2 ^ x.exponent = ((2 : Nat) : ℚ) ^ (k + x.exponent) := by
    rw [Nat.cast_ofNat, zpow_add₀ two_ne_zero, zpow_natCast]
  have hlt {k : Nat} (hk : x.significand < 2 ^ k) :
      log2Quotient x.ratio.1 x.ratio.2 < k + x.exponent := by
    have hk' : (x.significand : ℚ) < 2 ^ k := by exact_mod_cast hk
    rw [log2Quotient_eq hn hd, ← Int.lt_zpow_iff_log_lt (by decide) hq, div_ratio, ← hpow]
    exact mul_lt_mul_of_pos_right hk' (zpow_pos two_pos _)
  have hle {k : Nat} (hk : 2 ^ k ≤ x.significand) :
      k + x.exponent ≤ log2Quotient x.ratio.1 x.ratio.2 := by
    have hk' : (2 : ℚ) ^ k ≤ x.significand := by exact_mod_cast hk
    rw [log2Quotient_eq hn hd, ← Int.zpow_le_iff_le_log (by decide) hq, div_ratio, ← hpow]
    exact mul_le_mul_of_nonneg_right hk' (zpow_pos two_pos _).le
  obtain ⟨hsmall, hexp, -⟩ | ⟨hlow, hhigh, hexp, -⟩ := x.significand_cases
  · have := hlt hsmall
    omega
  · have := hlt hhigh
    have := hle hlow
    omega

/-- A finite number is the double nearest to itself. -/
theorem nearestMagnitude_ratio (hx : x.isFinite) (h : x.magnitude ≠ 0) :
    nearestMagnitude x.ratio.1 x.ratio.2 = x.magnitude := by
  obtain ⟨hn, hd⟩ := ratio_pos h
  have hround : roundQuotient (x.ratio.1 * 2 ^ (-x.exponent).toNat)
      (x.ratio.2 * 2 ^ x.exponent.toNat) = x.significand := by
    have hscaled := roundQuotient_mul_right x.significand 1
      (show 0 < 2 ^ x.exponent.toNat * 2 ^ (-x.exponent).toNat by positivity)
    rw [Nat.one_mul] at hscaled
    rw [ratio, Nat.mul_assoc, Nat.mul_comm (2 ^ (-x.exponent).toNat), hscaled]
    simp [roundQuotient, Nat.mod_one]
  have hfinite : x.magnitude < infiniteMagnitude := by simpa [isFinite] using hx
  rw [nearestMagnitude, if_neg hn.ne', max_log2Quotient_ratio h]
  dsimp only
  rw [hround]
  obtain ⟨-, hexp, heq⟩ | ⟨-, -, -, heq⟩ := x.significand_cases
  · rw [hexp]
    omega
  · omega

end Intension.Number
