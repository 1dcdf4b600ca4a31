import Mathlib
import Trivariate.Binary64.Rounding

/-! A number is made of its sign and its magnitude again, and the quotient that a magnitude stands
for is rounded to that magnitude. -/

namespace Trivariate.Binary64

theorem significand_lt (m : Nat) : significand m < 2 * fractionSize := by
  have hpos : 0 < fractionSize := by decide
  have hmod := Nat.mod_lt m hpos
  unfold significand
  split
  next h =>
    have hlt : m < fractionSize := (Nat.div_eq_zero_iff_lt hpos).mp h
    omega
  next => omega

theorem scale_exponent_add_significand (m : Nat) :
    fractionSize * (exponent m - 1) + significand m = m := by
  have hdiv := Nat.div_add_mod m fractionSize
  unfold significand
  by_cases h : exponent m = 0
  · rw [if_pos h, h, Nat.zero_sub, Nat.mul_zero, Nat.zero_add]
  · rw [if_neg h, ← Nat.add_assoc, ← Nat.mul_add_one, Nat.sub_add_cancel (by omega)]
    exact hdiv

theorem log2_units (m : Nat) : (units m).log2 - 52 = exponent m - 1 := by
  have hlt := significand_lt m
  have hfraction : fractionSize = 2 ^ 52 := rfl
  unfold units
  -- a subnormal number may have fewer than 53 digits, but then nothing is left of either side
  by_cases h : exponent m = 0
  · have hsmall : m < fractionSize := (Nat.div_eq_zero_iff_lt (by decide)).mp h
    rw [h, significand, if_pos h, Nat.zero_sub, Nat.shiftLeft_zero]
    by_cases h0 : m = 0
    · rw [h0, Nat.log2_zero]
    · have hlog := (Nat.log2_lt h0).mpr (hfraction ▸ hsmall)
      omega
  · have hge : fractionSize ≤ significand m := by
      rw [significand, if_neg h]
      exact Nat.le_add_right ..
    have hpos : 0 < 2 ^ (exponent m - 1) := Nat.two_pow_pos _
    have hlow : 2 ^ (52 + (exponent m - 1)) = fractionSize * 2 ^ (exponent m - 1) := Nat.pow_add ..
    have hhigh : 2 ^ (52 + (exponent m - 1) + 1) = 2 * fractionSize * 2 ^ (exponent m - 1) := by
      rw [Nat.pow_succ, hlow, Nat.mul_comm, Nat.mul_assoc]
    have hlog : (significand m <<< (exponent m - 1)).log2 = 52 + (exponent m - 1) := by
      rw [Nat.shiftLeft_eq, Nat.log2_eq_iff (Nat.mul_ne_zero (by omega) (by omega)), hlow, hhigh]
      exact ⟨Nat.mul_le_mul_right _ hge, Nat.mul_lt_mul_of_pos_right hlt hpos⟩
    omega

theorem nearestNat_mul (q : Nat) {den : Nat} (h : 0 < den) : nearestNat (q * den) den = q := by
  have hlt : 2 * (q * den % den) < den := by
    rw [Nat.mul_mod_left]
    exact h
  unfold nearestNat
  simp only [Nat.mul_div_cancel q h, decide_eq_true hlt, Bool.true_or, if_true]

theorem nearest_exact {m num den : Nat} (hm : m ≤ infinite) (hden : 0 < den)
    (h : unitsPerOne * num = units m * den) : nearest num den = m := by
  have hscale : scale num den = exponent m - 1 := by
    rw [scale, h, Nat.mul_div_cancel _ hden, log2_units]
  have hgrid : units m * den = significand m * (den <<< (exponent m - 1)) := by
    rw [units, Nat.shiftLeft_eq, Nat.shiftLeft_eq]
    ac_rfl
  have hpos : 0 < den <<< (exponent m - 1) := by
    rw [Nat.shiftLeft_eq]
    exact Nat.mul_pos hden (Nat.two_pow_pos _)
  rw [nearest, hscale, h, hgrid, nearestNat_mul _ hpos, scale_exponent_add_significand]
  exact Nat.min_eq_left hm

theorem ofMagnitude_magnitude (x : Float) : ofMagnitude (isNegative x) (magnitude x) = x := by
  have hlt := x.toBits.toNat_lt
  have hword : (if isNegative x then signBit + magnitude x else magnitude x) = x.toBits.toNat := by
    unfold isNegative magnitude
    have hsign : signBit = 2 ^ 63 := rfl
    rw [hsign]
    by_cases h : 2 ^ 63 ≤ x.toBits.toNat
    · rw [if_pos (decide_eq_true h)]
      omega
    · rw [if_neg (by simpa using h)]
      omega
  rw [ofMagnitude, hword, UInt64.ofNat_toNat, Float.ofBits_toBits]

end Trivariate.Binary64
