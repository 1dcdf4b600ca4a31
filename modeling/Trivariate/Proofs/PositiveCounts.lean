import Trivariate.Proofs.ExactArithmetic

/-! Positive counts as numbers. Rounding never takes a positive integer to zero, so that a zero has a
quotient by every positive count, and that is a zero again. -/

namespace Trivariate.Binary64

open Float.Model (Format UnpackedFloat totalExponent)
open Float.Model.UnpackedFloat

section Rounding

variable {m : Nat} {e : Int}

theorem mantissa_shift (em : ExtendedMantissa) (k : Nat) : (em >>> k).mantissa = em.mantissa / 2 ^ k := by
  induction k with
  | zero =>
    rw [Nat.pow_zero, Nat.div_one]
    rfl
  | succ k ih =>
    have hlast : (em >>> (k + 1)).mantissa = (em >>> k).mantissa / 2 := rfl
    rw [hlast, ih, Nat.div_div_eq_div_mul, Nat.pow_succ]

theorem le_roundedMantissa (em : ExtendedMantissa) : em.mantissa ≤ em.roundedMantissa := by
  obtain ⟨m, r, s⟩ := em
  cases r <;> cases s
  · exact Nat.le_refl m
  · exact Nat.le_refl m
  · exact Nat.le_add_right m (m % 2)
  · exact Nat.le_succ m

theorem shiftToTargetExponent_bounds (hm : 0 < m) (he : -1074 ≤ e) (accuracy : Accuracy) :
    0 < (shiftToTargetExponent .binary64 m e accuracy).1.mantissa ∧
    (shiftToTargetExponent .binary64 m e accuracy).1.mantissa < 2 ^ 53 ∧
    -1074 ≤ (shiftToTargetExponent .binary64 m e accuracy).2 := by
  have htarget : Format.binary64.targetExponent (totalExponent m e) = max (m.log2 + 1 + e - 53) (-1074) :=
    rfl
  have hmantissa : (ExtendedMantissa.ofMantissaAndAccuracy m accuracy).mantissa = m := by
    rcases accuracy with _ | (_ | _ | _) <;> rfl
  have hamount : (max (m.log2 + 1 + e - 53) (-1074) - e).toNat = m.log2 - 52 := by omega
  unfold shiftToTargetExponent shiftToExponent
  simp only [htarget, hamount, mantissa_shift, hmantissa]
  have hlow : 2 ^ (m.log2 - 52) ≤ m :=
    (Nat.pow_le_pow_right (by decide) (Nat.sub_le ..)).trans (Nat.log2_self_le hm.ne')
  have hhigh : m < 2 ^ 53 * 2 ^ (m.log2 - 52) := by
    rw [← Nat.pow_add]
    exact Nat.lt_log2_self.trans_le (Nat.pow_le_pow_right (by decide) (by omega))
  refine ⟨Nat.div_pos hlow (Nat.two_pow_pos _), ?_, by omega⟩
  exact (Nat.div_lt_iff_lt_mul (Nat.two_pow_pos _)).mpr hhigh

/-- A number above zero as it comes out of rounding: at most 53 binary digits, and none below the
last place of the subnormal numbers. -/
def Rounded (u : UnpackedFloat) : Prop :=
  ∃ s m e, ∃ hm : 0 < m, u = .finite s m e hm ∧ m < 2 ^ 53 ∧ -1074 ≤ e

theorem rounded_roundWithAccuracy (hm : 0 < m) (he : -1074 ≤ e) (s : Sign) (accuracy : Accuracy) :
    Rounded (roundWithAccuracy .binary64 s m e accuracy) := by
  obtain ⟨hpos, -, hexponent⟩ := shiftToTargetExponent_bounds hm he accuracy
  -- rounding up may add a digit, which the second shift cuts
  obtain ⟨hpos', hlt', hexponent'⟩ :=
    shiftToTargetExponent_bounds (hpos.trans_le (le_roundedMantissa _)) hexponent .exact
  refine ⟨s, _, _, hpos', ?_, hlt', hexponent'⟩
  unfold roundWithAccuracy
  exact dif_neg hpos'.ne'

theorem rounded_round (hm : 0 < m) (he : -1074 ≤ e) (s : Sign) :
    Rounded (UnpackedFloat.round .binary64 s m e) := by
  have htarget : Format.binary64.targetExponent (totalExponent m e) = max (m.log2 + 1 + e - 53) (-1074) :=
    rfl
  unfold UnpackedFloat.round decreaseExponent
  rw [htarget]
  refine rounded_roundWithAccuracy ?_ (by omega) s .exact
  rw [Nat.shiftLeft_eq]
  exact Nat.mul_pos hm (Nat.two_pow_pos _)

end Rounding

section Packing

def Divisor (u : UnpackedFloat) : Prop := u ≠ .notANumber ∧ ∀ s, u ≠ .zero s

theorem divisor_of_components {s : Sign} {exponent : BitVec Format.binary64.exponentBits}
    {fraction : BitVec Format.binary64.mantissaBitsWithoutImplicit} (hexponent : exponent ≠ -1#_)
    (h : exponent ≠ 0#_ ∨ fraction ≠ 0#_) :
    Divisor (unpack .binary64 (packComponents .binary64 s exponent fraction)) := by
  unfold unpack
  simp only [unpackExponent_packComponents, unpackMantissa_packComponents]
  rw [if_neg hexponent]
  split
  next hzero =>
    rw [dif_neg (h.resolve_left (not_not_intro hzero))]
    exact ⟨nofun, nofun⟩
  next => exact ⟨nofun, nofun⟩

theorem divisor_of_rounded {u : UnpackedFloat} (h : Rounded u) : Divisor (unpacked (packed u)) := by
  obtain ⟨s, m, e, hm, rfl, hlt, he⟩ := h
  have hunpacked : unpacked (packed (.finite s m e hm)) =
      unpack .binary64 (pack .binary64 (.finite s m e hm)) := rfl
  have hbiased : (e + Format.binary64.exponentBias + Format.binary64.mantissaBitsWithoutImplicit).toNat =
      (e + 1023 + 52).toNat := rfl
  rw [hunpacked]
  unfold pack
  dsimp only
  rw [hbiased]
  split
  next =>
    have hinfinity : unpack .binary64 (packedInfinity .binary64 s) = .infinity s := by cases s <;> rfl
    rw [hinfinity]
    exact ⟨nofun, nofun⟩
  next hsmall =>
    have hfits : (e + 1023 + 52).toNat + 1 < 2 ^ 11 := Nat.not_le.mp hsmall
    split
    next =>
      have hnat : (BitVec.ofNat 11 (e + 1023 + 52).toNat).toNat = (e + 1023 + 52).toNat :=
        Nat.mod_eq_of_lt (by omega)
      refine divisor_of_components ?_ (.inl ?_)
      · intro h
        have htop : (e + 1023 + 52).toNat = 2047 := hnat.symm.trans (congrArg BitVec.toNat h)
        omega
      · intro h
        have hbottom : (e + 1023 + 52).toNat = 0 := hnat.symm.trans (congrArg BitVec.toNat h)
        omega
    next hdigits =>
      have hlog : m.log2 < 53 := (Nat.log2_lt hm.ne').mpr hlt
      have hfew : m.log2 + 1 ≠ 53 := hdigits
      have hfraction : m < 2 ^ 52 := (Nat.log2_lt hm.ne').mp (by omega)
      have hnat : (BitVec.ofNat 52 m).toNat = m := Nat.mod_eq_of_lt hfraction
      refine divisor_of_components (by decide) (.inr ?_)
      intro h
      have hbottom : m = 0 := hnat.symm.trans (congrArg BitVec.toNat h)
      omega

end Packing

section Conversion

variable {n : Nat} (hn : 0 < n)
include hn

theorem ofScientific_count : UnpackedFloat.ofScientific .binary64 n 0 =
    roundWithAccuracy .binary64 (.positive * .positive) (n <<< 53 * 1) (-53 + 0) .exact := by
  have hlarge : ¬ (0 : Int) > 2 ^ Format.binary64.exponentBits := by decide
  have hsmall : ¬ (0 : Int) < -(2 ^ Format.binary64.exponentBits + n.log2) := by
    have hbits : (2 : Int) ^ Format.binary64.exponentBits = 2048 := rfl
    rw [hbits]
    omega
  rw [UnpackedFloat.ofScientific, dif_neg hn.ne', if_neg hlarge, if_neg hsmall, if_pos (Int.le_refl 0)]
  rfl

/-- Counts below `2 ^ 53` are converted as machine words, greater ones as decimals. -/
theorem exists_rounded_count : ∃ u, Rounded u ∧ n.toFloat = packed u := by
  have hscientific : n.toFloat = Float.ofScientific n false 0 := rfl
  rw [hscientific, Float.ofScientific]
  split
  next h =>
    have hone : Float.exactlyRepresentablePowersOfTen[0] = 1 := rfl
    have hword : n.toUInt64.toNat = n := Nat.mod_eq_of_lt (by omega)
    have hconvert : n.toUInt64.toFloat =
        packed (UnpackedFloat.normalize .binary64 n.toUInt64.toNat 0 .positive) := rfl
    have hcompare : compare (n : Int) 0 = .gt := Int.compare_eq_gt.mpr (by omega)
    have hleast : (-1074 : Int) ≤ 0 := by decide
    refine ⟨_, rounded_round hn hleast .positive, ?_⟩
    simp only [hone, Binary64.mul_one, hconvert, hword]
    rw [UnpackedFloat.normalize, hcompare]
    rfl
  next h =>
    have hpos : 0 < n <<< 53 * 1 := by
      rw [Nat.mul_one, Nat.shiftLeft_eq]
      exact Nat.mul_pos hn (Nat.two_pow_pos _)
    have hleast : (-1074 : Int) ≤ -53 + 0 := by decide
    refine ⟨_, rounded_roundWithAccuracy hpos hleast (.positive * .positive) .exact, ?_⟩
    rw [← ofScientific_count hn]
    rfl

theorem isZero_div_count {z : Float} (hz : IsZero z) : IsZero (z / n.toFloat) := by
  obtain ⟨u, hu, hcount⟩ := exists_rounded_count hn
  obtain ⟨hnumber, hnonzero⟩ := divisor_of_rounded hu
  obtain ⟨s, hs⟩ := isZero_iff.mp hz
  have hdiv : z / packed u = packed ((unpacked z).div .binary64 (unpacked (packed u))) := rfl
  rw [hcount, hdiv, hs]
  cases hx : unpacked (packed u) with
  | infinity | finite => exact isZero_packed _
  | notANumber => exact absurd hx hnumber
  | zero t => exact absurd hx (hnonzero t)

end Conversion
end Trivariate.Binary64
