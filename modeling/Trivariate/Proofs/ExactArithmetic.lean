import Trivariate.Proofs.ZeroSigns

/-! Operations that lose nothing to rounding: products and quotients by one, and negation. -/

namespace Trivariate.Binary64

open Float.Model (Format UnpackedFloat totalExponent)
open Float.Model.UnpackedFloat

/-- An integer and the exponent that numbers have it with: the least one that leaves the integer no
more than 53 binary digits, but never less than that of the subnormal numbers. -/
def Settled (m : Nat) (e : Int) : Prop := Format.binary64.targetExponent (totalExponent m e) = e

theorem settled_iff {m : Nat} {e : Int} : Settled m e ↔ max (m.log2 + 1 + e - 53) (-1074) = e := Iff.rfl

theorem settled_subnormal {m : Nat} (hm : 0 < m) (hlt : m < 2 ^ 52) : Settled m (-1074) := by
  have hlog := (Nat.log2_lt hm.ne').mpr hlt
  rw [settled_iff]
  omega

theorem settled_normal {m : Nat} {e : Int} (hlow : 2 ^ 52 ≤ m) (hhigh : m < 2 ^ 53) (he : -1074 ≤ e) :
    Settled m e := by
  have hlog : m.log2 = 52 := (Nat.log2_eq_iff (by omega)).mpr ⟨hlow, hhigh⟩
  rw [settled_iff, hlog]
  omega

theorem settled_of_unpack {b : BitVec Format.binary64.numBits} {s : Sign} {m : Nat} {e : Int}
    {hm : 0 < m} (h : unpack .binary64 b = .finite s m e hm) : Settled m e := by
  have hbias : (Format.binary64.exponentBias : Int) = 1023 := rfl
  have hfraction : (unpackMantissa b).toNat < 2 ^ 52 := (unpackMantissa b).isLt
  unfold unpack at h
  dsimp only at h
  split at h
  next => split at h <;> cases h
  next =>
    split at h
    next hexponent =>
      split at h
      next => cases h
      next =>
        cases h
        rw [hexponent, hbias]
        exact settled_subnormal hm hfraction
    next hexponent =>
      cases h
      -- the leading one stands above the fraction
      have hvalue : (1#1 ++ unpackMantissa b).toNat = 2 ^ 52 + (unpackMantissa b).toNat := by
        rw [BitVec.toNat_append]
        exact (Nat.two_pow_add_eq_or_of_lt hfraction 1).symm
      have hpos : (unpackExponent b).toNat ≠ 0 := fun hzero => hexponent (BitVec.eq_of_toNat_eq hzero)
      rw [hvalue, hbias]
      exact settled_normal (by omega) (by omega) (by omega)

section Rounding

variable {m : Nat} {e : Int}

theorem log2_mul_two_pow (hm : 0 < m) (k : Nat) : (m * 2 ^ k).log2 = m.log2 + k := by
  induction k with
  | zero => rw [Nat.pow_zero, Nat.mul_one, Nat.add_zero]
  | succ k ih =>
    have hpos : m * 2 ^ k ≠ 0 := (Nat.mul_pos hm (Nat.two_pow_pos k)).ne'
    have hdouble : m * 2 ^ (k + 1) = 2 * (m * 2 ^ k) := by
      rw [Nat.pow_succ, ← Nat.mul_assoc, Nat.mul_comm]
    rw [hdouble, Nat.log2_two_mul hpos, ih, Nat.add_assoc]

theorem shift_exact (m k : Nat) :
    ExtendedMantissa.mk (m * 2 ^ k) false false >>> k = ⟨m, false, false⟩ := by
  induction k generalizing m with
  | zero =>
    rw [Nat.pow_zero, Nat.mul_one]
    rfl
  | succ k ih =>
    have hlast : ExtendedMantissa.mk (m * 2 ^ (k + 1)) false false >>> (k + 1) =
        (ExtendedMantissa.mk (m * 2 * 2 ^ k) false false >>> k).shiftRightOne := by
      rw [Nat.pow_succ, Nat.mul_comm (2 ^ k), Nat.mul_assoc]
      rfl
    rw [hlast, ih]
    simp [ExtendedMantissa.shiftRightOne]

theorem shiftToTargetExponent_settled (hm : 0 < m) (h : Settled m e) (k : Nat) :
    shiftToTargetExponent .binary64 (m * 2 ^ k) (e - k) .exact = (⟨m, false, false⟩, e) := by
  have htarget : Format.binary64.targetExponent (totalExponent (m * 2 ^ k) (e - k)) = e := by
    rw [settled_iff] at h
    have hsettled : max (((m * 2 ^ k).log2 : Int) + 1 + (e - k) - 53) (-1074) = e := by
      rw [log2_mul_two_pow hm]
      omega
    exact hsettled
  have hamount : (e - (e - k)).toNat = k := by omega
  have hsum : e - k + (k : Int) = e := by omega
  unfold shiftToTargetExponent shiftToExponent
  simp only [htarget, hamount, hsum]
  exact Prod.ext (shift_exact m k) rfl

theorem roundWithAccuracy_settled (hm : 0 < m) (h : Settled m e) (s : Sign) (k : Nat) :
    roundWithAccuracy .binary64 s (m * 2 ^ k) (e - k) .exact = .finite s m e hm := by
  have hagain := shiftToTargetExponent_settled hm h 0
  rw [Nat.pow_zero, Nat.mul_one, Int.natCast_zero, Int.sub_zero] at hagain
  have hrounded : ExtendedMantissa.roundedMantissa ⟨m, false, false⟩ = m := rfl
  unfold roundWithAccuracy
  rw [shiftToTargetExponent_settled hm h k]
  dsimp only
  rw [hrounded]
  simp only [hagain]
  rw [dif_neg hm.ne']

theorem divCore_one (h : Settled m e) :
    ∃ k : Nat, divCore .binary64 m e (2 ^ 52) (-52) = (m * 2 ^ k, e - k, .exact) := by
  have htarget : Format.binary64.targetExponent (totalExponent m e - totalExponent (2 ^ 52) (-52)) =
      max (m.log2 + e - 53) (-1074) := by
    have htotal : totalExponent m e - totalExponent (2 ^ 52) (-52) = m.log2 + e := by
      rw [totalExponent, totalExponent, Nat.log2_two_pow]
      omega
    exact congrArg Format.binary64.targetExponent htotal
  rw [settled_iff] at h
  generalize ht : min (e - -52) (Format.binary64.targetExponent
    (totalExponent m e - totalExponent (2 ^ 52) (-52))) = t
  have hle : t ≤ e := by omega
  have hshift : (e - -52 - t).toNat = (e - t).toNat + 52 := by omega
  have hwide : m <<< ((e - t).toNat + 52) = m * 2 ^ (e - t).toNat * 2 ^ 52 := by
    rw [Nat.shiftLeft_eq, Nat.pow_add, Nat.mul_assoc]
  have hexponent : e - (e - t).toNat = t := by omega
  refine ⟨(e - t).toNat, ?_⟩
  unfold divCore
  simp only [ht, hshift, hwide, Nat.mul_mod_left, Nat.mul_div_cancel _ (Nat.two_pow_pos 52), hexponent]
  rfl

end Rounding

section One

theorem sign_mul_positive (s : Sign) : s * .positive = s := by
  cases s <;> rfl

theorem sign_div_positive (s : Sign) : s / .positive = s := by
  cases s <;> rfl

theorem unpacked_one : unpacked 1 = .finite .positive (2 ^ 52) (-52) (by decide) := rfl

protected theorem mul_one (x : Float) : x * 1 = x := by
  have hmul : x * 1 = packed ((unpacked x).mul .binary64 (unpacked 1)) := rfl
  rw [hmul, unpacked_one]
  conv_rhs => rw [← packed_unpacked x]
  cases hx : unpacked x with
  | notANumber => rfl
  | infinity s => cases s <;> rfl
  | zero s => cases s <;> rfl
  | finite s m e hm =>
    rw [UnpackedFloat.mul, sign_mul_positive]
    exact congrArg packed (roundWithAccuracy_settled hm (settled_of_unpack hx) s 52)

protected theorem one_mul (x : Float) : 1 * x = x :=
  (Binary64.mul_comm 1 x).trans (Binary64.mul_one x)

protected theorem div_one (x : Float) : x / 1 = x := by
  have hdiv : x / 1 = packed ((unpacked x).div .binary64 (unpacked 1)) := rfl
  rw [hdiv, unpacked_one]
  conv_rhs => rw [← packed_unpacked x]
  cases hx : unpacked x with
  | notANumber => rfl
  | infinity s => cases s <;> rfl
  | zero s => cases s <;> rfl
  | finite s m e hm =>
    have hsettled : Settled m e := settled_of_unpack hx
    obtain ⟨k, hk⟩ := divCore_one hsettled
    rw [UnpackedFloat.div, hk]
    dsimp only
    rw [sign_div_positive]
    exact congrArg packed (roundWithAccuracy_settled hm hsettled s k)

end One

section Negation

def flipped (b : BitVec Format.binary64.numBits) : BitVec Format.binary64.numBits :=
  packComponents .binary64 (-Sign.ofBitVec (unpackSign b)) (unpackExponent b) (unpackMantissa b)

variable {b : BitVec Format.binary64.numBits}

theorem unpack_flipped (b : BitVec Format.binary64.numBits) :
    unpack .binary64 (flipped b) = (unpack .binary64 b).neg := by
  unfold unpack flipped
  simp only [unpackSign_packComponents, unpackExponent_packComponents, unpackMantissa_packComponents,
    Sign.ofBitVec_toBitVec]
  split
  next => split <;> rfl
  next =>
    split
    next => split <;> rfl
    next => rfl

theorem valid_flipped (hb : Format.binary64.Valid b) (h : unpack .binary64 b ≠ .notANumber) :
    Format.binary64.Valid (flipped b) := by
  constructor
  intro hexponent hfraction
  rw [flipped, unpackExponent_packComponents] at hexponent
  rw [flipped, unpackMantissa_packComponents] at hfraction
  have hnone := hb.eq_packedNaN hexponent hfraction
  exact absurd ((unpack_eq_notANumber_iff_of_valid hb).mpr hnone) h

theorem unpacked_neg (x : Float) : unpacked (-x) = (unpacked x).neg := by
  by_cases h : unpacked x = .notANumber
  · have hneg : unpacked (-x) = unpack .binary64 (pack .binary64 (unpacked x).neg) := rfl
    rw [hneg, h]
    exact unpack_packedNaN
  · have hpack := pack_unpack_of_valid (valid_flipped x.toModel.valid h)
    rw [unpack_flipped] at hpack
    have hneg : unpacked (-x) = unpack .binary64 (flipped x.toModel.toBits.toBitVec) :=
      congrArg (unpack .binary64) hpack
    rw [hneg, unpack_flipped]
    rfl

protected theorem neg_neg (x : Float) : - -x = x := by
  have hneg : - -x = packed (unpacked (-x)).neg := rfl
  rw [hneg, unpacked_neg]
  conv_rhs => rw [← packed_unpacked x]
  cases unpacked x with
  | notANumber => rfl
  | infinity s => cases s <;> rfl
  | zero s => cases s <;> rfl
  | finite s m e hm => cases s <;> rfl

end Negation
end Trivariate.Binary64
