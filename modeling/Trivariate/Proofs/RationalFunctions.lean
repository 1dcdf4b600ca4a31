import Mathlib.Algebra.CharP.Algebra
import Mathlib.Algebra.Polynomial.AlgebraMap
import Mathlib.RingTheory.Derivation.Basic
import Mathlib.RingTheory.DualNumber
import Mathlib.RingTheory.Localization.FractionRing

/-! Rational functions over the rational numbers, differentiated by their expansion at `x + ε` in
dual numbers. -/

namespace Trivariate

open Polynomial

/-- The infinitesimal part of a homomorphism into dual numbers that is the identity up to that. -/
def derivationOfExpansion {K : Type*} [Field K] (f : K →+* DualNumber K) (hf : ∀ u, (f u).fst = u) :
    Derivation ℤ K K :=
  Derivation.mk' (AddMonoidHom.toIntLinearMap
    { toFun := fun u => (f u).snd
      map_zero' := by rw [map_zero, TrivSqZeroExt.snd_zero]
      map_add' := fun u w => by rw [map_add, TrivSqZeroExt.snd_add] }) fun u w => by
    have h : (f (u * w)).snd = u • (f w).snd + w • (f u).snd := by
      rw [map_mul, TrivSqZeroExt.snd_mul, hf, hf, op_smul_eq_smul]
    exact h

abbrev RationalFunction := FractionRing ℚ[X]

namespace RationalFunction

instance : CharZero RationalFunction := IsFractionRing.charZero_of_isFractionRing ℚ[X]

noncomputable def x : RationalFunction := algebraMap ℚ[X] RationalFunction X

theorem x_ne_zero : x ≠ 0 := by
  unfold x
  rw [Ne, FaithfulSMul.algebraMap_eq_zero_iff]
  exact X_ne_zero

noncomputable def constant : ℚ →+* RationalFunction := (algebraMap ℚ[X] RationalFunction).comp C

noncomputable def expandPolynomial : ℚ[X] →+* DualNumber RationalFunction :=
  eval₂RingHom ((TrivSqZeroExt.inlHom RationalFunction RationalFunction).comp constant)
    (TrivSqZeroExt.inl x + TrivSqZeroExt.inr 1)

theorem expandPolynomial_C (q : ℚ) : expandPolynomial (C q) = TrivSqZeroExt.inl (constant q) :=
  eval₂_C _ _

theorem expandPolynomial_X : expandPolynomial X = TrivSqZeroExt.inl x + TrivSqZeroExt.inr 1 :=
  eval₂_X _ _

def fstHom : DualNumber RationalFunction →+* RationalFunction where
  toFun := TrivSqZeroExt.fst
  map_one' := TrivSqZeroExt.fst_one
  map_mul' := TrivSqZeroExt.fst_mul
  map_zero' := TrivSqZeroExt.fst_zero
  map_add' := TrivSqZeroExt.fst_add

theorem fst_expandPolynomial (p : ℚ[X]) :
    (expandPolynomial p).fst = algebraMap ℚ[X] RationalFunction p := by
  have hfst : fstHom.comp expandPolynomial = algebraMap ℚ[X] RationalFunction := by
    refine Polynomial.ringHom_ext (fun q => ?_) ?_
    · exact congrArg TrivSqZeroExt.fst (expandPolynomial_C q)
    · have hx : (TrivSqZeroExt.inl x + TrivSqZeroExt.inr 1 : DualNumber RationalFunction).fst = x := by
        rw [TrivSqZeroExt.fst_add, TrivSqZeroExt.fst_inl, TrivSqZeroExt.fst_inr, add_zero]
      exact (congrArg TrivSqZeroExt.fst expandPolynomial_X).trans hx
  exact RingHom.congr_fun hfst p

theorem isUnit_expandPolynomial (p : nonZeroDivisors ℚ[X]) : IsUnit (expandPolynomial p) := by
  rw [TrivSqZeroExt.isUnit_iff_isUnit_fst, fst_expandPolynomial]
  exact IsLocalization.map_units RationalFunction p

noncomputable def expand : RationalFunction →+* DualNumber RationalFunction :=
  IsLocalization.lift isUnit_expandPolynomial

theorem expand_algebraMap (p : ℚ[X]) :
    expand (algebraMap ℚ[X] RationalFunction p) = expandPolynomial p := IsLocalization.lift_eq _ p

theorem fst_expand (f : RationalFunction) : (expand f).fst = f := by
  have hfst : fstHom.comp expand = RingHom.id RationalFunction := by
    refine IsLocalization.ringHom_ext (nonZeroDivisors ℚ[X]) (RingHom.ext fun p => ?_)
    exact (congrArg TrivSqZeroExt.fst (expand_algebraMap p)).trans (fst_expandPolynomial p)
  exact RingHom.congr_fun hfst f

noncomputable abbrev derivation := derivationOfExpansion expand fst_expand

theorem derivation_x : derivation x = 1 := by
  have hx : (expand x).snd = 1 := by
    rw [x, expand_algebraMap, expandPolynomial_X, TrivSqZeroExt.snd_add, TrivSqZeroExt.snd_inl,
      TrivSqZeroExt.snd_inr, zero_add]
  exact hx

theorem derivation_constant (q : ℚ) : derivation (constant q) = 0 := by
  have hq : (expand (constant q)).snd = 0 := by
    have hexpand : expand (constant q) = expandPolynomial (C q) := expand_algebraMap (C q)
    rw [hexpand, expandPolynomial_C, TrivSqZeroExt.snd_inl]
  exact hq

theorem derivation_zero : derivation 0 = 0 := map_zero constant ▸ derivation_constant 0

theorem derivation_one : derivation 1 = 0 := map_one constant ▸ derivation_constant 1

end RationalFunction
end Trivariate
