import Trivariate.Expr.Value
import Trivariate.Proofs.ExactArithmetic
import Trivariate.Proofs.NormalForm

/-! The value of a simplified expression. Each rule of simplification keeps the value of its node where
it is finite, but for the sign of a zero, and the operations hand a difference in that sign on. -/

namespace Trivariate

open Trivariate.Binary64 Trivariate.Expr

section Operations

variable {x x' y y' : Float}

theorem UnaryOp.alike_apply (o : UnaryOp) (h : Alike x x') : Alike (o.apply x) (o.apply x') := by
  refine Binary64.alike_apply ?_ h
  cases o <;> decide +kernel

/-- A quotient has to be finite, and an angle may tell the sides of an axis apart. -/
theorem BinaryOp.alike_apply {o : BinaryOp} (ho : o ≠ .atan2) (hx : Alike x x') (hy : Alike y y')
    (h : isFinite (o.apply x y) = true) : Alike (o.apply x y) (o.apply x' y') := by
  cases o with
  | add => exact alike_add hx hy
  | sub => exact alike_sub hx hy
  | mul => exact alike_mul hx hy
  | div => exact alike_div hx hy h
  | atan2 => exact absurd rfl ho

theorem VariadicOp.alike_apply (o : VariadicOp) {vs ws : List Float} (h : List.Forall₂ Alike vs ws) :
    Alike (o.apply vs) (o.apply ws) := by
  cases o with
  | sum => exact alike_sum h
  | avg =>
    rw [apply, apply, h.length_eq]
    exact alike_div_right (alike_sum h) _
  | sumsq => exact alike_squaredNorm h
  | length =>
    have hroot : Alike (Float.sqrt 0) (Float.sqrt (-0)) := by decide +kernel
    exact Binary64.alike_apply hroot (alike_squaredNorm h)

end Operations

section Rules

variable {a b : Expr} {p : Point}

theorem isZero_value (h : a.isConstant 0 = true) (p : Point) : IsZero (a.value p) := by
  cases a with
  | const v => exact h
  | var | unary | binary | variadic => cases h

theorem value_eq_one (h : a.isConstant 1 = true) (p : Point) : a.value p = 1 := by
  cases a with
  | const v =>
    obtain rfl | ⟨-, hzero⟩ := Alike.of_beq h
    · rfl
    · exact absurd hzero (by decide)
  | var | unary | binary | variadic => cases h

theorem UnaryOp.value_simplified (o : UnaryOp) (a : Expr) (p : Point) :
    (o.simplified a).value p = o.apply (a.value p) := by
  unfold simplified
  split
  next => rfl
  next b => exact (Binary64.neg_neg _).symm
  next => rfl

theorem VariadicOp.value_simplified (o : VariadicOp) (args : List Expr) (p : Point) :
    (o.simplified args).value p = o.apply (args.map (·.value p)) := by
  unfold simplified
  split
  next v vs hvs =>
    have hvalues : args.map (·.value p) = v :: vs := by
      rw [mapM_constant?_eq_some_iff.mp hvs, List.map_map]
      exact List.map_id _
    rw [hvalues]
    rfl
  next => exact value_variadic o args p

theorem value_reduced_add (a b : Expr) (p : Point) :
    Alike ((BinaryOp.add.reduced a b).value p) (a.value p + b.value p) := by
  unfold BinaryOp.reduced
  dsimp only
  split
  next ha => exact (zero_add_alike (isZero_value ha p) _).symm
  next =>
    split
    next hb => exact (add_zero_alike (isZero_value hb p) _).symm
    next => exact .refl _

theorem value_reduced_sub (a b : Expr) (p : Point) :
    Alike ((BinaryOp.sub.reduced a b).value p) (a.value p - b.value p) := by
  unfold BinaryOp.reduced
  dsimp only
  split
  next hb => exact (sub_zero_alike (isZero_value hb p) _).symm
  next =>
    split
    next ha =>
      rw [UnaryOp.value_simplified]
      exact (zero_sub_alike (isZero_value ha p) _).symm
    next => exact .refl _

theorem value_reduced_mul (ha : isFinite (a.value p) = true) (hb : isFinite (b.value p) = true) :
    Alike ((BinaryOp.mul.reduced a b).value p) (a.value p * b.value p) := by
  have habsorbed : ∀ {x y}, IsZero x → isFinite y = true → IsZero (x * y) := by
    intro x y hx hy
    rcases mul_of_isZero hx hx y with ⟨hzero, -⟩ | ⟨hnot, -⟩
    · exact hzero
    · rw [hy] at hnot
      cases hnot
  unfold BinaryOp.reduced
  dsimp only
  split
  next ha =>
    rw [value_eq_one ha, Binary64.one_mul]
    exact .refl _
  next =>
    split
    next hb =>
      rw [value_eq_one hb, Binary64.mul_one]
      exact .refl _
    next =>
      split
      next hzero =>
        rcases Bool.or_eq_true _ _ ▸ hzero with hzero | hzero
        · exact .inr ⟨isZero_zero, habsorbed (isZero_value hzero p) hb⟩
        · rw [Binary64.mul_comm]
          exact .inr ⟨isZero_zero, habsorbed (isZero_value hzero p) ha⟩
      next => exact .refl _

theorem value_reduced_div (h : isFinite (a.value p / b.value p) = true) :
    Alike ((BinaryOp.div.reduced a b).value p) (a.value p / b.value p) := by
  unfold BinaryOp.reduced
  dsimp only
  split
  next ha =>
    have hzero := isZero_value ha p
    rcases div_of_isZero hzero hzero (b.value p) with ⟨hquotient, -⟩ | ⟨hnot, -⟩
    · exact .inr ⟨isZero_zero, hquotient⟩
    · rw [h] at hnot
      cases hnot
  next =>
    split
    next hb =>
      rw [value_eq_one hb, Binary64.div_one]
      exact .refl _
    next => exact .refl _

theorem BinaryOp.value_simplified {o : BinaryOp} (ha : isFinite (a.value p) = true)
    (hb : isFinite (b.value p) = true) (h : isFinite (o.apply (a.value p) (b.value p)) = true) :
    Alike ((o.simplified a b).value p) (o.apply (a.value p) (b.value p)) := by
  unfold simplified
  split
  next => exact .refl _
  next =>
    cases o with
    | add => exact value_reduced_add a b p
    | sub => exact value_reduced_sub a b p
    | mul => exact value_reduced_mul ha hb
    | div => exact value_reduced_div h
    | atan2 => exact .refl _

end Rules

namespace Expr

theorem alike_value_simplify {e : Expr} {p : Point}
    (hangle : ∀ a ∈ e.postorder, a.op? ≠ some (.binary .atan2))
    (hfinite : ∀ a ∈ e.postorder, isFinite (a.value p) = true) :
    Alike (e.value p) (e.simplify.value p) := by
  induction e with
  | const v => exact .refl _
  | var v => exact .refl _
  | unary o a ih =>
    obtain ⟨-, hangle⟩ := forall_mem_postorder.mp hangle
    obtain ⟨-, hfinite⟩ := forall_mem_postorder.mp hfinite
    have ha := ih (hangle a (List.mem_singleton_self a)) (hfinite a (List.mem_singleton_self a))
    rw [simplify_unary, o.value_simplified]
    exact o.alike_apply ha
  | binary o a b iha ihb =>
    obtain ⟨hop, hangle⟩ := forall_mem_postorder.mp hangle
    obtain ⟨hroot, hfinite⟩ := forall_mem_postorder.mp hfinite
    have hmem : a ∈ (binary o a b).operands ∧ b ∈ (binary o a b).operands := by simp [operands]
    have ha := iha (hangle a hmem.1) (hfinite a hmem.1)
    have hb := ihb (hangle b hmem.2) (hfinite b hmem.2)
    have ho : o ≠ .atan2 := by
      rintro rfl
      exact hop rfl
    have hnode : Alike (o.apply (a.value p) (b.value p))
        (o.apply (a.simplify.value p) (b.simplify.value p)) := BinaryOp.alike_apply ho ha hb hroot
    -- the rules ask that the simplified operands and their node are finite, and so they are
    refine hnode.trans (BinaryOp.value_simplified ?_ ?_ (hnode.isFinite hroot)).symm
    · exact ha.isFinite (hfinite a hmem.1 a a.mem_postorder_self)
    · exact hb.isFinite (hfinite b hmem.2 b b.mem_postorder_self)
  | variadic o args ih =>
    obtain ⟨-, hangle⟩ := forall_mem_postorder.mp hangle
    obtain ⟨-, hfinite⟩ := forall_mem_postorder.mp hfinite
    have hargs : List.Forall₂ Alike (args.map (·.value p)) ((args.map simplify).map (·.value p)) := by
      rw [List.map_map, List.forall₂_map_left_iff, List.forall₂_map_right_iff, List.forall₂_same]
      exact fun a ha => ih a ha (hangle a ha) (hfinite a ha)
    rw [value_variadic, simplify_variadic, o.value_simplified]
    exact o.alike_apply hargs

/-- Where an expression and all its parts have finite values, and none of them is an angle to a point,
the simplified expression has the same value as numbers are the same. -/
theorem value_simplify (e : Expr) (p : Point) (hangle : ∀ a ∈ e.postorder, a.op? ≠ some (.binary .atan2))
    (hfinite : ∀ a ∈ e.postorder, isFinite (a.value p) = true) :
    (e.simplify.value p == e.value p) = true := by
  have halike := alike_value_simplify hangle hfinite
  have hroot := halike.isFinite (hfinite e e.mem_postorder_self)
  exact halike.symm.beq hroot

def zeroSignsSample : Expr :=
  div (sub (mul (const 0) (var .x)) (mul (var .y) (const 0))) (length [var .z])

theorem value_simplify_zero_signs :
    (zeroSignsSample.simplify.value (.of (-2) 3 (-4)) == zeroSignsSample.value (.of (-2) 3 (-4))) =
      true ∧
    zeroSignsSample.simplify = const 0 ∧
    zeroSignsSample.value (.of (-2) 3 (-4)) = -0 :=
  ⟨value_simplify _ _ (by decide) (by decide +kernel), by decide +kernel, by decide +kernel⟩

end Expr
end Trivariate
