import Trivariate.Expr.Derivative
import Trivariate.Proofs.ConstantFolding
import Trivariate.Proofs.PositiveCounts

/-! The derivative by a variable that does not occur. The operands that a rule copies do not become
constants, their derivatives become zeros, and from these the rules of simplification make a zero
again, with either sign. -/

namespace Trivariate

namespace Binary64

variable {z w : Float}

theorem Alike.isZero {x y : Float} (h : Alike x y) (hy : IsZero y) : IsZero x := by
  rcases h with rfl | ⟨hx, -⟩
  · exact hy
  · exact hx

theorem isZero_add (hz : IsZero z) (hw : IsZero w) : IsZero (z + w) := (zero_add_alike hz w).isZero hw

theorem isZero_sub (hz : IsZero z) (hw : IsZero w) : IsZero (z - w) := (sub_zero_alike hw z).isZero hz

theorem isZero_neg (hz : IsZero z) : IsZero (-z) := by
  rcases eq_or_of_isZero hz with rfl | rfl <;> decide

theorem isZero_two_mul (hz : IsZero z) : IsZero (2 * z) := by
  rcases eq_or_of_isZero hz with rfl | rfl <;> decide +kernel

theorem isZero_sum {vs : List Float} (h : ∀ v ∈ vs, IsZero v) : IsZero (sum vs) := by
  have hstart : IsZero (-0.0) := rfl
  exact List.foldlRecOn vs (· + ·) hstart fun _ hacc v hv => isZero_add hacc (h v hv)

end Binary64

open Trivariate.Binary64 Trivariate.Expr

namespace Expr

def IsNull (e : Expr) : Prop := ∃ z, e = const z ∧ IsZero z

namespace IsNull

variable {a b : Expr}

theorem zero : (const 0).IsNull := ⟨0, rfl, isZero_zero⟩

theorem isConstant (h : a.IsNull) : a.isConstant 0 = true := by
  obtain ⟨z, rfl, hz⟩ := h
  exact hz

theorem isConst (h : a.IsNull) : a.IsConst := by
  obtain ⟨z, rfl, -⟩ := h
  rfl

theorem not_isConstant_one (h : a.IsNull) : ¬ a.isConstant 1 = true := by
  obtain ⟨z, rfl, hz⟩ := h
  rcases eq_or_of_isZero hz with rfl | rfl <;> decide

theorem negate (h : a.IsNull) : (UnaryOp.negate.simplified a).IsNull := by
  obtain ⟨z, rfl, hz⟩ := h
  exact ⟨-z, rfl, isZero_neg hz⟩

theorem add (ha : a.IsNull) (hb : b.IsNull) : (BinaryOp.add.simplified a b).IsNull := by
  obtain ⟨z, rfl, hz⟩ := ha
  obtain ⟨w, rfl, hw⟩ := hb
  exact ⟨z + w, rfl, isZero_add hz hw⟩

theorem sub (ha : a.IsNull) (hb : b.IsNull) : (BinaryOp.sub.simplified a b).IsNull := by
  obtain ⟨z, rfl, hz⟩ := ha
  obtain ⟨w, rfl, hw⟩ := hb
  exact ⟨z - w, rfl, isZero_sub hz hw⟩

theorem two_mul (h : a.IsNull) : (BinaryOp.mul.simplified (const 2) a).IsNull := by
  obtain ⟨z, rfl, hz⟩ := h
  exact ⟨2 * z, rfl, isZero_two_mul hz⟩

theorem mul_left (ha : ¬ a.IsConst) (hb : b.IsNull) : (BinaryOp.mul.simplified a b).IsNull := by
  have habsorbed : (a.isConstant 0 || b.isConstant 0) = true := Bool.or_eq_true_iff.mpr (.inr hb.isConstant)
  rw [BinaryOp.simplified_of_not_consts fun h => ha h.1, BinaryOp.reduced, if_neg (not_isConstant ha 1),
    if_neg hb.not_isConstant_one, if_pos habsorbed]
  exact zero

theorem mul_right (ha : a.IsNull) (hb : ¬ b.IsConst) : (BinaryOp.mul.simplified a b).IsNull := by
  have habsorbed : (a.isConstant 0 || b.isConstant 0) = true := Bool.or_eq_true_iff.mpr (.inl ha.isConstant)
  rw [BinaryOp.simplified_of_not_consts fun h => hb h.2, BinaryOp.reduced, if_neg ha.not_isConstant_one,
    if_neg (not_isConstant hb 1), if_pos habsorbed]
  exact zero

/-- The divisor is not folded, so that it is no zero yet. -/
theorem div (ha : a.IsNull) (hb : ¬ b.IsConst) : (BinaryOp.div.simplified a b).IsNull := by
  rw [BinaryOp.simplified_of_not_consts fun h => hb h.2, BinaryOp.reduced, if_pos ha.isConstant]
  exact zero

theorem div_count {n : Nat} (ha : a.IsNull) (hn : 0 < n) :
    (BinaryOp.div.simplified a (const n.toFloat)).IsNull := by
  obtain ⟨z, rfl, hz⟩ := ha
  exact ⟨z / n.toFloat, rfl, isZero_div_count hn hz⟩

theorem sum {args : List Expr} (hne : args ≠ []) (h : ∀ a ∈ args, a.IsNull) :
    (VariadicOp.sum.simplified args).IsNull := by
  obtain ⟨vs, rfl⟩ := VariadicOp.exists_consts fun a ha => (h a ha).isConst
  have hzeros : ∀ v ∈ vs, IsZero v := fun v hv => (h _ (List.mem_map_of_mem hv)).isConstant
  rw [VariadicOp.simplified_consts _ fun hnil => hne (List.map_eq_nil_iff.mpr hnil)]
  exact ⟨_, rfl, isZero_sum hzeros⟩

end IsNull
end Expr

section Rules

variable {a b a' b' : Expr}

theorem not_isConst_square (h : ¬ a.IsConst) : ¬ (BinaryOp.mul.simplified a a).IsConst :=
  BinaryOp.not_isConst_simplified (fun hconst => h hconst.1) (BinaryOp.mul.not_decided_of_not_isConst h h)

theorem isNull_crossDifference (ha : ¬ a.simplify.IsConst) (hb : ¬ b.simplify.IsConst)
    (ha' : a'.simplify.IsNull) (hb' : b'.simplify.IsNull) :
    (a.crossDifference b a' b').simplify.IsNull :=
  IsNull.sub (IsNull.mul_right ha' hb) (IsNull.mul_left ha hb')

theorem UnaryOp.isNull_derivative (o : UnaryOp) (ha : ¬ a.simplify.IsConst) (ha' : a'.simplify.IsNull) :
    (o.derivative a a').simplify.IsNull := by
  cases o with
  | negate => exact ha'.negate
  | atan =>
    have hsquare := not_isConst_square ha
    have hone : (const 1).isConstant 0 = false := by decide
    refine IsNull.div ha' (BinaryOp.not_isConst_simplified (fun h => hsquare h.2) ?_)
    exact not_or.mpr ⟨ne_true_of_eq_false hone, not_isConstant hsquare 0⟩
  | sinh => exact IsNull.mul_left (UnaryOp.cosh.not_isConst_simplified ha (normal_simplify a)) ha'
  | cosh => exact IsNull.mul_left (UnaryOp.sinh.not_isConst_simplified ha (normal_simplify a)) ha'

theorem BinaryOp.isNull_derivative (o : BinaryOp) (ha : ¬ a.simplify.IsConst) (hb : ¬ b.simplify.IsConst)
    (ha' : a'.simplify.IsNull) (hb' : b'.simplify.IsNull) :
    (o.derivative a b a' b').simplify.IsNull := by
  have hupper := isNull_crossDifference ha hb ha' hb'
  cases o with
  | add => exact IsNull.add ha' hb'
  | sub => exact IsNull.sub ha' hb'
  | mul => exact IsNull.add (IsNull.mul_left ha hb') (IsNull.mul_right ha' hb)
  | div => exact IsNull.div hupper (not_isConst_square hb)
  | atan2 =>
    have hsquares :=
      BinaryOp.add.not_decided_of_not_isConst (not_isConst_square ha) (not_isConst_square hb)
    exact IsNull.div hupper
      (BinaryOp.not_isConst_simplified (fun h => not_isConst_square ha h.1) hsquares)

theorem isNull_sum {es : List Expr} (hne : es ≠ []) (h : ∀ e ∈ es, e.simplify.IsNull) :
    (Expr.sum es).simplify.IsNull := by
  rw [simplify_variadic]
  exact IsNull.sum (mt List.map_eq_nil_iff.mp hne) (List.forall_mem_map.mpr h)

section Operands

variable {args : List Expr} {f : Expr → Expr} (hne : args ≠ []) (h : ∀ a ∈ args, ¬ a.simplify.IsConst)
  (h' : ∀ a ∈ args, (f a).simplify.IsNull)
include hne h h'

theorem isNull_sumsqDerivative : (sumsqDerivative args (args.map f)).simplify.IsNull := by
  have hproducts : List.zipWith Expr.mul args (args.map f) ≠ [] := by
    simpa [List.zipWith_eq_nil_iff] using hne
  refine IsNull.two_mul (isNull_sum hproducts fun e he => ?_)
  obtain ⟨a, ha, a', ha', rfl⟩ := exists_of_mem_products he
  obtain ⟨b, hb, rfl⟩ := List.mem_map.mp ha'
  exact IsNull.mul_left (h a ha) (h' b hb)

theorem VariadicOp.isNull_derivative (o : VariadicOp) : (o.derivative args (args.map f)).simplify.IsNull := by
  have hsum : (Expr.sum (args.map f)).simplify.IsNull :=
    isNull_sum (mt List.map_eq_nil_iff.mp hne) (List.forall_mem_map.mpr h')
  have hsumsq := isNull_sumsqDerivative hne h h'
  cases o with
  | sum => exact hsum
  | avg => exact IsNull.div_count hsum (List.length_pos_iff.mpr hne)
  | sumsq => exact hsumsq
  | length =>
    obtain ⟨a, args, rfl⟩ := List.exists_cons_of_ne_nil hne
    have hlength : ¬ (Expr.length (a :: args)).simplify.IsConst := by
      have hmem : a ∈ a :: args := List.mem_cons_self
      rw [simplify_variadic, VariadicOp.simplified_of_not_isConst _ (List.mem_map_of_mem hmem) (h a hmem)]
      exact not_isConst_of_op? rfl
    have htwo : (const 2).isConstant 0 = false ∧ (const 2).isConstant 1 = false := by decide
    have hkept : ¬ BinaryOp.mul.Decided (const 2) (Expr.length (a :: args)).simplify := by
      simp [BinaryOp.Decided, htwo, not_isConstant hlength]
    exact IsNull.div hsumsq (BinaryOp.not_isConst_simplified (fun hconst => hlength hconst.2) hkept)

end Operands
end Rules

namespace Expr

theorem isNull_simplify_derivative {e : Expr} (h : e.Symbolic) {v : Var} (hv : var v ∉ e.postorder) :
    (e.derivative v).simplify.IsNull := by
  induction e with
  | const x => exact IsNull.zero
  | var w =>
    have hne : w ≠ v := fun heq => hv (heq ▸ mem_postorder_self _)
    rw [derivative, if_neg hne]
    exact IsNull.zero
  | unary o a ih =>
    have hmem : a ∈ (unary o a).operands := List.mem_singleton_self a
    have ha := h.operand hmem
    have ha' := ih ha fun hm => hv (mem_postorder_of_mem_operands hmem hm)
    exact o.isNull_derivative (not_isConst_simplify ha) ha'
  | binary o a b iha ihb =>
    have hmem : a ∈ (binary o a b).operands ∧ b ∈ (binary o a b).operands := by simp [operands]
    have ha := h.operand hmem.1
    have hb := h.operand hmem.2
    exact o.isNull_derivative (not_isConst_simplify ha) (not_isConst_simplify hb)
      (iha ha fun hm => hv (mem_postorder_of_mem_operands hmem.1 hm))
      (ihb hb fun hm => hv (mem_postorder_of_mem_operands hmem.2 hm))
  | variadic o args ih =>
    have hmem : ∀ a ∈ args, a ∈ (variadic o args).operands := fun a ha => ha
    have hne : args ≠ [] := by
      rintro rfl
      exact h.no_empty o (mem_postorder_self _)
    rw [derivative, derivativeAll_eq_map]
    refine o.isNull_derivative hne (fun a ha => not_isConst_simplify (h.operand (hmem a ha))) fun a ha => ?_
    exact ih a ha (h.operand (hmem a ha)) fun hm => hv (mem_postorder_of_mem_operands (hmem a ha) hm)

theorem simplify_derivative_of_not_mem {e : Expr} (h : e.Symbolic) {v : Var} (hv : var v ∉ e.postorder) :
    ∃ z, (e.derivative v).simplify = const z ∧ (z == 0) = true :=
  isNull_simplify_derivative h hv

def angleSample : Expr :=
  atan2 (avg [var .x, negate (var .y)]) (length [div (var .x) (var .y), cosh (var .x)])

theorem simplify_derivative_of_not_mem_angle :
    angleSample.Symbolic ∧ var .z ∉ angleSample.postorder ∧
    ∃ z, (angleSample.derivative .z).simplify = const z ∧ (z == 0) = true := by
  have hsymbolic : angleSample.Symbolic := by
    constructor <;> simp [angleSample, postorder, postorderAll]
  have hvar : var .z ∉ angleSample.postorder := by decide
  exact ⟨hsymbolic, hvar, simplify_derivative_of_not_mem hsymbolic hvar⟩

example : ((negate (var .x)).derivative .z).simplify = const (-0) := by decide +kernel

end Expr
end Trivariate
