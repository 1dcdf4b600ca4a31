import Trivariate.Expr.Value
import Trivariate.Proofs.NormalForm

/-! Where simplification folds. An expression without variables folds to the constant of its value,
since a node of constants is folded before a neutral or absorbing constant can decide it. One without
constants never becomes one. -/

namespace Trivariate

namespace Expr

structure Closed (e : Expr) : Prop where
  no_var : ∀ v, var v ∉ e.postorder
  no_empty : ∀ o, variadic o [] ∉ e.postorder

structure Symbolic (e : Expr) : Prop where
  no_const : ∀ x, const x ∉ e.postorder
  no_empty : ∀ o, variadic o [] ∉ e.postorder

theorem Closed.operand {a e : Expr} (h : e.Closed) (ha : a ∈ e.operands) : a.Closed where
  no_var v hv := h.no_var v (mem_postorder_of_mem_operands ha hv)
  no_empty o ho := h.no_empty o (mem_postorder_of_mem_operands ha ho)

theorem Symbolic.operand {a e : Expr} (h : e.Symbolic) (ha : a ∈ e.operands) : a.Symbolic where
  no_const x hx := h.no_const x (mem_postorder_of_mem_operands ha hx)
  no_empty o ho := h.no_empty o (mem_postorder_of_mem_operands ha ho)

section Nonconstant

variable {a : Expr}

theorem not_isConst_of_op? {o : Op} (h : a.op? = some o) : ¬ a.IsConst := by
  intro hconst
  obtain ⟨v, rfl⟩ := hconst.eq_const
  cases h

theorem not_isConstant (h : ¬ a.IsConst) (v : Float) : ¬ a.isConstant v = true := by
  intro hv
  cases a with
  | const x => exact h rfl
  | var | unary | binary | variadic => cases hv

end Nonconstant
end Expr

open Trivariate.Expr

/-- A negation that is cancelled stood over no constant, for it would have been folded. -/
theorem UnaryOp.not_isConst_simplified (o : UnaryOp) {a : Expr} (h : ¬ a.IsConst) (hnormal : a.Normal) :
    ¬ (o.simplified a).IsConst := by
  unfold simplified
  split
  next v => exact absurd rfl h
  next b =>
    intro hb
    exact hnormal.not_redex (.fold (List.cons_ne_nil _ _) (List.forall_mem_singleton.mpr hb))
  next => exact not_isConst_of_op? rfl

namespace BinaryOp

variable {o : BinaryOp} {a b : Expr}

theorem simplified_of_not_consts (h : ¬ (a.IsConst ∧ b.IsConst)) : o.simplified a b = o.reduced a b := by
  unfold simplified
  split
  next v w => exact absurd ⟨rfl, rfl⟩ h
  next => rfl

theorem not_decided_of_not_isConst (o : BinaryOp) (ha : ¬ a.IsConst) (hb : ¬ b.IsConst) :
    ¬ o.Decided a b := by
  cases o <;> simp [Decided, not_isConstant ha, not_isConstant hb]

theorem not_isConst_simplified (hconst : ¬ (a.IsConst ∧ b.IsConst)) (h : ¬ o.Decided a b) :
    ¬ (o.simplified a b).IsConst := by
  rw [simplified_of_not_consts hconst, reduced_of_not_decided h]
  exact not_isConst_of_op? rfl

end BinaryOp

theorem VariadicOp.simplified_consts (o : VariadicOp) {vs : List Float} (h : vs ≠ []) :
    o.simplified (vs.map const) = const (o.apply vs) := by
  obtain ⟨v, vs, rfl⟩ := List.exists_cons_of_ne_nil h
  rw [simplified, mapM_constant?_eq_some_iff.mpr rfl]

theorem VariadicOp.simplified_of_not_isConst (o : VariadicOp) {args : List Expr} (ha : a ∈ args)
    (h : ¬ a.IsConst) : o.simplified args = variadic o args := by
  refine simplified_of_not_redex fun hredex => ?_
  cases hredex with
  | fold _ hall => exact h (hall a ha)

namespace Expr

/-- Without variables, and without operations that have no operands, an expression is folded to its
value, which is the same at all points, bit for bit. -/
theorem simplify_closed {e : Expr} (h : e.Closed) (p : Point) : e.simplify = const (e.value p) := by
  induction e with
  | const v => rfl
  | var v => exact absurd (mem_postorder_self _) (h.no_var v)
  | unary o a ih =>
    have ha := ih (h.operand (List.mem_singleton_self a))
    rw [simplify_unary, ha]
    rfl
  | binary o a b iha ihb =>
    have ha := iha (h.operand (by simp [operands]))
    have hb := ihb (h.operand (by simp [operands]))
    rw [simplify_binary, ha, hb]
    rfl
  | variadic o args ih =>
    have hargs : args.map simplify = (args.map (·.value p)).map const := by
      rw [List.map_map]
      exact List.map_congr_left fun a ha => ih a ha (h.operand ha)
    have hne : args.map (·.value p) ≠ [] := by
      intro hnil
      obtain rfl := List.map_eq_nil_iff.mp hnil
      exact h.no_empty o (mem_postorder_self _)
    rw [simplify_variadic, hargs, o.simplified_consts hne, value_variadic]

/-- The product is a zero with a sign, which the rule for zero factors would lose, and the quotient
tells the sign. -/
def signedZeroSample : Expr := div (const (-1)) (sum [mul (const 0) (const (-1))])

theorem simplify_closed_signed_zero :
    signedZeroSample.Closed ∧
    signedZeroSample.simplify = const (signedZeroSample.value (.of 1 2 3)) ∧
    signedZeroSample.value (.of 1 2 3) = 1 / 0 := by
  have hclosed : signedZeroSample.Closed := by
    constructor
    · intro v
      cases v <;> decide
    · intro o
      cases o <;> decide
  exact ⟨hclosed, simplify_closed hclosed _, by decide +kernel⟩

example : (div (const 0) (sub (const 0) (const 0))).simplify = const (0 / 0) := by decide +kernel

theorem not_isConst_simplify {e : Expr} (h : e.Symbolic) : ¬ e.simplify.IsConst := by
  induction e with
  | const x => exact absurd (mem_postorder_self _) (h.no_const x)
  | var v => exact nofun
  | unary o a ih =>
    have ha := ih (h.operand (List.mem_singleton_self a))
    exact o.not_isConst_simplified ha (normal_simplify a)
  | binary o a b iha ihb =>
    have ha := iha (h.operand (by simp [operands]))
    have hb := ihb (h.operand (by simp [operands]))
    exact BinaryOp.not_isConst_simplified (fun hconst => ha hconst.1) (o.not_decided_of_not_isConst ha hb)
  | variadic o args ih =>
    obtain ⟨a, ha⟩ := List.exists_mem_of_ne_nil args fun hnil => by
      subst hnil
      exact h.no_empty o (mem_postorder_self _)
    rw [simplify_variadic, o.simplified_of_not_isConst (List.mem_map_of_mem ha) (ih a ha (h.operand ha))]
    exact not_isConst_of_op? rfl

end Expr
end Trivariate
