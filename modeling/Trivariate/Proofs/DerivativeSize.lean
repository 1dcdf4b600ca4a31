import Mathlib.Algebra.BigOperators.Ring.List
import Mathlib.Algebra.Order.BigOperators.Group.List
import Mathlib.Tactic.Ring
import Trivariate.Expr.Derivative
import Trivariate.Proofs.ExprParts

/-! The growth of derivatives. A rule puts at most four operations on top of what it is given, uses
each operand at most three times and each derivative once. So a derivative is at most four times as
deep as its expression, and its size is quadratic at worst. -/

namespace Trivariate

namespace Expr

theorem depth_unary (o : UnaryOp) (a : Expr) : (unary o a).depth = 1 + a.depth := by
  rw [depth_node rfl, operands, List.map_singleton, deeper, List.foldr_cons, List.foldr_nil,
    Nat.max_zero]

theorem depth_binary (o : BinaryOp) (a b : Expr) : (binary o a b).depth = 1 + max a.depth b.depth := by
  rw [depth_node rfl, operands, List.map_cons, List.map_singleton, deeper, List.foldr_cons,
    List.foldr_cons, List.foldr_nil, Nat.max_zero]

theorem depth_variadic_le_iff {o : VariadicOp} {args : List Expr} {n : Nat} :
    (variadic o args).depth ≤ n ↔ 1 ≤ n ∧ ∀ a ∈ args, a.depth + 1 ≤ n := by
  rw [depth_node rfl, deeper_le_iff, List.forall_mem_map, operands]

theorem size_eq (e : Expr) : e.size = 1 + (e.operands.map size).sum := by
  cases h : e.op? with
  | some o => exact size_node h
  | none => cases e <;> first | rfl | cases h

theorem size_unary (o : UnaryOp) (a : Expr) : (unary o a).size = 1 + a.size := by
  rw [size_eq, operands, List.map_singleton, List.sum_singleton]

theorem size_binary (o : BinaryOp) (a b : Expr) : (binary o a b).size = 1 + a.size + b.size := by
  rw [size_eq, operands, List.map_cons, List.map_singleton, List.sum_cons, List.sum_singleton,
    Nat.add_assoc]

theorem size_variadic (o : VariadicOp) (args : List Expr) :
    (variadic o args).size = 1 + (args.map size).sum := size_eq _

theorem length_le_sum_size (es : List Expr) : es.length ≤ (es.map size).sum := by
  induction es with
  | nil => exact Nat.le_refl 0
  | cons e es ih =>
    have hpos := size_eq e
    rw [List.length_cons, List.map_cons, List.sum_cons]
    omega

end Expr

open Trivariate.Expr

section Depth

variable {m : Nat}

theorem UnaryOp.depth_derivative_le (o : UnaryOp) {a a' : Expr} (ha : a.depth ≤ m) (ha' : a'.depth ≤ m) :
    (o.derivative a a').depth ≤ m + 4 := by
  have hone : (Expr.const 1).depth = 0 := rfl
  cases o <;> simp only [UnaryOp.derivative, square, depth_unary, depth_binary, hone] <;> omega

theorem BinaryOp.depth_derivative_le (o : BinaryOp) {a b a' b' : Expr} (ha : a.depth ≤ m)
    (hb : b.depth ≤ m) (ha' : a'.depth ≤ m) (hb' : b'.depth ≤ m) :
    (o.derivative a b a' b').depth ≤ m + 4 := by
  cases o <;> simp only [BinaryOp.derivative, crossDifference, square, depth_binary] <;> omega

variable {args args' : List Expr} (h : ∀ a ∈ args, a.depth ≤ m) (h' : ∀ a ∈ args', a.depth ≤ m)
include h h'

theorem depth_sumsqDerivative_le : (sumsqDerivative args args').depth ≤ m + 3 := by
  have hsum : (Expr.sum (List.zipWith .mul args args')).depth ≤ m + 2 := by
    refine depth_variadic_le_iff.mpr ⟨by omega, fun a ha => ?_⟩
    obtain ⟨b, hb, b', hb', rfl⟩ := exists_of_mem_products ha
    have hleft := h b hb
    have hright := h' b' hb'
    rw [depth_binary]
    omega
  have htwo : (Expr.const 2).depth = 0 := rfl
  rw [sumsqDerivative, depth_binary, htwo]
  omega

theorem VariadicOp.depth_derivative_le (o : VariadicOp) : (o.derivative args args').depth ≤ m + 4 := by
  have hconst : ∀ x, (Expr.const x).depth = 0 := fun _ => rfl
  have hsum : (Expr.sum args').depth ≤ m + 1 :=
    depth_variadic_le_iff.mpr ⟨by omega, fun a ha => by have := h' a ha; omega⟩
  have hsumsq := depth_sumsqDerivative_le h h'
  cases o with
  | sum => exact hsum.trans (by omega)
  | avg =>
    rw [VariadicOp.derivative, depth_binary, hconst]
    omega
  | sumsq => exact hsumsq.trans (by omega)
  | length =>
    cases args with
    | nil => exact Nat.zero_le _
    | cons a args =>
      have hlength : (Expr.length (a :: args)).depth ≤ m + 1 :=
        depth_variadic_le_iff.mpr ⟨by omega, fun b hb => by have := h b hb; omega⟩
      rw [VariadicOp.derivative, depth_binary, depth_binary, hconst]
      · omega
      · nofun

end Depth

section Size

theorem UnaryOp.size_derivative_le (o : UnaryOp) (a a' : Expr) :
    (o.derivative a a').size ≤ 7 + 3 * a.size + a'.size := by
  have hone : (Expr.const 1).size = 1 := rfl
  cases o <;> simp only [UnaryOp.derivative, square, size_unary, size_binary, hone] <;> omega

theorem BinaryOp.size_derivative_le (o : BinaryOp) (a b a' b' : Expr) :
    (o.derivative a b a' b').size ≤ 7 + 3 * (a.size + b.size) + (a'.size + b'.size) := by
  cases o <;> simp only [BinaryOp.derivative, crossDifference, square, size_binary] <;> omega

theorem sum_size_products_le (args args' : List Expr) :
    ((List.zipWith Expr.mul args args').map size).sum ≤
      args.length + (args.map size).sum + (args'.map size).sum := by
  induction args generalizing args' with
  | nil => exact Nat.zero_le _
  | cons a args ih =>
    cases args' with
    | nil => exact Nat.zero_le _
    | cons a' args' =>
      have hrest := ih args'
      simp only [List.zipWith_cons_cons, List.map_cons, List.sum_cons, List.length_cons, size_binary]
      omega

theorem size_sumsqDerivative_le (args args' : List Expr) :
    (sumsqDerivative args args').size ≤ 3 + 2 * (args.map size).sum + (args'.map size).sum := by
  have hproducts := sum_size_products_le args args'
  have hlength := length_le_sum_size args
  have htwo : (Expr.const 2).size = 1 := rfl
  rw [sumsqDerivative, size_binary, size_variadic, htwo]
  omega

theorem VariadicOp.size_derivative_le (o : VariadicOp) (args args' : List Expr) :
    (o.derivative args args').size ≤ 7 + 3 * (args.map size).sum + (args'.map size).sum := by
  have hconst : ∀ x, (Expr.const x).size = 1 := fun _ => rfl
  have hsumsq := size_sumsqDerivative_le args args'
  cases o with
  | sum =>
    rw [VariadicOp.derivative, size_variadic]
    omega
  | avg =>
    rw [VariadicOp.derivative, size_binary, size_variadic, hconst]
    omega
  | sumsq => exact hsumsq.trans (by omega)
  | length =>
    cases args with
    | nil =>
      have hzero : (VariadicOp.length.derivative [] args').size = 1 := rfl
      omega
    | cons a args =>
      rw [VariadicOp.derivative, size_binary, size_binary, size_variadic, hconst]
      · omega
      · nofun

end Size

namespace Expr

variable (v : Var)

theorem depth_derivative_leaf {e : Expr} (h : e.op? = none) : (e.derivative v).depth = 0 := by
  obtain ⟨x, hx⟩ := exists_derivative_leaf v h
  rw [hx]
  rfl

theorem size_derivative_leaf {e : Expr} (h : e.op? = none) : (e.derivative v).size = 1 := by
  obtain ⟨x, hx⟩ := exists_derivative_leaf v h
  rw [hx]
  rfl

theorem depth_derivative_le_of_operands {e : Expr} {m : Nat}
    (h : ∀ a ∈ e.operands, a.depth ≤ m ∧ (a.derivative v).depth ≤ m) :
    (e.derivative v).depth ≤ m + 4 := by
  cases e with
  | const x => exact Nat.zero_le _
  | var w =>
    rw [depth_derivative_leaf v rfl]
    exact Nat.zero_le _
  | unary o a =>
    obtain ⟨ha, ha'⟩ := h a (List.mem_singleton_self a)
    exact o.depth_derivative_le ha ha'
  | binary o a b =>
    obtain ⟨ha, ha'⟩ := h a (by simp [operands])
    obtain ⟨hb, hb'⟩ := h b (by simp [operands])
    exact o.depth_derivative_le ha hb ha' hb'
  | variadic o args =>
    rw [derivative, derivativeAll_eq_map]
    exact o.depth_derivative_le (fun a ha => (h a ha).1) (List.forall_mem_map.mpr fun a ha => (h a ha).2)

theorem size_derivative_le_of_operands (e : Expr) :
    (e.derivative v).size ≤
      7 + 3 * (e.operands.map size).sum + (e.operands.map fun a => (a.derivative v).size).sum := by
  cases e with
  | const x =>
    rw [size_derivative_leaf v rfl]
    omega
  | var w =>
    rw [size_derivative_leaf v rfl]
    omega
  | unary o a => simpa [operands, derivative] using o.size_derivative_le a (a.derivative v)
  | binary o a b =>
    simpa [operands, derivative] using o.size_derivative_le a b (a.derivative v) (b.derivative v)
  | variadic o args =>
    have hrule := o.size_derivative_le args (args.map (derivative v))
    rw [List.map_map] at hrule
    rw [derivative, derivativeAll_eq_map]
    exact hrule

theorem depth_derivative_le (e : Expr) : (e.derivative v).depth ≤ 4 * e.depth := by
  induction e using induct_node with
  | const x => exact Nat.zero_le _
  | var w =>
    rw [depth_derivative_leaf v rfl]
    exact Nat.zero_le _
  | node o e ho ih =>
    have hpos : 1 ≤ e.depth := (deeper_le_iff.mp (Nat.le_of_eq (depth_node ho).symm)).1
    have hrule : (e.derivative v).depth ≤ 4 * (e.depth - 1) + 4 := by
      refine depth_derivative_le_of_operands v fun a ha => ?_
      have hlt := depth_lt_of_mem_operands ha
      have ha' := ih a ha
      omega
    omega

theorem size_derivative_le (e : Expr) : (e.derivative v).size ≤ 7 * e.size * (e.depth + 1) := by
  induction e using induct_operands with
  | node e ih =>
    -- an operand is less deep than the node, so that its factor is at most the depth of the node
    have hoperands : (e.operands.map fun a => (a.derivative v).size).sum ≤
        7 * e.depth * (e.operands.map size).sum := by
      rw [← List.sum_map_mul_left]
      refine List.sum_le_sum fun a ha => (ih a ha).trans ?_
      calc 7 * a.size * (a.depth + 1)
        _ ≤ 7 * a.size * e.depth := Nat.mul_le_mul_left _ (depth_lt_of_mem_operands ha)
        _ = 7 * e.depth * a.size := Nat.mul_right_comm 7 _ _
    have hrule := size_derivative_le_of_operands v e
    have hexpand : ∀ s d : Nat, 7 * (1 + s) * (d + 1) = 7 + 7 * s + 7 * d + 7 * d * s := by
      intro s d
      ring
    rw [size_eq e, hexpand]
    omega

/-- Derivatives stay within four times the depth, and their size does not explode with the depth: it is
at most seven times the product of size and depth, where a leaf counts as one. -/
theorem derivative_growth (e : Expr) :
    (e.derivative v).depth ≤ 4 * e.depth ∧ (e.derivative v).size ≤ 7 * e.size * (e.depth + 1) :=
  ⟨depth_derivative_le v e, size_derivative_le v e⟩

example : ((length [var .x]).derivative .x).depth = 4 * (length [var .x]).depth := by decide

end Expr
end Trivariate
