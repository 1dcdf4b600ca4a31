import Trivariate.Expr.Basic

/-! Derivatives by the rules of calculus, one for each operation, with nothing simplified. A rule is
given the operands and beside them their derivatives. -/

namespace Trivariate

namespace Expr

def square (a : Expr) : Expr := mul a a

def crossDifference (a b a' b' : Expr) : Expr := sub (mul a' b) (mul a b')

end Expr

def UnaryOp.derivative : UnaryOp → Expr → Expr → Expr
  | .negate, _, a' => .negate a'
  | .atan, a, a' => .div a' (.add (.const 1) a.square)
  | .sinh, a, a' => .mul (.cosh a) a'
  | .cosh, a, a' => .mul (.sinh a) a'

def BinaryOp.derivative : BinaryOp → Expr → Expr → Expr → Expr → Expr
  | .add, _, _, a', b' => .add a' b'
  | .sub, _, _, a', b' => .sub a' b'
  | .mul, a, b, a', b' => .add (.mul a b') (.mul a' b)
  | .div, a, b, a', b' => .div (a.crossDifference b a' b') b.square
  | .atan2, a, b, a', b' => .div (a.crossDifference b a' b') (.add a.square b.square)

def sumsqDerivative (args args' : List Expr) : Expr :=
  .mul (.const 2) (.sum (List.zipWith .mul args args'))

theorem exists_of_mem_products {args args' : List Expr} {e : Expr}
    (h : e ∈ List.zipWith .mul args args') : ∃ a ∈ args, ∃ a' ∈ args', e = .mul a a' := by
  obtain ⟨i, hi, rfl⟩ := List.mem_iff_getElem.mp h
  rw [List.length_zipWith, Nat.lt_min] at hi
  rw [List.getElem_zipWith]
  exact ⟨_, List.getElem_mem hi.1, _, List.getElem_mem hi.2, rfl⟩

/-- The length of nothing is constant. -/
def VariadicOp.derivative : VariadicOp → List Expr → List Expr → Expr
  | .sum, _, args' => .sum args'
  | .avg, args, args' => .div (.sum args') (.const args.length.toFloat)
  | .sumsq, args, args' => sumsqDerivative args args'
  | .length, [], _ => .const 0
  | .length, args, args' => .div (sumsqDerivative args args') (.mul (.const 2) (.length args))

namespace Expr

mutual

def derivative (v : Var) : Expr → Expr
  | const _ => const 0
  | var w => if w = v then const 1 else const 0
  | unary o a => o.derivative a (a.derivative v)
  | binary o a b => o.derivative a b (a.derivative v) (b.derivative v)
  | variadic o args => o.derivative args (derivativeAll v args)

def derivativeAll (v : Var) : List Expr → List Expr
  | [] => []
  | e :: es => e.derivative v :: derivativeAll v es

end

theorem derivativeAll_eq_map (v : Var) (es : List Expr) : derivativeAll v es = es.map (derivative v) := by
  induction es with
  | nil => rfl
  | cons e es ih => simp only [derivativeAll, List.map_cons, ih]

theorem exists_derivative_leaf (v : Var) {e : Expr} (h : e.op? = none) :
    ∃ x, e.derivative v = const x := by
  cases e with
  | const x => exact ⟨0, rfl⟩
  | var w =>
    rw [derivative]
    split
    · exact ⟨1, rfl⟩
    · exact ⟨0, rfl⟩
  | unary | binary | variadic => cases h

end Expr
end Trivariate
