import Trivariate.Expr.Basic

/-! Reading an expression off its leaves: a meaning says what a leaf means and what an operation
makes of the meanings of its operands. -/

namespace Trivariate

universe u

structure Meaning (α : Type u) where
  const : Float → α
  var : Var → α
  unary : UnaryOp → α → α
  binary : BinaryOp → α → α → α
  variadic : VariadicOp → List α → α

def Meaning.uniform {α : Type u} (const : Float → α) (var : Var → α) (node : Op → List α → α) :
    Meaning α where
  const := const
  var := var
  unary o a := node (.unary o) [a]
  binary o a b := node (.binary o) [a, b]
  variadic o as := node (.variadic o) as

namespace Expr

mutual

def interpret {α : Type u} (m : Meaning α) : Expr → α
  | const v => m.const v
  | var v => m.var v
  | unary o a => m.unary o (a.interpret m)
  | binary o a b => m.binary o (a.interpret m) (b.interpret m)
  | variadic o args => m.variadic o (interpretAll m args)

def interpretAll {α : Type u} (m : Meaning α) : List Expr → List α
  | [] => []
  | e :: es => e.interpret m :: interpretAll m es

end

variable {α : Type u} (m : Meaning α)

@[simp] theorem interpret_const (v : Float) : (const v).interpret m = m.const v := rfl

@[simp] theorem interpret_var (v : Var) : (var v).interpret m = m.var v := rfl

@[simp] theorem interpret_unary (o : UnaryOp) (a : Expr) :
    (unary o a).interpret m = m.unary o (a.interpret m) := rfl

@[simp] theorem interpret_binary (o : BinaryOp) (a b : Expr) :
    (binary o a b).interpret m = m.binary o (a.interpret m) (b.interpret m) := rfl

theorem interpretAll_eq_map (es : List Expr) : interpretAll m es = es.map (interpret m) := by
  induction es with
  | nil => rfl
  | cons e es ih => simp only [interpretAll, List.map_cons, ih]

@[simp] theorem interpret_variadic (o : VariadicOp) (args : List Expr) :
    (variadic o args).interpret m = m.variadic o (args.map (interpret m)) := by
  rw [interpret, interpretAll_eq_map]

theorem interpret_node (const : Float → α) (var : Var → α) (node : Op → List α → α) {o : Op}
    {e : Expr} (h : e.op? = some o) :
    e.interpret (.uniform const var node) =
      node o (e.operands.map (interpret (.uniform const var node))) := by
  cases e <;> simp only [op?, reduceCtorEq, Option.some.injEq] at h <;> subst h <;>
    simp [Meaning.uniform, operands]

end Expr
end Trivariate
