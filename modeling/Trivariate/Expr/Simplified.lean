import Trivariate.Expr.Meaning
import Trivariate.Operation.Value

/-! Local simplification from the leaves up: an operation on constants becomes their value, and one
that a neutral or absorbing operand decides gives way to it. -/

namespace Trivariate

def UnaryOp.simplified : UnaryOp → Expr → Expr
  | o, .const v => .const (o.apply v)
  | .negate, .negate a => a
  | o, a => .unary o a

def BinaryOp.reduced : BinaryOp → Expr → Expr → Expr
  | .add, a, b => if a.isConstant 0 then b else if b.isConstant 0 then a else .add a b
  | .sub, a, b =>
    if b.isConstant 0 then a
    else if a.isConstant 0 then UnaryOp.negate.simplified b
    else .sub a b
  | .mul, a, b =>
    if a.isConstant 1 then b
    else if b.isConstant 1 then a
    else if a.isConstant 0 || b.isConstant 0 then .const 0
    else .mul a b
  | .div, a, b => if a.isConstant 0 then .const 0 else if b.isConstant 1 then a else .div a b
  | .atan2, a, b => .atan2 a b

def BinaryOp.simplified : BinaryOp → Expr → Expr → Expr
  | o, .const v, .const w => .const (o.apply v w)
  | o, a, b => o.reduced a b

/-- An operation without operands stays, for its value might not be one to write as a constant. -/
def VariadicOp.simplified (o : VariadicOp) (args : List Expr) : Expr :=
  match args.mapM Expr.constant? with
  | some (v :: vs) => .const (o.apply (v :: vs))
  | _ => .variadic o args

namespace Expr

def simplifying : Meaning Expr where
  const := const
  var := var
  unary := UnaryOp.simplified
  binary := BinaryOp.simplified
  variadic := VariadicOp.simplified

def simplify (e : Expr) : Expr := e.interpret simplifying

theorem simplify_unary (o : UnaryOp) (a : Expr) : (unary o a).simplify = o.simplified a.simplify := rfl

theorem simplify_binary (o : BinaryOp) (a b : Expr) :
    (binary o a b).simplify = o.simplified a.simplify b.simplify := rfl

theorem simplify_variadic (o : VariadicOp) (args : List Expr) :
    (variadic o args).simplify = o.simplified (args.map simplify) := interpret_variadic simplifying o args

end Expr
end Trivariate
