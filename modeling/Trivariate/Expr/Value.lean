import Trivariate.Expr.Meaning
import Trivariate.Operation.Value

/-! The value of an expression at a point. -/

namespace Trivariate

abbrev Point := Var → Float

def Point.of (x y z : Float) : Point
  | .x => x
  | .y => y
  | .z => z

namespace Expr

def atPoint (p : Point) : Meaning Float where
  const v := v
  var := p
  unary := UnaryOp.apply
  binary := BinaryOp.apply
  variadic := VariadicOp.apply

def value (e : Expr) (p : Point) : Float := e.interpret (atPoint p)

theorem value_variadic (o : VariadicOp) (args : List Expr) (p : Point) :
    (variadic o args).value p = o.apply (args.map (·.value p)) := interpret_variadic (atPoint p) o args

end Expr
end Trivariate
