import Trivariate.Binary64.Elementary
import Trivariate.Operation.Basic

/-! The operations on binary64 numbers. -/

namespace Trivariate

def UnaryOp.apply : UnaryOp → Float → Float
  | negate, a => -a
  | atan, a => Binary64.atan a
  | sinh, a => Binary64.sinh a
  | cosh, a => Binary64.cosh a

def BinaryOp.apply : BinaryOp → Float → Float → Float
  | add, a, b => a + b
  | sub, a, b => a - b
  | mul, a, b => a * b
  | div, a, b => a / b
  | atan2, a, b => Binary64.atan2 a b

namespace Binary64

/-- Adds from the left. The sum of nothing is the zero that changes no number, `-0`. -/
def sum (vs : List Float) : Float := vs.foldl (· + ·) (-0.0)

def squaredNorm (vs : List Float) : Float := sum (vs.map fun v => v * v)

end Binary64

def VariadicOp.apply : VariadicOp → List Float → Float
  | sum, vs => Binary64.sum vs
  | avg, vs => Binary64.sum vs / vs.length.toFloat
  | sumsq, vs => Binary64.squaredNorm vs
  | length, vs => (Binary64.squaredNorm vs).sqrt

def Op.evaluate? : Op → List Float → Option Float
  | unary o, [a] => some (o.apply a)
  | binary o, [a, b] => some (o.apply a b)
  | variadic o, vs => some (o.apply vs)
  | _, _ => none

end Trivariate
