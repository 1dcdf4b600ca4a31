import Trivariate.Binary64.Shortest
import Trivariate.Expr.Meaning

/-! The written forms of an expression. -/

namespace Trivariate

/-- Where an operation stands: first or last in a bracketed group, or behind its operands with no
brackets at all. -/
inductive Style where
  | leading | trailing | polish
  deriving DecidableEq, Repr

/-- Items are parted by one space, and a group without operands keeps it. -/
def Style.layout : Style → Op → List String → String
  | leading, o, [] => "(" ++ o.symbol ++ " )"
  | leading, o, args => "(" ++ " ".intercalate (o.symbol :: args) ++ ")"
  | trailing, o, [] => "( " ++ o.symbol ++ ")"
  | trailing, o, args => "(" ++ " ".intercalate (args ++ [o.symbol]) ++ ")"
  | polish, o, args => " ".intercalate (args ++ [o.symbol])

def Expr.text (s : Style) (e : Expr) : String :=
  e.interpret (.uniform Binary64.text Var.name s.layout)

end Trivariate
