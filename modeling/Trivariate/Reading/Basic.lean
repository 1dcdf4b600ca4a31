import Trivariate.Reading.Bracketed
import Trivariate.Reading.Polish

/-! Reading an expression from text. -/

namespace Trivariate

namespace Reading

def read : Form → Settings → String → List Event × Except ParseError Expr
  | .bracketed => readBracketed
  | .polish => readPolish

def tokens (source : String) : Except ParseError (List (Token × Span)) :=
  (scan source).mapM fun x =>
    match x.lexeme with
    | .token t => .ok (t, x.span)
    | .stray _ => .error (unknown x)

end Reading

def parse (set : Reading.Settings) (source : String) : Except ParseError Expr :=
  (Reading.readBracketed set source).2

def parsePolish (set : Reading.Settings) (source : String) : Except ParseError Expr :=
  (Reading.readPolish set source).2

def Style.form : Style → Reading.Form
  | leading => .bracketed
  | trailing => .bracketed
  | polish => .polish

end Trivariate
