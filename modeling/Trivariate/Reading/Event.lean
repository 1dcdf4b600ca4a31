import Trivariate.Expr.Text
import Trivariate.Reading.Error
import Trivariate.Token.Basic

/-! The record of a reading, one event for each thing that it meets or makes. -/

namespace Trivariate.Reading

inductive Form where
  | bracketed | polish
  deriving DecidableEq, Repr, Inhabited

inductive Event where
  | token (t : Token) (position : Nat)
  | operator (o : Op) (position : Nat)
  | operand (e : Expr)
  | closing (o : Op) (count : Nat)
  | parsed (e : Expr)
  | failed (form : Form) (e : ParseError)

inductive Level where
  | trace | debug
  deriving DecidableEq, Repr

def Level.name : Level → String
  | trace => "trace"
  | debug => "debug"

namespace Event

def level : Event → Level
  | token .. | operator .. | operand .. | closing .. => .trace
  | parsed .. | failed .. => .debug

def message : Event → String
  | token t position => "token " ++ t.description ++ s!" at {position}"
  | operator o position => "operator " ++ o.symbol ++ s!" at {position}"
  | operand e => "operand " ++ e.text .polish
  | closing o count => "closing " ++ o.symbol ++ s!" with {count} operands"
  | parsed e => "parsed " ++ e.text .leading
  | failed .bracketed e => "parse failed: " ++ e.message
  | failed .polish e => "rpn parse failed: " ++ e.message

def line (e : Event) : String := e.level.name ++ ": " ++ e.message

end Event
end Trivariate.Reading
