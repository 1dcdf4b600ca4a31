/-! The tokens of a text and the places where they stand. -/

namespace Trivariate

inductive Token where
  | symbol (c : Char)
  | number (text : String)
  | name (text : String)
  | opening
  | closing
  deriving DecidableEq, Repr

namespace Token

def text : Token → String
  | symbol c => c.toString
  | number s => s
  | name s => s
  | opening => "("
  | closing => ")"

def description : Token → String
  | symbol c => "Op(\"" ++ c.toString ++ "\")"
  | number s => "Num(\"" ++ s ++ "\")"
  | name s => "Ident(\"" ++ s ++ "\")"
  | opening => "Delimiter(LParen)"
  | closing => "Delimiter(RParen)"

end Token

/-- A stretch of a text from the character at `start` up to and without the one at `stop`, counted
in characters from 0. -/
structure Span where
  start : Nat
  stop : Nat
  deriving DecidableEq, Repr

namespace Span

/-- Positions count characters from 1. -/
def position (s : Span) : Nat := s.start + 1

def after (s : Span) : Nat := s.stop + 1

end Span
end Trivariate
