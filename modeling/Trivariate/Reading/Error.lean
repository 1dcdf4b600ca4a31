import Trivariate.Operation.Basic

/-! Why a text is no expression, and where. Positions count characters from 1. -/

namespace Trivariate

inductive ParseError where
  | unknownToken (text : String) (position : Nat)
  | unpairedBracket (bracket : Char) (position : Nat)
  | missingOperand (o : Op) (position expected available : Nat)
  | missingOperation (position : Nat)
  | tooDeep (limit position : Nat)
  deriving DecidableEq, Repr

namespace ParseError

def position : ParseError → Nat
  | unknownToken _ position => position
  | unpairedBracket _ position => position
  | missingOperand _ position _ _ => position
  | missingOperation position => position
  | tooDeep _ position => position

def message : ParseError → String
  | unknownToken text position =>
    s!"There is unknown token '{text}' in expression at pos {position}"
  | unpairedBracket bracket position =>
    s!"There is unpaired bracket '{bracket}' in expression at pos {position}"
  | missingOperand o position expected available =>
    s!"Expected {expected} operands for operation " ++ o.symbol ++
      s!" at pos {position} have only {available}"
  | missingOperation position => s!"Missing operation in expression at pos {position}"
  | tooDeep limit position => s!"Expression nests deeper than {limit} operations at pos {position}"

end ParseError
end Trivariate
