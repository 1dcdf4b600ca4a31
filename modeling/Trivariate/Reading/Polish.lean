import Trivariate.Reading.Run

/-! Reading reverse Polish text: every operation takes its operands from the top of one stack. There
are no brackets to say how many, so a variadic operation is unknown here. -/

namespace Trivariate.Reading

namespace Polish

abbrev Stack := List Operand

def apply (limit : Nat) (s : Stack) (o : Op) (position : Nat) :
    Except ParseError (Stack × List Event) :=
  let required := o.arity.required 0
  if h : required ≤ s.length then
    let node := Operand.node o (Operand.newest required s) (Operand.accepts_newest h)
    if limit < node.depth then .error (.tooDeep limit position)
    else .ok (node :: s.drop required, [])
  else .error (.missingOperand o position required s.length)

def step (set : Settings) : Reader Stack := fun s x =>
  match x.lexeme.role set.catalog with
  | .operand e => .ok (.leaf e :: s, [])
  | .operation (.variadic _) => .error (unknown x)
  | .operation o => apply set.limit s o x.span.position
  | .opening => .error (.unpairedBracket '(' x.span.position)
  | .closing => .error (.unpairedBracket ')' x.span.position)
  | .unknown => .error (unknown x)

def result (s : Stack) (stop : Nat) : Except ParseError Expr :=
  match s with
  | [a] => .ok a.expr
  | _ => .error (.missingOperation stop)

end Polish

def readPolish (set : Settings) (source : String) : List Event × Except ParseError Expr :=
  let (events, result) := run (Polish.step set) [] (scan source)
  match result.bind fun s => Polish.result s (positionAfter source) with
  | .ok e => (events, .ok e)
  | .error e => (events ++ [.failed .polish e], .error e)

end Trivariate.Reading
