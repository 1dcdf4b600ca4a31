import Trivariate.Reading.Run

/-! Reading bracketed text. An operation stands anywhere in its group and applies to the operands
that the group holds when it closes; a group with too few borrows from the groups around it. -/

namespace Trivariate.Reading

structure Pending where
  op : Op
  position : Nat

/-- An open bracket and the number of operands in its group that nothing has taken yet. -/
structure Group where
  offset : Nat
  count : Nat

/-- The newest operand, the newest operation and the innermost group come first. -/
structure Brackets where
  operands : List Operand := []
  pending : List Pending := []
  groups : List Group := []
  /-- The operands outside all groups that nothing has taken yet. -/
  loose : Nat := 0

/-- The counts of the groups and the loose operands after `n` of them are lent, by the innermost
group first. -/
def lend (loose : Nat) : Nat → List Group → List Group × Nat
  | 0, groups => (groups, loose)
  | n, [] => ([], loose - n)
  | n, g :: outer =>
    let (rest, left) := lend loose (n - g.count) outer
    ({ g with count := g.count - n } :: rest, left)

namespace Brackets

def push (s : Brackets) (a : Operand) : Brackets :=
  match s.groups with
  | [] => { s with operands := a :: s.operands, loose := s.loose + 1 }
  | g :: outer =>
    { s with operands := a :: s.operands, groups := { g with count := g.count + 1 } :: outer }

def closeGroup (limit : Nat) (s : Brackets) (position : Nat) :
    Except ParseError (Brackets × List Event) :=
  match s.groups, s.pending with
  | [], _ => .error (.unpairedBracket ')' position)
  | _ :: _, [] => .error (.missingOperation position)
  | g :: outer, p :: waiting =>
    let required := p.op.arity.required g.count
    if h : required ≤ s.operands.length then
      if required < g.count then .error (.missingOperation position)
      else
        let node := Operand.node p.op (Operand.newest required s.operands) (Operand.accepts_newest h)
        if limit < node.depth then .error (.tooDeep limit position)
        else
          let (groups, loose) := lend s.loose (required - g.count) outer
          let below : Brackets := ⟨s.operands.drop required, waiting, groups, loose⟩
          .ok (below.push node, [.closing p.op required, .operand node.expr])
    else .error (.missingOperand p.op p.position required s.operands.length)

def step (set : Settings) : Reader Brackets := fun s x =>
  match x.lexeme.role set.catalog with
  | .operand e => .ok (s.push (.leaf e), [.operand e])
  | .operation o =>
    .ok ({ s with pending := ⟨o, x.span.position⟩ :: s.pending }, [.operator o x.span.position])
  | .opening => .ok ({ s with groups := ⟨x.span.start, 0⟩ :: s.groups }, [])
  | .closing => s.closeGroup set.limit x.span.position
  | .unknown => .error (unknown x)

def result (s : Brackets) (stop : Nat) : Except ParseError Expr :=
  match s.groups.getLast?, s.pending, s.operands with
  | some g, _, _ => .error (.unpairedBracket '(' (g.offset + 1))
  | none, p :: _, operands =>
    .error (.missingOperand p.op p.position (p.op.arity.required 0) operands.length)
  | none, [], [a] => .ok a.expr
  | none, [], _ => .error (.missingOperation stop)

end Brackets

def readBracketed (set : Settings) (source : String) : List Event × Except ParseError Expr :=
  let (events, result) := run (Brackets.step set) {} (scan source)
  match result.bind fun s => s.result (positionAfter source) with
  | .ok e => (events ++ [.parsed e], .ok e)
  | .error e => (events ++ [.failed .bracketed e], .error e)

end Trivariate.Reading
