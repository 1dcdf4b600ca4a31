import Trivariate.Reading.Event
import Trivariate.Reading.Role
import Trivariate.Expr.Measure

/-! What the two ways of reading share: operands that know their depth, and the run of a reader over
the steps of a scan up to its first failure. -/

namespace Trivariate.Reading

structure Settings where
  catalog : Catalog := .standard
  limit : Nat := 1000
  deriving DecidableEq, Repr

structure Operand where
  expr : Expr
  depth : Nat

namespace Operand

def leaf (e : Expr) : Operand := ⟨e, 0⟩

/-- The top `n` operands of a stack, which has the newest first, in the order of their making. -/
def newest (n : Nat) (stack : List Operand) : List Operand := (stack.take n).reverse

def node (o : Op) (args : List Operand) (h : o.accepts args.length = true) : Operand :=
  ⟨.node o (args.map expr) (by rwa [List.length_map]), Expr.deeper (args.map depth)⟩

theorem length_newest {n : Nat} {stack : List Operand} (h : n ≤ stack.length) :
    (newest n stack).length = n := by
  rw [newest, List.length_reverse, List.length_take, Nat.min_eq_left h]

theorem accepts_newest {o : Op} {n : Nat} {stack : List Operand}
    (h : o.arity.required n ≤ stack.length) :
    o.accepts (newest (o.arity.required n) stack).length = true := by
  rw [length_newest h]
  exact o.arity.accepts_required n

end Operand

abbrev Reader (σ : Type) := σ → Step → Except ParseError (σ × List Event)

def announce (x : Step) : List Event :=
  match x.lexeme with
  | .token t => [.token t x.span.position]
  | .stray _ => []

def run {σ : Type} (next : Reader σ) (s : σ) : List Step → List Event × Except ParseError σ
  | [] => ([], .ok s)
  | x :: xs =>
    match next s x with
    | .error e => (announce x, .error e)
    | .ok (s', told) =>
      let (events, result) := run next s' xs
      (announce x ++ (told ++ events), result)

def unknown (x : Step) : ParseError := .unknownToken x.lexeme.text x.span.position

end Trivariate.Reading
