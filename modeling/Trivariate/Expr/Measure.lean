import Trivariate.Expr.Meaning

/-! The size of an expression, its depth and its parts. -/

namespace Trivariate.Expr

def deeper (ds : List Nat) : Nat := 1 + ds.foldr max 0

def depth (e : Expr) : Nat := e.interpret (.uniform (fun _ => 0) (fun _ => 0) fun _ => deeper)

def size (e : Expr) : Nat := e.interpret (.uniform (fun _ => 1) (fun _ => 1) fun _ ns => 1 + ns.foldr (· + ·) 0)

mutual

/-- All parts of an expression, each behind its own parts. -/
def postorder : Expr → List Expr
  | const v => [const v]
  | var v => [var v]
  | unary o a => a.postorder ++ [unary o a]
  | binary o a b => a.postorder ++ b.postorder ++ [binary o a b]
  | variadic o args => postorderAll args ++ [variadic o args]

def postorderAll : List Expr → List Expr
  | [] => []
  | e :: es => e.postorder ++ postorderAll es

end

theorem postorderAll_eq_flatMap (es : List Expr) : postorderAll es = es.flatMap postorder := by
  induction es with
  | nil => rfl
  | cons e es ih => simp only [postorderAll, List.flatMap_cons, ih]

theorem depth_node {e : Expr} {o : Op} (h : e.op? = some o) :
    e.depth = deeper (e.operands.map depth) := interpret_node _ _ _ h

theorem size_node {e : Expr} {o : Op} (h : e.op? = some o) :
    e.size = 1 + (e.operands.map size).foldr (· + ·) 0 := interpret_node _ _ _ h

end Trivariate.Expr
