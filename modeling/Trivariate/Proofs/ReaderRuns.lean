import Trivariate.Proofs.TokenRoles
import Trivariate.Reading.Basic

/-! A run of a reader as a fold of its steps, and the operands whose depth is that of their
expression, the only ones that a run makes. -/

namespace Trivariate

theorem Arity.required_of_accepts {a : Arity} {n : Nat} (h : a.accepts n = true) :
    a.required n = n := by
  cases a with
  | fixed count => exact (beq_iff_eq.mp h).symm
  | variadic => rfl

namespace Reading

variable {σ : Type}

def advance (next : Reader σ) (s : σ) (x : Step) : Except ParseError σ := (next s x).map Prod.fst

theorem snd_run (next : Reader σ) (s : σ) (xs : List Step) :
    (run next s xs).2 = xs.foldlM (advance next) s := by
  induction xs generalizing s with
  | nil => rfl
  | cons x xs ih =>
    rw [run, List.foldlM_cons, advance]
    cases next s x with
    | error e => rfl
    | ok out => exact ih out.1

section Folds

variable {f : σ → Step → Except ParseError σ} {s s' : σ} {e : ParseError}

theorem foldlM_cons_of_ok {x : Step} (h : f s x = .ok s') (xs : List Step) :
    (x :: xs).foldlM f s = xs.foldlM f s' := by
  rw [List.foldlM_cons, h]
  rfl

theorem foldlM_cons_of_error {x : Step} (h : f s x = .error e) (xs : List Step) :
    (x :: xs).foldlM f s = .error e := by
  rw [List.foldlM_cons, h]
  rfl

theorem foldlM_append_of_ok {xs : List Step} (h : xs.foldlM f s = .ok s') (ys : List Step) :
    (xs ++ ys).foldlM f s = ys.foldlM f s' := by
  rw [List.foldlM_append, h]
  rfl

theorem foldlM_append_of_error {xs : List Step} (h : xs.foldlM f s = .error e) (ys : List Step) :
    (xs ++ ys).foldlM f s = .error e := by
  rw [List.foldlM_append, h]
  rfl

end Folds

def Operand.of (e : Expr) : Operand := ⟨e, e.depth⟩

@[simp] theorem Operand.expr_of (e : Expr) : (Operand.of e).expr = e := rfl

@[simp] theorem Operand.depth_of (e : Expr) : (Operand.of e).depth = e.depth := rfl

theorem Operand.node_of {o : Op} {e : Expr} (ho : e.op? = some o)
    (h : o.accepts (e.operands.map Operand.of).length = true) :
    Operand.node o (e.operands.map Operand.of) h = Operand.of e := by
  have hexprs : (e.operands.map Operand.of).map Operand.expr = e.operands := by
    rw [List.map_map]
    exact List.map_id _
  have hdepths : (e.operands.map Operand.of).map Operand.depth = e.operands.map Expr.depth := by
    rw [List.map_map]
    rfl
  unfold Operand.node Operand.of
  congr 1
  · exact Expr.eq_of_op?_of_operands (Expr.op?_node _) ho ((Expr.operands_node _).trans hexprs)
  · exact (congrArg Expr.deeper hdepths).trans (Expr.depth_node ho).symm

theorem Operand.node_congr {o : Op} {as bs : List Operand} (hab : as = bs)
    (h : o.accepts as.length = true) :
    Operand.node o as h = Operand.node o bs (hab ▸ h) := by
  subst hab
  rfl

theorem snd_readBracketed (set : Settings) (source : String) :
    (readBracketed set source).2 =
      ((scan source).foldlM (advance (Brackets.step set)) {}).bind
        fun s => s.result (positionAfter source) := by
  rw [← snd_run, readBracketed]
  dsimp only
  cases ((run (Brackets.step set) {} (scan source)).2.bind
    fun s => s.result (positionAfter source)) <;> rfl

theorem snd_readPolish (set : Settings) (source : String) :
    (readPolish set source).2 =
      ((scan source).foldlM (advance (Polish.step set)) []).bind
        fun s => Polish.result s (positionAfter source) := by
  rw [← snd_run, readPolish]
  dsimp only
  cases ((run (Polish.step set) [] (scan source)).2.bind
    fun s => Polish.result s (positionAfter source)) <;> rfl

end Reading

end Trivariate
