import Trivariate.Expr.Derivative
import Trivariate.Expr.Simplified
import Trivariate.Expr.Value
import Trivariate.Reading.Basic
import Trivariate.Session.Failure

/-! A session: expressions are made, kept in named registers and asked about. A step that fails
leaves the registers as they were. -/

namespace Trivariate

def Expr.reread (e : Expr) (s : Style) (c : Catalog) : Except ParseError Expr :=
  (Reading.read s.form { catalog := c } (e.text s)).2

namespace Session

abbrev Registers := List (String × Expr)

def Registers.get (r : Registers) (name : String) : Except Failure Expr :=
  match r.lookup name with
  | some e => .ok e
  | none => .error (.emptyRegister name)

def Registers.set (r : Registers) (name : String) (e : Expr) : Registers := (name, e) :: r

inductive Maker where
  | reading (form : Reading.Form) (catalog : String) (limit : Nat) (text : String)
  | const (v : Float)
  | var (name : String)
  | operation (symbol : String) (args : List String)
  | derivative (register name : String)
  | simplified (register : String)
  | reread (register : String) (style : Style) (catalog : String)

inductive Query where
  | value (register : String) (p : Point)
  | shown (register : String)
  | equality (left right : String)
  | constancy (register : String) (v : Float)

inductive Command where
  | store (target : String) (maker : Maker)
  | ask (query : Query)

inductive Answer where
  | stored (e : Expr)
  | value (v : Float)
  | shown (e : Expr)
  | equality (same : Bool)
  | constancy (same : Bool) (v : Option Float)

def Maker.make (r : Registers) : Maker → Except Failure Expr
  | .reading form catalog limit text => do
    let c ← catalogNamed catalog
    (Reading.read form ⟨c, limit⟩ text).2.mapError .parse
  | .const v => pure (.const v)
  | .var name => do
    let v ← variableNamed name
    pure (.var v)
  | .operation symbol args => do
    let o ← operationNamed symbol
    let args ← args.mapM r.get
    match Expr.node? o args with
    | some e => pure e
    | none => throw (.wrongArity o args.length)
  | .derivative register name => do
    let e ← r.get register
    let v ← variableNamed name
    pure (e.derivative v)
  | .simplified register => do
    let e ← r.get register
    pure e.simplify
  | .reread register style catalog => do
    let e ← r.get register
    let c ← catalogNamed catalog
    (e.reread style c).mapError .parse

def Query.answer (r : Registers) : Query → Except Failure Answer
  | .value register p => do
    let e ← r.get register
    pure (.value (e.value p))
  | .shown register => do
    let e ← r.get register
    pure (.shown e)
  | .equality left right => do
    let a ← r.get left
    let b ← r.get right
    pure (.equality (a.equal b))
  | .constancy register v => do
    let e ← r.get register
    pure (.constancy (e.isConstant v) e.constant?)

def perform (r : Registers) : Command → Registers × Except Failure Answer
  | .store target maker =>
    match maker.make r with
    | .ok e => (r.set target e, .ok (.stored e))
    | .error f => (r, .error f)
  | .ask query => (r, query.answer r)

def performAll (r : Registers) : List Command → List (Except Failure Answer)
  | [] => []
  | c :: cs =>
    let (r', answer) := perform r c
    answer :: performAll r' cs

section Step

variable {r : Registers} {target : String} {maker : Maker}

theorem perform_store_ok {e : Expr} (h : maker.make r = .ok e) :
    perform r (.store target maker) = (r.set target e, .ok (.stored e)) := by
  simp only [perform, h]

theorem perform_store_error {f : Failure} (h : maker.make r = .error f) :
    perform r (.store target maker) = (r, .error f) := by
  simp only [perform, h]

theorem registers_of_error {c : Command} {f : Failure} (h : (perform r c).2 = .error f) :
    (perform r c).1 = r := by
  cases c with
  | ask query => rfl
  | store target maker =>
    cases hmade : maker.make r with
    | ok e =>
      rw [perform_store_ok hmade] at h
      cases h
    | error g => rw [perform_store_error hmade]

end Step

def succeeding : Registers → List Command → List Command
  | _, [] => []
  | r, c :: cs =>
    if (perform r c).2.isOk then c :: succeeding (perform r c).1 cs else succeeding (perform r c).1 cs

theorem performAll_cons (r : Registers) (c : Command) (cs : List Command) :
    performAll r (c :: cs) = (perform r c).2 :: performAll (perform r c).1 cs := rfl

theorem performAll_succeeding (r : Registers) (cs : List Command) :
    performAll r (succeeding r cs) = (performAll r cs).filter (·.isOk) := by
  induction cs generalizing r with
  | nil => rfl
  | cons c cs ih =>
    rw [performAll_cons, List.filter_cons, succeeding]
    by_cases hok : (perform r c).2.isOk = true
    · rw [if_pos hok, if_pos hok, performAll_cons, ih]
    · have hsame : (perform r c).1 = r := by
        cases hanswer : (perform r c).2 with
        | ok answer =>
          rw [hanswer] at hok
          exact absurd rfl hok
        | error f => exact registers_of_error hanswer
      rw [if_neg hok, if_neg hok, hsame, ih]

end Session
end Trivariate
