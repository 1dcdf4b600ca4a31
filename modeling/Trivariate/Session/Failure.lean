import Trivariate.Expr.Basic
import Trivariate.Operation.Catalog
import Trivariate.Reading.Error

/-! Why a request has no answer, and the look-ups by name that can fail. -/

namespace Trivariate

inductive Failure where
  | unknownCatalog (e : UnknownCatalog)
  | parse (e : ParseError)
  | unknownVariable (name : String)
  | unknownOperation (symbol : String)
  | wrongArity (o : Op) (count : Nat)
  | emptyRegister (name : String)
  deriving DecidableEq, Repr

namespace Failure

def message : Failure → String
  | unknownCatalog e => e.message
  | parse e => e.message
  | unknownVariable name => name
  | unknownOperation symbol => symbol
  | wrongArity o count => o.symbol ++ s!" {count}"
  | emptyRegister name => name

def position? : Failure → Option Nat
  | parse e => some e.position
  | _ => none

end Failure

def catalogNamed (name : String) : Except Failure Catalog :=
  (Catalog.ofName name).mapError .unknownCatalog

def variableNamed (name : String) : Except Failure Var :=
  match Var.ofName? name with
  | some v => .ok v
  | none => .error (.unknownVariable name)

def operationNamed (symbol : String) : Except Failure Op :=
  match Op.ofSymbol? symbol with
  | some o => .ok o
  | none => .error (.unknownOperation symbol)

end Trivariate
