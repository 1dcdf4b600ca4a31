import Trivariate.Binary64.Shortest
import Trivariate.Expr.Basic
import Trivariate.Operation.Catalog
import Trivariate.Token.Scan

/-! What a lexeme stands for under a catalog. -/

namespace Trivariate

/-- A literal has to be finite: an infinite one could not be written back as a literal. -/
def literal? (s : String) : Option Float := (Binary64.ofPlainText? s).filter Binary64.isFinite

inductive Role where
  | operand (e : Expr)
  | operation (o : Op)
  | opening
  | closing
  | unknown

namespace Role

/-- The names of variables go before those of operations. -/
def ofWord (c : Catalog) (word : String) : Role :=
  match Var.ofName? word with
  | some v => operand (.var v)
  | none =>
    match c.lookup? word with
    | some o => operation o
    | none => unknown

def ofNumber (text : String) : Role :=
  match literal? text with
  | some v => operand (.const v)
  | none => unknown

end Role

def Token.role (c : Catalog) : Token → Role
  | symbol s => Role.ofWord c s.toString
  | number s => Role.ofNumber s
  | name s => Role.ofWord c s
  | opening => .opening
  | closing => .closing

def Lexeme.role (c : Catalog) : Lexeme → Role
  | token t => t.role c
  | stray _ => .unknown

end Trivariate
