/-! The operations, by the number of operands that they take. -/

namespace Trivariate

inductive UnaryOp where
  | negate | atan | sinh | cosh
  deriving DecidableEq, Repr

inductive BinaryOp where
  | add | sub | mul | div | atan2
  deriving DecidableEq, Repr

inductive VariadicOp where
  | sum | avg | sumsq | length
  deriving DecidableEq, Repr

inductive Op where
  | unary (o : UnaryOp)
  | binary (o : BinaryOp)
  | variadic (o : VariadicOp)
  deriving DecidableEq, Repr

inductive Arity where
  | fixed (count : Nat)
  | variadic
  deriving DecidableEq, Repr

namespace Arity

def accepts : Arity → Nat → Bool
  | fixed count, n => n == count
  | variadic, _ => true

def required : Arity → Nat → Nat
  | fixed count, _ => count
  | variadic, n => n

theorem accepts_required (a : Arity) (n : Nat) : a.accepts (a.required n) = true := by
  cases a <;> simp [accepts, required]

end Arity

def UnaryOp.symbol : UnaryOp → String
  | negate => "negate"
  | atan => "atan"
  | sinh => "sinh"
  | cosh => "cosh"

def BinaryOp.symbol : BinaryOp → String
  | add => "+"
  | sub => "-"
  | mul => "*"
  | div => "/"
  | atan2 => "atan2"

def VariadicOp.symbol : VariadicOp → String
  | sum => "sum"
  | avg => "avg"
  | sumsq => "sumsq"
  | length => "length"

namespace Op

def symbol : Op → String
  | unary o => o.symbol
  | binary o => o.symbol
  | variadic o => o.symbol

def arity : Op → Arity
  | unary _ => .fixed 1
  | binary _ => .fixed 2
  | variadic _ => .variadic

def accepts (o : Op) (n : Nat) : Bool := o.arity.accepts n

def all : List Op :=
  [.binary .add, .binary .sub, .binary .mul, .binary .div, .unary .negate,
    .variadic .avg, .variadic .length, .variadic .sum, .variadic .sumsq,
    .unary .atan, .binary .atan2, .unary .cosh, .unary .sinh]

def ofSymbol? (s : String) : Option Op := all.find? (·.symbol == s)

theorem symbol_injective {a b : Op} (h : a.symbol = b.symbol) : a = b := by
  revert h
  rcases a with a | a | a <;> rcases b with b | b | b <;> cases a <;> cases b <;> decide

theorem ofSymbol?_symbol (o : Op) : ofSymbol? o.symbol = some o := by
  rcases o with o | o | o <;> cases o <;> rfl

end Op
end Trivariate
