import Trivariate.Operation.Basic

/-! Expressions in three variables. The number of operands of a node is fixed by its constructor, so
every expression has as many as its operations accept. -/

namespace Trivariate

inductive Var where
  | x | y | z
  deriving DecidableEq, Repr

namespace Var

def name : Var → String
  | x => "x"
  | y => "y"
  | z => "z"

def index : Var → Nat
  | x => 0
  | y => 1
  | z => 2

def ofName? : String → Option Var
  | "x" => some x
  | "y" => some y
  | "z" => some z
  | _ => none

theorem ofName?_eq_some_iff {s : String} {v : Var} : ofName? s = some v ↔ v.name = s := by
  constructor
  · intro h
    unfold ofName? at h
    split at h <;> cases h <;> rfl
  · rintro rfl
    cases v <;> rfl

theorem name_injective {v w : Var} (h : v.name = w.name) : v = w :=
  Option.some.inj ((ofName?_eq_some_iff.mpr h).symm.trans (ofName?_eq_some_iff.mpr rfl))

end Var

inductive Expr where
  | const (value : Float)
  | var (v : Var)
  | unary (o : UnaryOp) (a : Expr)
  | binary (o : BinaryOp) (a b : Expr)
  | variadic (o : VariadicOp) (args : List Expr)

namespace Expr

instance : Inhabited Expr := ⟨const 0⟩

@[match_pattern] abbrev negate (a : Expr) : Expr := unary .negate a
@[match_pattern] abbrev atan (a : Expr) : Expr := unary .atan a
@[match_pattern] abbrev sinh (a : Expr) : Expr := unary .sinh a
@[match_pattern] abbrev cosh (a : Expr) : Expr := unary .cosh a
@[match_pattern] abbrev add (a b : Expr) : Expr := binary .add a b
@[match_pattern] abbrev sub (a b : Expr) : Expr := binary .sub a b
@[match_pattern] abbrev mul (a b : Expr) : Expr := binary .mul a b
@[match_pattern] abbrev div (a b : Expr) : Expr := binary .div a b
@[match_pattern] abbrev atan2 (a b : Expr) : Expr := binary .atan2 a b
@[match_pattern] abbrev sum (args : List Expr) : Expr := variadic .sum args
@[match_pattern] abbrev avg (args : List Expr) : Expr := variadic .avg args
@[match_pattern] abbrev sumsq (args : List Expr) : Expr := variadic .sumsq args
@[match_pattern] abbrev length (args : List Expr) : Expr := variadic .length args

def op? : Expr → Option Op
  | const _ | var _ => none
  | unary o _ => some (.unary o)
  | binary o _ _ => some (.binary o)
  | variadic o _ => some (.variadic o)

def operands : Expr → List Expr
  | const _ | var _ => []
  | unary _ a => [a]
  | binary _ a b => [a, b]
  | variadic _ args => args

def node? : Op → List Expr → Option Expr
  | .unary o, [a] => some (unary o a)
  | .binary o, [a, b] => some (binary o a b)
  | .variadic o, args => some (variadic o args)
  | _, _ => none

theorem node?_eq_some_iff {o : Op} {args : List Expr} {e : Expr} :
    node? o args = some e ↔ e.op? = some o ∧ e.operands = args := by
  constructor
  · intro h
    unfold node? at h
    split at h <;> cases h <;> exact ⟨rfl, rfl⟩
  · rintro ⟨ho, rfl⟩
    cases e <;> simp only [op?, reduceCtorEq, Option.some.injEq] at ho <;> subst ho <;> rfl

theorem isSome_node? (o : Op) (args : List Expr) :
    (node? o args).isSome = o.accepts args.length := by
  rcases o with o | o | o <;> rcases args with _ | ⟨a, _ | ⟨b, _ | ⟨c, args⟩⟩⟩ <;>
    simp [node?, Op.accepts, Op.arity, Arity.accepts]

def node (o : Op) (args : List Expr) (h : o.accepts args.length = true) : Expr :=
  (node? o args).get ((isSome_node? o args).trans h)

theorem node?_eq_some_node {o : Op} {args : List Expr}
    (h : o.accepts args.length = true) : node? o args = some (node o args h) := by
  simp [node]

theorem op?_node {o : Op} {args : List Expr} (h : o.accepts args.length = true) :
    (node o args h).op? = some o :=
  (node?_eq_some_iff.mp (node?_eq_some_node h)).1

theorem operands_node {o : Op} {args : List Expr} (h : o.accepts args.length = true) :
    (node o args h).operands = args :=
  (node?_eq_some_iff.mp (node?_eq_some_node h)).2

def constant? : Expr → Option Float
  | const v => some v
  | _ => none

/-- Whether the expression is a constant equal to `v` as numbers are: zeros of either sign are
equal, and what is not a number equals nothing. -/
def isConstant (e : Expr) (v : Float) : Bool := e.constant?.any (· == v)

mutual

def agree (same : Float → Float → Bool) : Expr → Expr → Bool
  | const v, const w => same v w
  | var v, var w => v == w
  | unary o a, unary p b => o == p && agree same a b
  | binary o a b, binary p c d => o == p && (agree same a c && agree same b d)
  | variadic o as, variadic p bs => o == p && agreeAll same as bs
  | _, _ => false

def agreeAll (same : Float → Float → Bool) : List Expr → List Expr → Bool
  | [], [] => true
  | a :: as, b :: bs => agree same a b && agreeAll same as bs
  | _, _ => false

end

def equal : Expr → Expr → Bool := agree (· == ·)

mutual

theorem agree_iff_eq {same : Float → Float → Bool} (h : ∀ v w, same v w = true ↔ v = w) :
    (a b : Expr) → (agree same a b = true ↔ a = b)
  | const v, b => by cases b <;> simp [agree, h]
  | var v, b => by cases b <;> simp [agree]
  | unary o a, b => by cases b <;> simp [agree, agree_iff_eq h a]
  | binary o a c, b => by cases b <;> simp [agree, agree_iff_eq h a, agree_iff_eq h c]
  | variadic o as, b => by cases b <;> simp [agree, agreeAll_iff_eq h as]

theorem agreeAll_iff_eq {same : Float → Float → Bool} (h : ∀ v w, same v w = true ↔ v = w) :
    (as bs : List Expr) → (agreeAll same as bs = true ↔ as = bs)
  | [], bs => by cases bs <;> simp [agreeAll]
  | a :: as, bs => by cases bs <;> simp [agreeAll, agree_iff_eq h a, agreeAll_iff_eq h as]

end

/-- Identity compares constants bit for bit, so that zeros of different signs differ. -/
instance : DecidableEq Expr := fun a b =>
  decidable_of_iff (agree (fun v w => decide (v = w)) a b = true)
    (agree_iff_eq (fun _ _ => decide_eq_true_iff) a b)

end Expr
end Trivariate
