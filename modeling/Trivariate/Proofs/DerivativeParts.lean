import Mathlib.Data.Set.List
import Trivariate.Expr.Derivative
import Trivariate.Proofs.SimplifiedText

/-! What a derivative is made of. Every part of it is a part of the expression, one of few numbers or
a node of an operation that a rule brings, and these operations are in every catalog that has the one
the rule is for. So a derivative is written and read like the expression itself, and the rules need no
more operands than there are, even where nothing checks how many a node has. -/

namespace Trivariate

/-- An expression whose nodes may have any number of operands. -/
inductive Tree where
  | const (value : Float)
  | var (v : Var)
  | node (o : Op) (args : List Tree)

namespace Tree

abbrev unary (o : UnaryOp) (a : Tree) : Tree := node (.unary o) [a]

abbrev binary (o : BinaryOp) (a b : Tree) : Tree := node (.binary o) [a, b]

abbrev variadic (o : VariadicOp) (args : List Tree) : Tree := node (.variadic o) args

def square (a : Tree) : Tree := binary .mul a a

def crossDifference (a b a' b' : Tree) : Tree :=
  binary .sub (binary .mul a' b) (binary .mul a b')

def sumsqRule? (args : List Tree) (args' : List (Option Tree)) : Option Tree := do
  let args' ← args'.mapM id
  return binary .mul (const 2) (variadic .sum (List.zipWith (binary .mul) args args'))

def rule? (args : List Tree) (args' : List (Option Tree)) : Op → Option Tree
  | .unary .negate => do
    let a' ← args'[0]?.join
    return unary .negate a'
  | .unary .atan => do
    let a ← args[0]?
    let a' ← args'[0]?.join
    return binary .div a' (binary .add (const 1) a.square)
  | .unary .sinh => do
    let a ← args[0]?
    let a' ← args'[0]?.join
    return binary .mul (unary .cosh a) a'
  | .unary .cosh => do
    let a ← args[0]?
    let a' ← args'[0]?.join
    return binary .mul (unary .sinh a) a'
  | .binary .add => do
    let a' ← args'[0]?.join
    let b' ← args'[1]?.join
    return binary .add a' b'
  | .binary .sub => do
    let a' ← args'[0]?.join
    let b' ← args'[1]?.join
    return binary .sub a' b'
  | .binary .mul => do
    let a ← args[0]?
    let b ← args[1]?
    let a' ← args'[0]?.join
    let b' ← args'[1]?.join
    return binary .add (binary .mul a b') (binary .mul a' b)
  | .binary .div => do
    let a ← args[0]?
    let b ← args[1]?
    let a' ← args'[0]?.join
    let b' ← args'[1]?.join
    return binary .div (a.crossDifference b a' b') b.square
  | .binary .atan2 => do
    let a ← args[0]?
    let b ← args[1]?
    let a' ← args'[0]?.join
    let b' ← args'[1]?.join
    return binary .div (a.crossDifference b a' b') (binary .add a.square b.square)
  | .variadic .sum => do
    let args' ← args'.mapM id
    return variadic .sum args'
  | .variadic .avg => do
    let args' ← args'.mapM id
    return binary .div (variadic .sum args') (const args.length.toFloat)
  | .variadic .sumsq => sumsqRule? args args'
  | .variadic .length =>
    if args.isEmpty then some (const 0)
    else do
      let upper ← sumsqRule? args args'
      return binary .div upper (binary .mul (const 2) (variadic .length args))

mutual

def derivative? (v : Var) : Tree → Option Tree
  | const _ => some (const 0)
  | var w => some (if w = v then const 1 else const 0)
  | node o args => rule? args (derivativeAll? v args) o

def derivativeAll? (v : Var) : List Tree → List (Option Tree)
  | [] => []
  | t :: ts => t.derivative? v :: derivativeAll? v ts

end

inductive Correct : Tree → Prop
  | const (value : Float) : Correct (const value)
  | var (v : Var) : Correct (var v)
  | node {o : Op} {args : List Tree} (haccepts : o.accepts args.length = true)
      (hargs : ∀ a ∈ args, Correct a) : Correct (node o args)

end Tree

def Expr.tree (e : Expr) : Tree := e.interpret (.uniform .const .var .node)

namespace Tree

theorem tree_node {e : Expr} {o : Op} (h : e.op? = some o) :
    e.tree = node o (e.operands.map Expr.tree) := Expr.interpret_node _ _ _ h

theorem correct_tree (e : Expr) : e.tree.Correct := by
  induction e using Expr.induct_node with
  | const x => exact .const x
  | var v => exact .var v
  | node o e ho ih =>
    rw [tree_node ho]
    refine .node ?_ (List.forall_mem_map.mpr ih)
    rw [List.length_map]
    exact Expr.accepts_operands ho

theorem correct_iff {t : Tree} : t.Correct ↔ ∃ e : Expr, e.tree = t := by
  constructor
  · intro h
    induction h with
    | const x => exact ⟨.const x, rfl⟩
    | var v => exact ⟨.var v, rfl⟩
    | @node o args haccepts _ ih =>
      obtain ⟨es, rfl⟩ : args ∈ Set.range (List.map Expr.tree) := by
        rw [Set.range_list_map]
        exact ih
      rw [List.length_map] at haccepts
      refine ⟨.node o es haccepts, ?_⟩
      rw [tree_node (Expr.op?_node haccepts), Expr.operands_node]
  · rintro ⟨e, rfl⟩
    exact correct_tree e

section Derivative

variable (v : Var)

theorem derivativeAll?_eq_map (ts : List Tree) : derivativeAll? v ts = ts.map (derivative? v) := by
  induction ts with
  | nil => rfl
  | cons t ts ih => rw [derivativeAll?, ih, List.map_cons]

theorem mapM_some (ts : List Tree) : (ts.map some).mapM id = some ts := by
  induction ts with
  | nil => rfl
  | cons t ts ih =>
    rw [List.map_cons, List.mapM_cons, ih]
    rfl

theorem tree_variadic (o : VariadicOp) (args : List Expr) :
    (Expr.variadic o args).tree = variadic o (args.map Expr.tree) := tree_node rfl

theorem sumsqRule?_tree (args args' : List Expr) :
    sumsqRule? (args.map Expr.tree) ((args'.map Expr.tree).map some) =
      some (sumsqDerivative args args').tree := by
  have hproducts : List.zipWith (binary .mul) (args.map Expr.tree) (args'.map Expr.tree) =
      (List.zipWith Expr.mul args args').map Expr.tree := by
    rw [List.zipWith_map, List.map_zipWith]
    rfl
  have htree : (sumsqDerivative args args').tree = binary .mul (const 2)
      (Expr.sum (List.zipWith Expr.mul args args')).tree := rfl
  rw [sumsqRule?, mapM_some, htree, tree_variadic, ← hproducts]
  rfl

theorem rule?_variadic (o : VariadicOp) (args args' : List Expr) :
    rule? (args.map Expr.tree) ((args'.map Expr.tree).map some) (.variadic o) =
      some (o.derivative args args').tree := by
  cases o with
  | sum =>
    rw [rule?, mapM_some, VariadicOp.derivative, tree_variadic]
    rfl
  | avg =>
    have htree : (VariadicOp.avg.derivative args args').tree = binary .div (Expr.sum args').tree
        (const args.length.toFloat) := rfl
    rw [rule?, mapM_some, htree, tree_variadic, List.length_map]
    rfl
  | sumsq => exact sumsqRule?_tree args args'
  | length =>
    cases args with
    | nil => rfl
    | cons a args =>
      have htree : (VariadicOp.length.derivative (a :: args) args').tree = binary .div
          (sumsqDerivative (a :: args) args').tree
          (binary .mul (const 2) (Expr.length (a :: args)).tree) := rfl
      rw [rule?, sumsqRule?_tree, htree, tree_variadic]
      rfl

theorem derivative?_tree (e : Expr) : e.tree.derivative? v = some (e.derivative v).tree := by
  induction e with
  | const x => rfl
  | var w =>
    have hleaf : (Expr.var w).tree.derivative? v = some (if w = v then const 1 else const 0) := rfl
    rw [hleaf, Expr.derivative]
    split <;> rfl
  | unary o a ih =>
    have hrule : (Expr.unary o a).tree.derivative? v =
        rule? [a.tree] [a.tree.derivative? v] (.unary o) := rfl
    rw [hrule, ih]
    cases o <;> rfl
  | binary o a b iha ihb =>
    have hrule : (Expr.binary o a b).tree.derivative? v =
        rule? [a.tree, b.tree] [a.tree.derivative? v, b.tree.derivative? v] (.binary o) := rfl
    rw [hrule, iha, ihb]
    cases o <;> rfl
  | variadic o args ih =>
    have hargs : (args.map Expr.tree).map (derivative? v) =
        ((args.map (Expr.derivative v)).map Expr.tree).map some := by
      rw [List.map_map, List.map_map, List.map_map]
      exact List.map_congr_left ih
    rw [tree_variadic, derivative?, derivativeAll?_eq_map, hargs, rule?_variadic, Expr.derivative,
      Expr.derivativeAll_eq_map]

/-- The rule for an addition looks in vain for a second operand. -/
example : (node (.binary .add) [var .x]).derivative? .x = none := rfl

end Derivative

end Tree

def Op.brought : Op → List Op
  | .unary .negate => [.unary .negate]
  | .unary .atan => [.binary .div, .binary .add, .binary .mul]
  | .unary .sinh => [.binary .mul, .unary .cosh]
  | .unary .cosh => [.binary .mul, .unary .sinh]
  | .binary .add => [.binary .add]
  | .binary .sub => [.binary .sub]
  | .binary .mul => [.binary .add, .binary .mul]
  | .binary .div => [.binary .div, .binary .sub, .binary .mul]
  | .binary .atan2 => [.binary .div, .binary .sub, .binary .mul, .binary .add]
  | .variadic .sum => [.variadic .sum]
  | .variadic .avg => [.binary .div, .variadic .sum]
  | .variadic .sumsq => [.binary .mul, .variadic .sum]
  | .variadic .length => [.binary .div, .binary .mul, .variadic .sum, .variadic .length]

theorem Catalog.mem_ops_of_brought {c : Catalog} {o p : Op} (ho : o ∈ c.ops) (hp : p ∈ o.brought) :
    p ∈ c.ops := by
  revert p
  revert ho
  cases c <;> rcases o with o | o | o <;> cases o <;> decide

namespace Expr

inductive Arises (e : Expr) : Expr → Prop
  | part {a : Expr} (h : a ∈ e.postorder) : Arises e a
  | zero : Arises e (const 0)
  | one : Arises e (const 1)
  | two : Arises e (const 2)
  | count {args : List Expr} (h : avg args ∈ e.postorder) : Arises e (const args.length.toFloat)
  | node {a b : Expr} {o p : Op} (hb : b ∈ e.postorder) (ho : b.op? = some o) (hp : p ∈ o.brought)
      (ha : a.op? = some p) : Arises e a

theorem mem_postorder_trans {a b e : Expr} (hb : b ∈ e.postorder) (ha : a ∈ b.postorder) :
    a ∈ e.postorder := by
  induction e using induct_operands with
  | node e ih =>
    rcases mem_postorder.mp hb with rfl | ⟨d, hd, hb⟩
    · exact ha
    · exact mem_postorder_of_mem_operands hd (ih d hd hb)

def Grown (e t : Expr) : Prop := ∀ a ∈ t.postorder, Arises e a

namespace Grown

variable {e t : Expr}

theorem part (h : t ∈ e.postorder) : Grown e t := fun _ ha => .part (mem_postorder_trans h ha)

theorem operand (h : t ∈ e.operands) : Grown e t :=
  part (mem_postorder_of_mem_operands h t.mem_postorder_self)

theorem const {x : Float} (h : Arises e (.const x)) : Grown e (.const x) :=
  forall_mem_postorder.mpr ⟨h, List.forall_mem_nil _⟩

theorem of_operand {a : Expr} (ha : a ∈ e.operands) (h : Grown a t) : Grown e t := by
  intro b hb
  cases h b hb with
  | part hpart => exact .part (mem_postorder_of_mem_operands ha hpart)
  | zero => exact .zero
  | one => exact .one
  | two => exact .two
  | count havg => exact .count (mem_postorder_of_mem_operands ha havg)
  | node hd ho hp hop => exact .node (mem_postorder_of_mem_operands ha hd) ho hp hop

section Nodes

variable {o : Op} (ho : e.op? = some o)
include ho

theorem node {p : Op} (hp : p ∈ o.brought) (ht : t.op? = some p) (h : ∀ a ∈ t.operands, Grown e a) :
    Grown e t :=
  forall_mem_postorder.mpr ⟨.node e.mem_postorder_self ho hp ht, h⟩

theorem unary {p : UnaryOp} {a : Expr} (hp : .unary p ∈ o.brought) (ha : Grown e a) :
    Grown e (.unary p a) :=
  node ho hp rfl (List.forall_mem_singleton.mpr ha)

theorem binary {p : BinaryOp} {a b : Expr} (hp : .binary p ∈ o.brought) (ha : Grown e a)
    (hb : Grown e b) : Grown e (.binary p a b) :=
  node ho hp rfl (List.forall_mem_cons.mpr ⟨ha, List.forall_mem_singleton.mpr hb⟩)

theorem square {a : Expr} (hp : .binary .mul ∈ o.brought) (ha : Grown e a) : Grown e a.square :=
  binary ho hp ha ha

theorem crossDifference {a b a' b' : Expr} (hsub : .binary .sub ∈ o.brought)
    (hmul : .binary .mul ∈ o.brought) (ha : Grown e a) (hb : Grown e b) (ha' : Grown e a')
    (hb' : Grown e b') : Grown e (a.crossDifference b a' b') :=
  binary ho hsub (binary ho hmul ha' hb) (binary ho hmul ha hb')

theorem sumsqDerivative {args args' : List Expr} (hmul : .binary .mul ∈ o.brought)
    (hsum : .variadic .sum ∈ o.brought) (h : ∀ a ∈ args, Grown e a) (h' : ∀ a ∈ args', Grown e a) :
    Grown e (sumsqDerivative args args') := by
  refine binary ho hmul (const .two) (node ho hsum rfl fun a ha => ?_)
  obtain ⟨b, hb, b', hb', rfl⟩ := exists_of_mem_products ha
  exact binary ho hmul (h b hb) (h' b' hb')

end Nodes

end Grown

end Expr

section Rules

open Trivariate.Expr (Grown)

theorem UnaryOp.grown_derivative (o : UnaryOp) {a a' : Expr} (h : Grown (.unary o a) a') :
    Grown (.unary o a) (o.derivative a a') := by
  have hroot : (Expr.unary o a).op? = some (.unary o) := rfl
  have ha : Grown (.unary o a) a := .operand (List.mem_singleton_self a)
  cases o with
  | negate => exact .unary hroot (by decide) h
  | atan =>
    exact .binary hroot (by decide) h (.binary hroot (by decide) (.const .one) (.square hroot (by decide) ha))
  | sinh => exact .binary hroot (by decide) (.unary hroot (by decide) ha) h
  | cosh => exact .binary hroot (by decide) (.unary hroot (by decide) ha) h

theorem BinaryOp.grown_derivative (o : BinaryOp) {a b a' b' : Expr} (h : Grown (.binary o a b) a')
    (h' : Grown (.binary o a b) b') : Grown (.binary o a b) (o.derivative a b a' b') := by
  have hroot : (Expr.binary o a b).op? = some (.binary o) := rfl
  have ha : Grown (.binary o a b) a := .operand (by simp [Expr.operands])
  have hb : Grown (.binary o a b) b := .operand (by simp [Expr.operands])
  cases o with
  | add => exact .binary hroot (by decide) h h'
  | sub => exact .binary hroot (by decide) h h'
  | mul =>
    exact .binary hroot (by decide) (.binary hroot (by decide) ha h') (.binary hroot (by decide) h hb)
  | div =>
    exact .binary hroot (by decide) (.crossDifference hroot (by decide) (by decide) ha hb h h')
      (.square hroot (by decide) hb)
  | atan2 =>
    exact .binary hroot (by decide) (.crossDifference hroot (by decide) (by decide) ha hb h h')
      (.binary hroot (by decide) (.square hroot (by decide) ha) (.square hroot (by decide) hb))

theorem VariadicOp.grown_derivative (o : VariadicOp) {args args' : List Expr}
    (h : ∀ a ∈ args', Grown (.variadic o args) a) :
    Grown (.variadic o args) (o.derivative args args') := by
  have hroot : (Expr.variadic o args).op? = some (.variadic o) := rfl
  have hargs : ∀ a ∈ args, Grown (.variadic o args) a := fun a ha => .operand ha
  cases o with
  | sum => exact .node hroot (by decide) rfl h
  | avg =>
    exact .binary hroot (by decide) (.node hroot (by decide) rfl h)
      (.const (.count (Expr.mem_postorder_self _)))
  | sumsq => exact .sumsqDerivative hroot (by decide) (by decide) hargs h
  | length =>
    cases args with
    | nil => exact .const .zero
    | cons a args =>
      exact .binary hroot (by decide) (.sumsqDerivative hroot (by decide) (by decide) hargs h)
        (.binary hroot (by decide) (.const .two) (.node hroot (by decide) rfl hargs))

end Rules

namespace Expr

theorem grown_derivative (v : Var) (e : Expr) : Grown e (e.derivative v) := by
  induction e with
  | const x => exact .const .zero
  | var w =>
    rw [derivative]
    split
    · exact .const .one
    · exact .const .zero
  | unary o a ih => exact o.grown_derivative (ih.of_operand (List.mem_singleton_self a))
  | binary o a b iha ihb =>
    exact o.grown_derivative (iha.of_operand (by simp [operands])) (ihb.of_operand (by simp [operands]))
  | variadic o args ih =>
    rw [derivative, derivativeAll_eq_map]
    exact o.grown_derivative (List.forall_mem_map.mpr fun a ha => (ih a ha).of_operand ha)

variable {c : Catalog} {e : Expr} (v : Var)

theorem over_derivative (h : e.Over c) : (e.derivative v).Over c := by
  intro a ha o ho
  cases grown_derivative v e a ha with
  | part hpart => exact h a hpart o ho
  | zero | one | two | count => cases ho
  | node hb hop hp hop' =>
    obtain rfl := Option.some.inj (hop'.symm.trans ho)
    exact Catalog.mem_ops_of_brought (h _ hb _ hop) hp

theorem finite_derivative (h : e.Finite) (hcounts : ∀ args, avg args ∈ e.postorder →
    Binary64.isFinite args.length.toFloat = true) : (e.derivative v).Finite := by
  intro a ha x hx
  cases grown_derivative v e a ha with
  | part hpart => exact h a hpart x hx
  | zero | one | two =>
    obtain rfl := Option.some.inj hx
    decide +kernel
  | count havg =>
    obtain rfl := Option.some.inj hx
    exact hcounts _ havg
  | node _ _ _ hop => cases a <;> cases hx; cases hop

theorem var_mem_of_derivative {w : Var} (h : var w ∈ (e.derivative v).postorder) :
    var w ∈ e.postorder := by
  cases grown_derivative v e _ h with
  | part hpart => exact hpart
  | node _ _ _ hop => cases hop

end Expr

/-- A derivative stays within the catalog, the variables and the finite numbers of its expression, and
is read back from its text. The rules never look up an operand that is not there. This speaks of all
trees with the right numbers of operands, for these are the trees of expressions (`Tree.correct_iff`). -/
theorem derivative_printable (c : Catalog) {e : Expr} (hover : e.Over c) (hfinite : e.Finite)
    (hcounts : ∀ args, .avg args ∈ e.postorder → Binary64.isFinite args.length.toFloat = true)
    (v : Var) :
    e.tree.derivative? v = some (e.derivative v).tree ∧ (e.derivative v).tree.Correct ∧
    (e.derivative v).Over c ∧ (e.derivative v).Finite ∧
    (∀ w, .var w ∈ (e.derivative v).postorder → .var w ∈ e.postorder) ∧
    ∀ style : Style, style.form = .bracketed → ∀ limit, (e.derivative v).depth ≤ limit →
      parse ⟨c, limit⟩ ((e.derivative v).text style) = .ok (e.derivative v) := by
  have hover' := Expr.over_derivative v hover
  have hfinite' := Expr.finite_derivative v hfinite hcounts
  refine ⟨Tree.derivative?_tree v e, Tree.correct_iff.mpr ⟨_, rfl⟩, hover', hfinite',
    fun w => Expr.var_mem_of_derivative v, fun style hstyle limit hdepth => ?_⟩
  exact Reading.parse_of_within hstyle ⟨hover', hdepth⟩ hfinite'

def Expr.lengthSample : Expr := .length [.var .x, .avg [.var .y, .const (-2.5)]]

/-- The text of this derivative has the sum and the product that only the rules bring. -/
theorem derivative_printable_length :
    Expr.lengthSample.Over .standard ∧
    parse ⟨.standard, 6⟩ ((Expr.lengthSample.derivative .y).text .trailing) =
      .ok (Expr.lengthSample.derivative .y) := by
  have hover : Expr.lengthSample.Over .standard := by decide
  have hcounts : ∀ args, .avg args ∈ Expr.lengthSample.postorder →
      Binary64.isFinite args.length.toFloat = true := by
    intro args h
    obtain rfl : args = [.var .y, .const (-2.5)] := by
      simpa [Expr.lengthSample, Expr.postorder, Expr.postorderAll] using h
    decide +kernel
  obtain ⟨-, -, -, -, -, hparse⟩ :=
    derivative_printable .standard hover (by decide +kernel) hcounts .y
  exact ⟨hover, hparse .trailing rfl 6 (by decide)⟩

end Trivariate
