import Mathlib.Logic.Relation
import Trivariate.Proofs.DerivativeParts
import Trivariate.Proofs.DerivativeSize

/-! Simplification only shrinks. A simplified expression is reached in steps that each make an
expression smaller, no deeper, and bring nothing but constants and negations. The rules keep the number
of operands right even where nothing checks it. -/

namespace Trivariate

namespace Tree

def constant? : Tree → Option Float
  | const v => some v
  | _ => none

def isConstant (t : Tree) (v : Float) : Bool := t.constant?.any (· == v)

def evaluate? (vs : List Float) : Op → Option Float
  | .unary o => do
    let v ← vs[0]?
    return o.apply v
  | .binary o => do
    let v ← vs[0]?
    let w ← vs[1]?
    return o.apply v w
  | .variadic o => some (o.apply vs)

def fold? (o : Op) (args : List Tree) (rest : Option Tree) : Option Tree :=
  match args.mapM constant? with
  | some (v :: vs) => (evaluate? (v :: vs) o).map const
  | _ => rest

def cancelled : List Tree → Tree
  | [node (.unary .negate) (a :: _)] => a
  | args => node (.unary .negate) args

def negated? (args : List Tree) : Option Tree := fold? (.unary .negate) args (some (cancelled args))

def reduced? : Op → List Tree → Option Tree
  | .binary .add, [a, b] =>
    some (if a.isConstant 0 then b else if b.isConstant 0 then a else binary .add a b)
  | .binary .sub, [a, b] =>
    if b.isConstant 0 then some a
    else if a.isConstant 0 then negated? [b]
    else some (binary .sub a b)
  | .binary .mul, [a, b] =>
    some (if a.isConstant 1 then b
      else if b.isConstant 1 then a
      else if a.isConstant 0 || b.isConstant 0 then const 0
      else binary .mul a b)
  | .binary .div, [a, b] =>
    some (if a.isConstant 0 then const 0 else if b.isConstant 1 then a else binary .div a b)
  | .unary .negate, args => some (cancelled args)
  | o, args => some (node o args)

def rewrite? (o : Op) (args : List Tree) : Option Tree := fold? o args (reduced? o args)

mutual

def simplify? : Tree → Option Tree
  | const v => some (const v)
  | var v => some (var v)
  | node o args => do
    let args ← simplifyAll? args
    rewrite? o args

def simplifyAll? : List Tree → Option (List Tree)
  | [] => some []
  | t :: ts => do
    let t ← t.simplify?
    let ts ← simplifyAll? ts
    return t :: ts

end

theorem constant?_tree (e : Expr) : e.tree.constant? = e.constant? := by
  cases e <;> rfl

theorem isConstant_tree (e : Expr) (v : Float) : e.tree.isConstant v = e.isConstant v := by
  rw [isConstant, constant?_tree]
  rfl

theorem mapM_constant?_tree (args : List Expr) :
    (args.map Expr.tree).mapM constant? = args.mapM Expr.constant? := by
  rw [List.mapM_map]
  exact congrArg (fun f => args.mapM f) (funext constant?_tree)

theorem rewrite?_unary (o : UnaryOp) (a : Expr) :
    rewrite? (.unary o) [a.tree] = some (o.simplified a).tree := by
  cases a with
  | const v => rfl
  | unary p b => cases o <;> cases p <;> rfl
  | var | binary | variadic => cases o <;> rfl

theorem reduced?_binary (o : BinaryOp) (a b : Expr) :
    reduced? (.binary o) [a.tree, b.tree] = some (o.reduced a b).tree := by
  cases o with
  | sub =>
    simp only [reduced?, isConstant_tree, BinaryOp.reduced]
    split
    next => rfl
    next =>
      split
      next => exact rewrite?_unary .negate b
      next => rfl
  | add | mul | div =>
    simp only [reduced?, isConstant_tree, BinaryOp.reduced]
    repeat' split
    all_goals rfl
  | atan2 => rfl

theorem rewrite?_binary (o : BinaryOp) (a b : Expr) :
    rewrite? (.binary o) [a.tree, b.tree] = some (o.simplified a b).tree := by
  unfold BinaryOp.simplified
  split
  next v w => rfl
  next hconst =>
    have hnone : [a.tree, b.tree].mapM constant? = none := by
      refine (mapM_constant?_tree [a, b]).trans (Option.eq_none_iff_forall_ne_some.mpr fun vs hvs => ?_)
      have hargs := VariadicOp.mapM_constant?_eq_some_iff.mp hvs
      rcases vs with _ | ⟨v, _ | ⟨w, vs⟩⟩
      · cases hargs
      · cases hargs
      · obtain ⟨rfl, hrest⟩ := List.cons.inj hargs
        exact hconst v w rfl (List.cons.inj hrest).1
    rw [rewrite?, fold?, hnone]
    exact reduced?_binary o a b

theorem rewrite?_variadic (o : VariadicOp) (args : List Expr) :
    rewrite? (.variadic o) (args.map Expr.tree) = some (o.simplified args).tree := by
  rw [rewrite?, fold?, mapM_constant?_tree, VariadicOp.simplified]
  rcases args.mapM Expr.constant? with _ | _ | ⟨v, vs⟩
  · exact congrArg some (tree_variadic o args).symm
  · exact congrArg some (tree_variadic o args).symm
  · rfl

theorem simplifyAll?_map {args : List Expr} (h : ∀ a ∈ args, a.tree.simplify? = some a.simplify.tree) :
    simplifyAll? (args.map Expr.tree) = some ((args.map Expr.simplify).map Expr.tree) := by
  induction args with
  | nil => rfl
  | cons a args ih =>
    obtain ⟨ha, hargs⟩ := List.forall_mem_cons.mp h
    rw [List.map_cons, simplifyAll?, ha, ih hargs]
    rfl

theorem simplify?_tree (e : Expr) : e.tree.simplify? = some e.simplify.tree := by
  have hnode : ∀ (o : Op) (args : List Expr), (∀ a ∈ args, a.tree.simplify? = some a.simplify.tree) →
      (node o (args.map Expr.tree)).simplify? = rewrite? o ((args.map Expr.simplify).map Expr.tree) := by
    intro o args h
    rw [simplify?, simplifyAll?_map h]
    rfl
  induction e with
  | const v => rfl
  | var v => rfl
  | unary o a ih =>
    exact (hnode (.unary o) [a] (List.forall_mem_singleton.mpr ih)).trans (rewrite?_unary o a.simplify)
  | binary o a b iha ihb =>
    have hargs : ∀ c ∈ [a, b], c.tree.simplify? = some c.simplify.tree :=
      List.forall_mem_cons.mpr ⟨iha, List.forall_mem_singleton.mpr ihb⟩
    exact (hnode (.binary o) [a, b] hargs).trans (rewrite?_binary o a.simplify b.simplify)
  | variadic o args ih =>
    rw [tree_variadic, hnode (.variadic o) args ih, rewrite?_variadic, Expr.simplify_variadic]

example : (node (.binary .add) [const 1]).simplify? = none := rfl

end Tree

namespace Expr

inductive Reduction : Expr → Expr → Prop
  | constant {e : Expr} (h : e.operands ≠ []) (v : Float) : Reduction e (const v)
  | operand {e a : Expr} (h : a ∈ e.operands) : Reduction e a
  | negation (o : BinaryOp) (a b : Expr) : Reduction (binary o a b) (negate b)
  | within {e e' a a' : Expr} {o : Op} (before after : List Expr) (ho : e.op? = some o)
      (ho' : e'.op? = some o) (he : e.operands = before ++ a :: after)
      (he' : e'.operands = before ++ a' :: after) (h : Reduction a a') : Reduction e e'

def Reduces : Expr → Expr → Prop := Relation.ReflTransGen Reduction

namespace Reduction

variable {e e' : Expr}

theorem size_lt (h : Reduction e e') : e'.size < e.size := by
  induction h with
  | @constant e h v =>
    have hlength := length_le_sum_size e.operands
    have hpos := List.length_pos_iff.mpr h
    have hone : (const v).size = 1 := rfl
    rw [size_eq e]
    omega
  | @operand e a h =>
    have hle := List.single_le_sum (fun n _ => Nat.zero_le n) _ (List.mem_map_of_mem (f := size) h)
    rw [size_eq e]
    omega
  | negation o a b =>
    have hpos := size_eq a
    rw [size_unary, size_binary]
    omega
  | within before after ho ho' he he' h ih =>
    rw [size_eq, size_eq, he, he']
    simp only [List.map_append, List.map_cons, List.sum_append, List.sum_cons]
    omega

theorem depth_le (h : Reduction e e') : e'.depth ≤ e.depth := by
  induction h with
  | constant h v => exact Nat.zero_le _
  | operand h => exact (depth_lt_of_mem_operands h).le
  | negation o a b =>
    rw [depth_unary, depth_binary]
    omega
  | @within e e' a a' o before after ho ho' he he' h ih =>
    have hbelow : ∀ b ∈ before ++ a :: after, b.depth + 1 ≤ e.depth := fun b hb =>
      depth_lt_of_mem_operands (he ▸ hb)
    have ha := hbelow a (by simp)
    rw [depth_node ho', deeper_le_iff, List.forall_mem_map, he']
    refine ⟨by omega, fun b hb => ?_⟩
    rcases List.mem_append.mp hb with hb | hb
    · exact hbelow b (List.mem_append_left _ hb)
    · rcases List.mem_cons.mp hb with rfl | hb
      · omega
      · exact hbelow b (List.mem_append_right _ (List.mem_cons_of_mem _ hb))

theorem forall_parts {P : Expr → Prop} (hconst : ∀ v, P (const v)) (hnegate : ∀ a, P (negate a))
    (hsame : ∀ {a b : Expr} {o : Op}, a.op? = some o → b.op? = some o → P a → P b)
    (h : Reduction e e') (he : ∀ a ∈ e.postorder, P a) : ∀ a ∈ e'.postorder, P a := by
  induction h with
  | constant h v => exact forall_mem_postorder.mpr ⟨hconst v, List.forall_mem_nil _⟩
  | operand h => exact (forall_mem_postorder.mp he).2 _ h
  | negation o a b =>
    have hb := (forall_mem_postorder.mp he).2 b (by simp [operands])
    exact forall_mem_postorder.mpr ⟨hnegate b, List.forall_mem_singleton.mpr hb⟩
  | within before after ho ho' hargs hargs' h ih =>
    obtain ⟨hroot, hoperands⟩ := forall_mem_postorder.mp he
    rw [hargs] at hoperands
    refine forall_mem_postorder.mpr ⟨hsame ho ho' hroot, ?_⟩
    rw [hargs']
    simp only [List.forall_mem_append, List.forall_mem_cons] at hoperands ⊢
    exact ⟨hoperands.1, ih hoperands.2.1, hoperands.2.2⟩

end Reduction

namespace Reduces

variable {e e' : Expr}

theorem size_lt_or_eq (h : Reduces e e') : e'.size < e.size ∨ e' = e := by
  induction h with
  | refl => exact .inr rfl
  | tail _ hstep ih =>
    have hlt := hstep.size_lt
    rcases ih with ih | rfl
    · exact .inl (hlt.trans ih)
    · exact .inl hlt

theorem depth_le (h : Reduces e e') : e'.depth ≤ e.depth := by
  induction h with
  | refl => exact Nat.le_refl _
  | tail _ hstep ih => exact hstep.depth_le.trans ih

theorem forall_parts {P : Expr → Prop} (hconst : ∀ v, P (const v)) (hnegate : ∀ a, P (negate a))
    (hsame : ∀ {a b : Expr} {o : Op}, a.op? = some o → b.op? = some o → P a → P b)
    (h : Reduces e e') (he : ∀ a ∈ e.postorder, P a) : ∀ a ∈ e'.postorder, P a := by
  induction h with
  | refl => exact he
  | tail _ hstep ih => exact hstep.forall_parts hconst hnegate hsame ih

theorem congr_unary (o : UnaryOp) {a a' : Expr} (h : Reduces a a') : Reduces (unary o a) (unary o a') :=
  h.lift (unary o) fun _ _ hstep => .within [] _ rfl rfl rfl rfl hstep

theorem congr_binary (o : BinaryOp) {a a' b b' : Expr} (ha : Reduces a a') (hb : Reduces b b') :
    Reduces (binary o a b) (binary o a' b') := by
  have hleft : Reduces (binary o a b) (binary o a' b) :=
    ha.lift (binary o · b) fun _ _ hstep => .within [] _ rfl rfl rfl rfl hstep
  have hright : Reduces (binary o a' b) (binary o a' b') :=
    hb.lift (binary o a') fun _ _ hstep => .within [a'] [] rfl rfl rfl rfl hstep
  exact hleft.trans hright

theorem congr_variadic (o : VariadicOp) (f : Expr → Expr) {args : List Expr}
    (h : ∀ a ∈ args, Reduces a (f a)) : Reduces (variadic o args) (variadic o (args.map f)) := by
  -- the operands are reduced one after the other, so that reduced ones stand before the rest
  have hfrom : ∀ before, Reduces (variadic o (before ++ args)) (variadic o (before ++ args.map f)) := by
    induction args with
    | nil => exact fun before => .refl
    | cons a args ih =>
      obtain ⟨ha, hargs⟩ := List.forall_mem_cons.mp h
      intro before
      have hfirst : Reduces (variadic o (before ++ a :: args)) (variadic o (before ++ f a :: args)) :=
        ha.lift (fun b => variadic o (before ++ b :: args)) fun _ _ hstep =>
          .within before args rfl rfl rfl rfl hstep
      have hrest := ih hargs (before ++ [f a])
      rw [← List.append_cons, ← List.append_cons] at hrest
      exact hfirst.trans hrest
  exact hfrom []

end Reduces
end Expr

open Trivariate.Expr

theorem UnaryOp.reduces_simplified (o : UnaryOp) (a : Expr) : Reduces (unary o a) (o.simplified a) := by
  rcases o.simplified_eq_or a with ⟨v, h⟩ | ⟨b, rfl, h⟩ | ⟨-, h⟩
  · have hne : (unary o a).operands ≠ [] := List.cons_ne_nil _ _
    rw [h]
    exact .single (.constant hne v)
  · have houter : Expr.negate b ∈ (unary o (Expr.negate b)).operands := List.mem_singleton_self _
    have hinner : b ∈ (Expr.negate b).operands := List.mem_singleton_self b
    rw [h]
    exact .head (.operand houter) (.single (.operand hinner))
  · rw [h]
    exact .refl

theorem BinaryOp.reduces_simplified (o : BinaryOp) (a b : Expr) :
    Reduces (binary o a b) (o.simplified a b) := by
  have hne : (binary o a b).operands ≠ [] := List.cons_ne_nil _ _
  rcases o.simplified_eq_or a b with ⟨v, h⟩ | ⟨-, h⟩
  · rw [h]
    exact .single (.constant hne v)
  · rw [h]
    by_cases hdecided : o.Decided a b
    · rcases reduced_of_decided hdecided with h | h | h | h
      · rw [h]
        exact .single (.operand (by simp [operands]))
      · rw [h]
        exact .single (.operand (by simp [operands]))
      · rw [h]
        exact .single (.constant hne 0)
      · rw [h]
        exact .head (.negation o a b) (UnaryOp.reduces_simplified .negate b)
    · rw [reduced_of_not_decided hdecided]
      exact .refl

theorem VariadicOp.reduces_simplified (o : VariadicOp) (args : List Expr) :
    Reduces (variadic o args) (o.simplified args) := by
  cases args with
  | nil => exact .refl
  | cons a args =>
    rcases o.simplified_eq_or (a :: args) with ⟨v, h⟩ | ⟨-, h⟩
    · have hne : (variadic o (a :: args)).operands ≠ [] := List.cons_ne_nil _ _
      rw [h]
      exact .single (.constant hne v)
    · rw [h]
      exact .refl

namespace Expr

theorem reduces_simplify (e : Expr) : Reduces e e.simplify := by
  induction e with
  | const v => exact .refl
  | var v => exact .refl
  | unary o a ih => exact (Reduces.congr_unary o ih).trans (o.reduces_simplified a.simplify)
  | binary o a b iha ihb =>
    exact (Reduces.congr_binary o iha ihb).trans (o.reduces_simplified a.simplify b.simplify)
  | variadic o args ih =>
    rw [simplify_variadic]
    exact (Reduces.congr_variadic o simplify ih).trans (o.reduces_simplified (args.map simplify))

/-- A simplified expression has nodes with the right numbers of operands, is no deeper than the
expression, has none but its variables and operations, negation apart, and is smaller unless nothing
was there to simplify. By `Tree.correct_iff` this speaks of all trees with the right numbers of
operands. -/
theorem simplify_shrinks (e : Expr) :
    (e.tree.simplify? = some e.simplify.tree ∧ e.simplify.tree.Correct) ∧
    e.simplify.depth ≤ e.depth ∧
    (∀ w, var w ∈ e.simplify.postorder → var w ∈ e.postorder) ∧
    (∀ a ∈ e.simplify.postorder, ∀ o ∈ a.op?,
      o = .unary .negate ∨ ∃ b ∈ e.postorder, b.op? = some o) ∧
    (e.simplify.size < e.size ∨ e.simplify = e) := by
  have hreduces := reduces_simplify e
  refine ⟨⟨Tree.simplify?_tree e, Tree.correct_iff.mpr ⟨_, rfl⟩⟩, hreduces.depth_le, fun w hw => ?_, ?_,
    hreduces.size_lt_or_eq⟩
  · have hvars : ∀ a ∈ e.simplify.postorder, ∀ w, a = var w → var w ∈ e.postorder := by
      refine hreduces.forall_parts (fun _ => nofun) (fun _ => nofun) ?_ fun a ha w hw => hw ▸ ha
      rintro a b o - ho - w rfl
      cases ho
    exact hvars _ hw w rfl
  · refine hreduces.forall_parts (fun _ => nofun) ?_ ?_ fun a ha o ho => .inr ⟨a, ha, ho⟩
    · intro a o ho
      exact .inl (Option.some.inj ho).symm
    · intro a b p ha hb h o ho
      exact h o (ha.trans (hb.symm.trans ho))

example : (sub (const 0) (var .x)).simplify = negate (var .x) := by decide +kernel

end Expr
end Trivariate
