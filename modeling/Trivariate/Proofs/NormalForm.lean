import Trivariate.Expr.Simplified
import Trivariate.Proofs.ExprParts

/-! Simplification leaves nothing to simplify. An operation over normal operands is simplified to a
normal expression, whatever its rule gives back, and simplification changes no normal one. -/

namespace Trivariate

def Expr.IsConst (e : Expr) : Prop := e.constant?.isSome = true

def BinaryOp.Decided : BinaryOp → Expr → Expr → Prop
  | .add, a, b => a.isConstant 0 = true ∨ b.isConstant 0 = true
  | .sub, a, b => a.isConstant 0 = true ∨ b.isConstant 0 = true
  | .mul, a, b => (a.isConstant 0 = true ∨ a.isConstant 1 = true) ∨
      b.isConstant 0 = true ∨ b.isConstant 1 = true
  | .div, a, b => a.isConstant 0 = true ∨ b.isConstant 1 = true
  | .atan2, _, _ => False

namespace Expr

inductive Redex : Expr → Prop
  | fold {e : Expr} (hne : e.operands ≠ []) (hall : ∀ a ∈ e.operands, a.IsConst) : Redex e
  | decided {o : BinaryOp} {a b : Expr} (h : o.Decided a b) : Redex (binary o a b)
  | negate {a : Expr} : Redex (negate (negate a))

def Normal (e : Expr) : Prop := ∀ a ∈ e.postorder, ¬ a.Redex

theorem normal_iff {e : Expr} : e.Normal ↔ ¬ e.Redex ∧ ∀ a ∈ e.operands, a.Normal :=
  forall_mem_postorder

theorem Normal.operand {e a : Expr} (h : e.Normal) (ha : a ∈ e.operands) : a.Normal :=
  (normal_iff.mp h).2 a ha

theorem Normal.not_redex {e : Expr} (h : e.Normal) : ¬ e.Redex := (normal_iff.mp h).1

theorem normal_leaf {e : Expr} (h : e.op? = none) : e.Normal := by
  refine normal_iff.mpr ⟨?_, ?_⟩
  · intro hredex
    cases hredex with
    | fold hne _ => exact hne (operands_leaf h)
    | decided | negate => cases h
  · rw [operands_leaf h]
    exact List.forall_mem_nil _

theorem constant?_eq_some_iff {e : Expr} {v : Float} : e.constant? = some v ↔ e = const v := by
  cases e <;> simp [constant?]

theorem IsConst.eq_const {e : Expr} (h : e.IsConst) : ∃ v, e = const v := by
  obtain ⟨v, hv⟩ := Option.isSome_iff_exists.mp h
  exact ⟨v, constant?_eq_some_iff.mp hv⟩

end Expr

open Trivariate.Expr

namespace UnaryOp

theorem simplified_eq_or (o : UnaryOp) (a : Expr) :
    (∃ v, o.simplified a = const v) ∨ (∃ b, a = Expr.negate b ∧ o.simplified a = b) ∨
      (¬ (unary o a).Redex ∧ o.simplified a = unary o a) := by
  unfold simplified
  split
  next v => exact .inl ⟨_, rfl⟩
  next b => exact .inr (.inl ⟨b, rfl, rfl⟩)
  next hconst hnegate =>
    refine .inr (.inr ⟨?_, rfl⟩)
    intro h
    cases h with
    | fold _ hall =>
      obtain ⟨v, rfl⟩ := (hall a (List.mem_singleton_self a)).eq_const
      exact hconst v rfl
    | negate => exact hnegate _ rfl rfl

theorem normal_simplified (o : UnaryOp) {a : Expr} (ha : a.Normal) : (o.simplified a).Normal := by
  rcases o.simplified_eq_or a with ⟨v, h⟩ | ⟨b, rfl, h⟩ | ⟨hredex, h⟩
  · rw [h]
    exact normal_leaf rfl
  · rw [h]
    exact ha.operand (List.mem_singleton_self b)
  · rw [h]
    exact normal_iff.mpr ⟨hredex, List.forall_mem_singleton.mpr ha⟩

theorem simplified_of_not_redex {o : UnaryOp} {a : Expr} (h : ¬ (unary o a).Redex) :
    o.simplified a = unary o a := by
  unfold simplified
  split
  next v =>
    have hfold : (unary o (const v)).Redex :=
      .fold (List.cons_ne_nil _ _) (List.forall_mem_singleton.mpr rfl)
    exact absurd hfold h
  next b => exact absurd Redex.negate h
  next => rfl

end UnaryOp

namespace BinaryOp

theorem reduced_of_not_decided {o : BinaryOp} {a b : Expr} (h : ¬ o.Decided a b) :
    o.reduced a b = binary o a b := by
  cases o <;> simp only [Decided, not_or, Bool.not_eq_true] at h <;> simp [reduced, h]

/-- What remains of a decided operation is one of its operands, the other one negated, or zero. -/
theorem reduced_of_decided {o : BinaryOp} {a b : Expr} (h : o.Decided a b) :
    o.reduced a b = a ∨ o.reduced a b = b ∨ o.reduced a b = const 0 ∨
      o.reduced a b = UnaryOp.negate.simplified b := by
  cases o with
  | add =>
    by_cases ha : a.isConstant 0 = true
    · exact .inr (.inl (if_pos ha))
    · exact .inl ((if_neg ha).trans (if_pos (h.resolve_left ha)))
  | sub =>
    by_cases hb : b.isConstant 0 = true
    · exact .inl (if_pos hb)
    · exact .inr (.inr (.inr ((if_neg hb).trans (if_pos (h.resolve_right hb)))))
  | mul =>
    by_cases ha : a.isConstant 1 = true
    · exact .inr (.inl (if_pos ha))
    · by_cases hb : b.isConstant 1 = true
      · exact .inl ((if_neg ha).trans (if_pos hb))
      · have hzero : (a.isConstant 0 || b.isConstant 0) = true := by
          simpa [Decided, ha, hb] using h
        exact .inr (.inr (.inl ((if_neg ha).trans ((if_neg hb).trans (if_pos hzero)))))
  | div =>
    by_cases ha : a.isConstant 0 = true
    · exact .inr (.inr (.inl (if_pos ha)))
    · exact .inl ((if_neg ha).trans (if_pos (h.resolve_left ha)))
  | atan2 => exact absurd h id

theorem simplified_eq_or (o : BinaryOp) (a b : Expr) :
    (∃ v, o.simplified a b = const v) ∨ ¬ (a.IsConst ∧ b.IsConst) ∧ o.simplified a b = o.reduced a b := by
  unfold simplified
  split
  next v w => exact .inl ⟨_, rfl⟩
  next hconst =>
    refine .inr ⟨?_, rfl⟩
    rintro ⟨ha, hb⟩
    obtain ⟨v, rfl⟩ := ha.eq_const
    obtain ⟨w, rfl⟩ := hb.eq_const
    exact hconst v w rfl rfl

theorem normal_simplified (o : BinaryOp) {a b : Expr} (ha : a.Normal) (hb : b.Normal) :
    (o.simplified a b).Normal := by
  rcases o.simplified_eq_or a b with ⟨v, h⟩ | ⟨hconst, h⟩
  · rw [h]
    exact normal_leaf rfl
  · rw [h]
    -- a decided operation gives way to something normal, another one stays as it is
    by_cases hdecided : o.Decided a b
    · rcases reduced_of_decided hdecided with h | h | h | h
      · rwa [h]
      · rwa [h]
      · rw [h]
        exact normal_leaf rfl
      · rw [h]
        exact UnaryOp.normal_simplified .negate hb
    · rw [reduced_of_not_decided hdecided]
      refine normal_iff.mpr ⟨?_, List.forall_mem_cons.mpr ⟨ha, List.forall_mem_singleton.mpr hb⟩⟩
      intro hredex
      cases hredex with
      | fold _ hall => exact hconst ⟨hall a (by simp [operands]), hall b (by simp [operands])⟩
      | decided h => exact hdecided h

theorem simplified_of_not_redex {o : BinaryOp} {a b : Expr} (h : ¬ (binary o a b).Redex) :
    o.simplified a b = binary o a b := by
  have hreduced : o.reduced a b = binary o a b :=
    reduced_of_not_decided fun hdecided => h (.decided hdecided)
  unfold simplified
  split
  next v w =>
    have hfold : (binary o (const v) (const w)).Redex := by
      refine .fold (List.cons_ne_nil _ _) (List.forall_mem_cons.mpr ⟨rfl, ?_⟩)
      exact List.forall_mem_singleton.mpr rfl
    exact absurd hfold h
  next => exact hreduced

end BinaryOp

namespace VariadicOp

theorem mapM_constant?_eq_some_iff {args : List Expr} {vs : List Float} :
    args.mapM constant? = some vs ↔ args = vs.map const := by
  induction args generalizing vs with
  | nil => cases vs <;> simp
  | cons a args ih =>
    rw [List.mapM_cons]
    constructor
    · intro h
      obtain ⟨v, hv, h⟩ := Option.bind_eq_some_iff.mp h
      obtain ⟨ws, hws, h⟩ := Option.bind_eq_some_iff.mp h
      rw [← Option.some.inj h, List.map_cons, ← ih.mp hws, constant?_eq_some_iff.mp hv]
    · intro h
      cases vs with
      | nil => cases h
      | cons v vs =>
        obtain ⟨rfl, hargs⟩ := List.cons.inj h
        rw [ih.mpr hargs]
        rfl

theorem exists_consts {args : List Expr} (h : ∀ a ∈ args, a.IsConst) :
    ∃ vs : List Float, args = vs.map const := by
  induction args with
  | nil => exact ⟨[], rfl⟩
  | cons a args ih =>
    obtain ⟨ha, hargs⟩ := List.forall_mem_cons.mp h
    obtain ⟨v, rfl⟩ := ha.eq_const
    obtain ⟨vs, rfl⟩ := ih hargs
    exact ⟨v :: vs, rfl⟩

theorem simplified_eq_or (o : VariadicOp) (args : List Expr) :
    (∃ v, o.simplified args = const v) ∨
      (¬ (variadic o args).Redex ∧ o.simplified args = variadic o args) := by
  unfold simplified
  split
  next v vs _ => exact .inl ⟨_, rfl⟩
  next hfold =>
    refine .inr ⟨?_, rfl⟩
    intro h
    cases h with
    | fold hne hall =>
      obtain ⟨vs, hvs⟩ := exists_consts hall
      obtain ⟨v, vs, rfl⟩ : ∃ v ws, vs = v :: ws :=
        List.exists_cons_of_ne_nil fun hnil => hne (by rw [hvs, hnil]; rfl)
      exact hfold v vs (mapM_constant?_eq_some_iff.mpr hvs)

theorem normal_simplified (o : VariadicOp) {args : List Expr} (h : ∀ a ∈ args, a.Normal) :
    (o.simplified args).Normal := by
  rcases o.simplified_eq_or args with ⟨v, hv⟩ | ⟨hredex, hself⟩
  · rw [hv]
    exact normal_leaf rfl
  · rw [hself]
    exact normal_iff.mpr ⟨hredex, h⟩

theorem simplified_of_not_redex {o : VariadicOp} {args : List Expr} (h : ¬ (variadic o args).Redex) :
    o.simplified args = variadic o args := by
  unfold simplified
  split
  next v vs hvs =>
    have hargs : args = const v :: vs.map const := mapM_constant?_eq_some_iff.mp hvs
    have hfold : (variadic o args).Redex := by
      rw [hargs]
      refine .fold (List.cons_ne_nil _ _) (List.forall_mem_cons.mpr ⟨rfl, ?_⟩)
      exact List.forall_mem_map.mpr fun w _ => rfl
    exact absurd hfold h
  next => rfl

end VariadicOp

namespace Expr

theorem normal_simplify (e : Expr) : e.simplify.Normal := by
  induction e with
  | const v => exact normal_leaf rfl
  | var v => exact normal_leaf rfl
  | unary o a ih => exact o.normal_simplified ih
  | binary o a b iha ihb => exact o.normal_simplified iha ihb
  | variadic o args ih =>
    have hargs : ∀ a ∈ args.map simplify, a.Normal := List.forall_mem_map.mpr ih
    rw [simplify_variadic]
    exact o.normal_simplified hargs

theorem simplify_of_normal {e : Expr} (h : e.Normal) : e.simplify = e := by
  induction e with
  | const v => rfl
  | var v => rfl
  | unary o a ih =>
    have ha : a.simplify = a := ih (h.operand (List.mem_singleton_self a))
    rw [simplify_unary, ha, UnaryOp.simplified_of_not_redex h.not_redex]
  | binary o a b iha ihb =>
    have ha : a.simplify = a := iha (h.operand (by simp [operands]))
    have hb : b.simplify = b := ihb (h.operand (by simp [operands]))
    rw [simplify_binary, ha, hb, BinaryOp.simplified_of_not_redex h.not_redex]
  | variadic o args ih =>
    have hargs : args.map simplify = args :=
      (List.map_congr_left fun a ha => ih a ha (h.operand ha)).trans (List.map_id args)
    rw [simplify_variadic, hargs, VariadicOp.simplified_of_not_redex h.not_redex]

theorem simplify_normal_form (e : Expr) :
    (∀ a ∈ e.simplify.postorder, ¬ a.Redex) ∧ e.simplify.simplify = e.simplify :=
  ⟨normal_simplify e, simplify_of_normal (normal_simplify e)⟩

example : (sub (const 0) (negate (var .x))).simplify = var .x := by decide +kernel

end Expr
end Trivariate
