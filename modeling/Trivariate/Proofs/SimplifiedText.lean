import Trivariate.Proofs.NormalForm
import Trivariate.Proofs.ParallelStacks
import Trivariate.Session.Basic

/-! The text of a simplified expression. Simplification stays within the catalog and the depth of what
it is given, but the value of an operation on constants need not be finite, and then the text does not
read back. -/

namespace Trivariate

open Trivariate.Expr

section Kept

/-! What a constant has, and what goes over to the operands of a node, the rules of simplification
keep. -/

variable {P : Expr → Prop} (hconst : ∀ v, P (const v))
  (hoperand : ∀ {e a : Expr}, P e → a ∈ e.operands → P a)
include hconst hoperand

theorem UnaryOp.simplified_keeps (o : UnaryOp) {a : Expr} (h : P (unary o a)) : P (o.simplified a) := by
  rcases o.simplified_eq_or a with ⟨v, hv⟩ | ⟨b, rfl, hb⟩ | ⟨-, hself⟩
  · rw [hv]
    exact hconst v
  · rw [hb]
    exact hoperand (hoperand h (List.mem_singleton_self _)) (List.mem_singleton_self b)
  · rwa [hself]

theorem BinaryOp.simplified_keeps
    (hnegate : ∀ {o : BinaryOp} {a b : Expr}, P (binary o a b) → P (negate b)) (o : BinaryOp)
    {a b : Expr} (h : P (binary o a b)) : P (o.simplified a b) := by
  rcases o.simplified_eq_or a b with ⟨v, hv⟩ | ⟨-, hreduced⟩
  · rw [hv]
    exact hconst v
  · rw [hreduced]
    by_cases hdecided : o.Decided a b
    · rcases reduced_of_decided hdecided with hr | hr | hr | hr
      · rw [hr]
        exact hoperand h (by simp [operands])
      · rw [hr]
        exact hoperand h (by simp [operands])
      · rw [hr]
        exact hconst 0
      · rw [hr]
        exact UnaryOp.simplified_keeps hconst hoperand .negate (hnegate h)
    · rwa [reduced_of_not_decided hdecided]

omit hoperand in
theorem VariadicOp.simplified_keeps (o : VariadicOp) {args : List Expr} (h : P (variadic o args)) :
    P (o.simplified args) := by
  rcases o.simplified_eq_or args with ⟨v, hv⟩ | ⟨-, hself⟩
  · rw [hv]
    exact hconst v
  · rwa [hself]

end Kept

namespace Expr

def Within (c : Catalog) (limit : Nat) (e : Expr) : Prop := e.Over c ∧ e.depth ≤ limit

namespace Within

variable {c : Catalog} {limit : Nat} {e a : Expr}

theorem leaf (h : e.op? = none) : e.Within c limit := by
  refine ⟨forall_mem_postorder.mpr ⟨by simp [h], ?_⟩, ?_⟩
  · rw [operands_leaf h]
    exact List.forall_mem_nil _
  · rw [depth_leaf h]
    exact Nat.zero_le _

theorem node_iff {o : Op} (h : e.op? = some o) :
    e.Within c limit ↔ o ∈ c.ops ∧ ∃ below, limit = below + 1 ∧ ∀ a ∈ e.operands, a.Within c below := by
  have hdepth : e.depth ≤ limit ↔ 1 ≤ limit ∧ ∀ a ∈ e.operands, a.depth + 1 ≤ limit := by
    rw [depth_node h, deeper_le_iff, List.forall_mem_map]
  constructor
  · rintro ⟨hover, hle⟩
    obtain ⟨hpos, hoperands⟩ := hdepth.mp hle
    refine ⟨hover.op h, limit - 1, by omega, ?_⟩
    intro a ha
    have hbelow := hoperands a ha
    exact ⟨hover.operand ha, by omega⟩
  · rintro ⟨hc, below, rfl, hoperands⟩
    refine ⟨forall_mem_postorder.mpr ⟨?_, fun a ha => (hoperands a ha).1⟩, hdepth.mpr ⟨by omega, ?_⟩⟩
    · intro p hp
      obtain rfl : o = p := Option.some.inj (h.symm.trans hp)
      exact hc
    · intro a ha
      have hbelow := (hoperands a ha).2
      omega

theorem operand (h : e.Within c limit) (ha : a ∈ e.operands) : a.Within c limit :=
  ⟨h.1.operand ha, (depth_lt_of_mem_operands ha).le.trans h.2⟩

theorem negate {o : BinaryOp} {b : Expr} (h : (binary o a b).Within c limit) :
    (Expr.negate b).Within c limit := by
  obtain ⟨-, below, rfl, hoperands⟩ := (node_iff rfl).mp h
  have hc : Op.unary .negate ∈ c.ops := List.mem_append_left _ (by decide)
  have hb : b.Within c below := hoperands b (by simp [operands])
  exact (node_iff rfl).mpr ⟨hc, below, rfl, List.forall_mem_singleton.mpr hb⟩

theorem of_operands {o : Op} {e' : Expr} (h : e.Within c limit) (ho : e.op? = some o)
    (ho' : e'.op? = some o) (hoperands : ∀ below, (∀ a ∈ e.operands, a.Within c below) →
      ∀ a ∈ e'.operands, a.Within c below) : e'.Within c limit := by
  obtain ⟨hc, below, rfl, hall⟩ := (node_iff ho).mp h
  exact (node_iff ho').mpr ⟨hc, below, rfl, hoperands below hall⟩

end Within

theorem within_simplify {c : Catalog} {limit : Nat} {e : Expr} (h : e.Within c limit) :
    e.simplify.Within c limit := by
  induction e generalizing limit with
  | const v => exact h
  | var v => exact h
  | unary o a ih =>
    have hnode : (unary o a.simplify).Within c limit := by
      refine h.of_operands rfl rfl fun below hall => ?_
      exact List.forall_mem_singleton.mpr (ih (hall a (List.mem_singleton_self a)))
    exact o.simplified_keeps (fun v => .leaf rfl) Within.operand hnode
  | binary o a b iha ihb =>
    have hnode : (binary o a.simplify b.simplify).Within c limit := by
      refine h.of_operands rfl rfl fun below hall => List.forall_mem_cons.mpr ⟨?_, ?_⟩
      · exact iha (hall a (by simp [operands]))
      · exact List.forall_mem_singleton.mpr (ihb (hall b (by simp [operands])))
    exact o.simplified_keeps (fun v => .leaf rfl) Within.operand Within.negate hnode
  | variadic o args ih =>
    have hnode : (variadic o (args.map simplify)).Within c limit := by
      refine h.of_operands rfl rfl fun below hall => List.forall_mem_map.mpr fun a ha => ?_
      exact ih a ha (hall a ha)
    rw [simplify_variadic]
    exact o.simplified_keeps (fun v => .leaf rfl) hnode

end Expr

namespace Reading

theorem parse_of_within {set : Settings} {style : Style} (hs : style.form = .bracketed) {e : Expr}
    (h : e.Within set.catalog set.limit) (hf : e.Finite) : parse set (e.text style) = .ok e := by
  have htokens : (scan (e.text style)).map Step.lexeme = (e.tokens style).map Lexeme.token :=
    Expr.lexemes_text style hf
  have hreads : Reads set (e.tokens style) [e] := Reads.tokens hs h.1 hf
  have hparse : parse set (e.text style) = _ := snd_readBracketed _ _
  rw [hparse, (hreads _ htokens {}).1 (List.forall_mem_singleton.mpr h.2)]
  rfl

end Reading

theorem Expr.reread_bracketed {style : Style} (hs : style.form = .bracketed) (e : Expr) (c : Catalog) :
    e.reread style c = parse { catalog := c } (e.text style) := by
  rw [reread, hs]
  rfl

/-- The text of a simplified expression reads back to it if and only if simplification made no constant
that is infinite or no number. -/
theorem reread_simplify_iff {c : Catalog} {source : String} {e : Expr}
    (h : parse { catalog := c } source = .ok e) {style : Style} (hs : style.form = .bracketed) :
    e.simplify.reread style c = .ok e.simplify ↔ e.simplify.Finite := by
  have hallowed := Reading.allows_of_parse h
  have hwithin := within_simplify ⟨hallowed.ops, hallowed.depth_le⟩
  rw [reread_bracketed hs]
  constructor
  · exact fun hread => (Reading.allows_of_parse hread).constants
  · exact Reading.parse_of_within hs hwithin

theorem reread_simplify_fraction :
    parse { catalog := .standard } "(+ (/ 6 4) (* x 1))" =
      .ok (.add (.div (.const 6) (.const 4)) (.mul (.var .x) (.const 1))) ∧
    (Expr.add (.const 1.5) (.var .x)).reread .trailing .standard =
      .ok (.add (.const 1.5) (.var .x)) := by
  have hread : parse { catalog := .standard } "(+ (/ 6 4) (* x 1))" =
      .ok (.add (.div (.const 6) (.const 4)) (.mul (.var .x) (.const 1))) := by decide +kernel
  have hsimplified : (Expr.add (.div (.const 6) (.const 4)) (.mul (.var .x) (.const 1))).simplify =
      .add (.const 1.5) (.var .x) := by decide +kernel
  have hback := (reread_simplify_iff hread (show Style.trailing.form = .bracketed from rfl)).mpr
  rw [hsimplified] at hback
  exact ⟨hread, hback (by decide +kernel)⟩

/-- A quotient by zero becomes an infinite constant, whose text is an unknown name. -/
theorem reread_simplify_infinite :
    parse { catalog := .standard } "(/ 1 0)" = .ok (.div (.const 1) (.const 0)) ∧
    (Expr.div (.const 1) (.const 0)).simplify.text .leading = "inf" ∧
    (Expr.div (.const 1) (.const 0)).simplify.reread .leading .standard =
      .error (.unknownToken "inf" 1) := by
  decide +kernel

end Trivariate
