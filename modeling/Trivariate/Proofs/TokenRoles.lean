import Trivariate.Proofs.ExprSpelling
import Trivariate.Reading.Role

/-! What the tokens of an expression stand for under a catalog, and which tokens may stand for it. -/

namespace Trivariate

def Expr.LabeledBy : Expr → Token → Prop
  | const v, t => ∃ s, t = .number s ∧ literal? s = some v
  | var v, t => t = .name v.name
  | unary o _, t => t = (Op.unary o).token
  | binary o _ _, t => t = (Op.binary o).token
  | variadic o _, t => t = (Op.variadic o).token

theorem Expr.labeledBy_of_op? {e : Expr} {o : Op} (h : e.op? = some o) (t : Token) :
    e.LabeledBy t ↔ t = o.token := by
  cases e <;> simp only [op?, reduceCtorEq, Option.some.injEq] at h <;> subst h <;> rfl

theorem Token.Shape.eq_of_text {t u : Token} (ht : t.Shape) (hu : u.Shape) (h : t.text = u.text) :
    t = u := by
  obtain ⟨c, part, ht⟩ := ht
  obtain ⟨c', part', hu⟩ := hu
  obtain ⟨rfl, rfl⟩ : c = c' ∧ part = part' := by
    rw [← List.cons_eq_cons, ← ht.toList_text, ← hu.toList_text, h]
  have hends : ∀ v : Token, v.EndsBefore [] := fun v d hd => by simp at hd
  have hscan := Scan.lexeme_of_formed ht (hends t)
  rw [Scan.lexeme_of_formed hu (hends u)] at hscan
  exact (Lexeme.token.inj (congrArg Prod.fst hscan)).symm

namespace Role

theorem ofWord_eq_operand {c : Catalog} {word : String} {e : Expr} (h : ofWord c word = .operand e) :
    ∃ v : Var, e = .var v ∧ v.name = word := by
  unfold ofWord at h
  split at h
  next v hv => exact ⟨v, (Role.operand.inj h).symm, Var.ofName?_eq_some_iff.mp hv⟩
  next =>
    split at h <;> cases h

theorem ofWord_eq_operation {c : Catalog} {word : String} {o : Op}
    (h : ofWord c word = .operation o) : o ∈ c.ops ∧ o.symbol = word := by
  unfold ofWord at h
  split at h
  next => cases h
  next =>
    split at h
    next p hp => exact Role.operation.inj h ▸ Catalog.lookup?_eq_some_iff.mp hp
    next => cases h

theorem ofNumber_eq_operand {s : String} {e : Expr} (h : ofNumber s = .operand e) :
    ∃ v, e = .const v ∧ literal? s = some v := by
  unfold ofNumber at h
  split at h
  next v hv => exact ⟨v, (Role.operand.inj h).symm, hv⟩
  next => cases h

end Role

namespace Token

theorem role_name_var (c : Catalog) (v : Var) : (name v.name).role c = .operand (.var v) := by
  rw [role, Role.ofWord, Var.ofName?_eq_some_iff.mpr rfl]

theorem role_number {c : Catalog} {s : String} {v : Float} (h : literal? s = some v) :
    (number s).role c = .operand (.const v) := by
  rw [role, Role.ofNumber, h]

theorem role_token {c : Catalog} {o : Op} (h : o ∈ c.ops) : o.token.role c = .operation o := by
  have hword : o.token.role c = Role.ofWord c o.symbol := by
    rcases o with o | o | o <;> cases o <;> rfl
  have hvar : Var.ofName? o.symbol = none := by
    rcases o with o | o | o <;> cases o <;> rfl
  rw [hword, Role.ofWord, hvar, Catalog.lookup?_symbol h]

theorem role_of_labeledBy {c : Catalog} {t : Token} {e : Expr} (he : e.op? = none)
    (h : e.LabeledBy t) : t.role c = .operand e := by
  cases e with
  | const v =>
    obtain ⟨s, rfl, hs⟩ := h
    exact role_number hs
  | var v =>
    obtain rfl := h
    exact role_name_var c v
  | unary | binary | variadic => cases he

theorem ofNumber_ne_operation (s : String) (o : Op) : Role.ofNumber s ≠ .operation o := by
  unfold Role.ofNumber
  split <;> exact Role.noConfusion

variable {c : Catalog} {t : Token}

theorem role_word (c : Catalog) (t : Token) :
    t.role c = Role.ofWord c t.text ∨ (∃ s, t = .number s) ∨ t = .opening ∨ t = .closing := by
  cases t with
  | number s => exact .inr (.inl ⟨s, rfl⟩)
  | symbol s => exact .inl rfl
  | name s => exact .inl rfl
  | opening => exact .inr (.inr (.inl rfl))
  | closing => exact .inr (.inr (.inr rfl))

theorem labeledBy_of_role {e : Expr} (ht : t.Shape) (h : t.role c = .operand e) :
    e.op? = none ∧ e.LabeledBy t := by
  rcases role_word c t with hword | ⟨s, rfl⟩ | rfl | rfl
  · obtain ⟨v, rfl, hv⟩ := Role.ofWord_eq_operand (hword.symm.trans h)
    exact ⟨rfl, ht.eq_of_text v.shape_token hv.symm⟩
  · obtain ⟨v, rfl, hv⟩ := Role.ofNumber_eq_operand h
    exact ⟨rfl, s, rfl, hv⟩
  · cases h
  · cases h

theorem eq_token_of_role {o : Op} (ht : t.Shape) (h : t.role c = .operation o) :
    o ∈ c.ops ∧ t = o.token := by
  rcases role_word c t with hword | ⟨s, rfl⟩ | rfl | rfl
  · obtain ⟨hc, ho⟩ := Role.ofWord_eq_operation (hword.symm.trans h)
    exact ⟨hc, ht.eq_of_text o.shape_token ((Op.text_token o).trans ho).symm⟩
  · exact absurd h (ofNumber_ne_operation s o)
  · cases h
  · cases h

end Token
end Trivariate
