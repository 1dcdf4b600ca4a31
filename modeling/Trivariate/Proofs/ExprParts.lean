import Trivariate.Binary64.Rounding
import Trivariate.Expr.Measure
import Trivariate.Operation.Catalog

/-! Induction over expressions, and properties that hold of all parts of one. A statement about every
node of a tree speaks of the members of its postorder. -/

namespace Trivariate.Expr

@[elab_as_elim, induction_eliminator]
theorem induct {motive : Expr → Prop} (const : ∀ v, motive (const v)) (var : ∀ v, motive (var v))
    (unary : ∀ o a, motive a → motive (unary o a))
    (binary : ∀ o a b, motive a → motive b → motive (binary o a b))
    (variadic : ∀ o args, (∀ a ∈ args, motive a) → motive (variadic o args)) (e : Expr) :
    motive e :=
  Expr.rec const var unary binary variadic
    (fun _ h => absurd h List.not_mem_nil)
    (fun _ _ ha has _ h => (List.mem_cons.mp h).elim (fun he => he ▸ ha) (has _)) e

/-- The same induction where one argument serves all operations. -/
@[elab_as_elim]
theorem induct_node {motive : Expr → Prop} (const : ∀ v, motive (.const v))
    (var : ∀ v, motive (.var v))
    (node : ∀ o e, e.op? = some o → (∀ a ∈ e.operands, motive a) → motive e) (e : Expr) :
    motive e := by
  induction e with
  | const v => exact const v
  | var v => exact var v
  | unary o a ih => exact node (.unary o) _ rfl (by simpa [operands] using ih)
  | binary o a b iha ihb => exact node (.binary o) _ rfl (by simpa [operands] using ⟨iha, ihb⟩)
  | variadic o args ih => exact node (.variadic o) _ rfl ih

theorem induct_operands {motive : Expr → Prop} (node : ∀ e, (∀ a ∈ e.operands, motive a) → motive e)
    (e : Expr) : motive e := by
  induction e using induct_node with
  | const v => exact node _ fun _ ha => absurd ha List.not_mem_nil
  | var v => exact node _ fun _ ha => absurd ha List.not_mem_nil
  | node o e _ ih => exact node e ih

theorem eq_of_op?_of_operands {o : Op} {a b : Expr} (ha : a.op? = some o) (hb : b.op? = some o)
    (h : a.operands = b.operands) : a = b := by
  have hna := node?_eq_some_iff.mpr ⟨ha, h⟩
  have hnb := node?_eq_some_iff.mpr ⟨hb, rfl⟩
  exact Option.some.inj (hna.symm.trans hnb)

theorem accepts_operands {o : Op} {e : Expr} (h : e.op? = some o) :
    o.accepts e.operands.length = true := by
  rw [← isSome_node?, node?_eq_some_iff.mpr ⟨h, rfl⟩]
  rfl

theorem arity_of_fixed {o : Op} {e : Expr} {n : Nat} (h : e.op? = some o) (hn : o.arity = .fixed n) :
    o.arity = .fixed e.operands.length := by
  have haccepts : (Arity.fixed n).accepts e.operands.length = true := hn ▸ accepts_operands h
  rw [hn, beq_iff_eq.mp haccepts]

theorem postorder_eq (e : Expr) : e.postorder = e.operands.flatMap postorder ++ [e] := by
  cases e <;> simp [postorder, postorderAll_eq_flatMap, operands]

theorem operands_leaf {e : Expr} (h : e.op? = none) : e.operands = [] := by
  cases e <;> first | rfl | simp [op?] at h

theorem depth_leaf {e : Expr} (h : e.op? = none) : e.depth = 0 := by
  cases e <;> first | rfl | simp [op?] at h

theorem mem_postorder {a e : Expr} : a ∈ e.postorder ↔ a = e ∨ ∃ b ∈ e.operands, a ∈ b.postorder := by
  rw [postorder_eq, List.mem_append, List.mem_flatMap, List.mem_singleton, or_comm]

theorem mem_postorder_self (e : Expr) : e ∈ e.postorder := mem_postorder.mpr (.inl rfl)

theorem mem_postorder_of_mem_operands {a b e : Expr} (hb : b ∈ e.operands) (ha : a ∈ b.postorder) :
    a ∈ e.postorder := mem_postorder.mpr (.inr ⟨b, hb, ha⟩)

theorem forall_mem_postorder {p : Expr → Prop} {e : Expr} :
    (∀ a ∈ e.postorder, p a) ↔ p e ∧ ∀ b ∈ e.operands, ∀ a ∈ b.postorder, p a := by
  constructor
  · intro h
    exact ⟨h e e.mem_postorder_self, fun b hb a ha => h a (mem_postorder_of_mem_operands hb ha)⟩
  · rintro ⟨hroot, hoperands⟩ a ha
    rcases mem_postorder.mp ha with rfl | ⟨b, hb, ha⟩
    · exact hroot
    · exact hoperands b hb a ha

def Over (c : Catalog) (e : Expr) : Prop := ∀ a ∈ e.postorder, ∀ o ∈ a.op?, o ∈ c.ops

def Fixed (e : Expr) : Prop := ∀ a ∈ e.postorder, ∀ o ∈ a.op?, o.arity = .fixed a.operands.length

def Finite (e : Expr) : Prop := ∀ a ∈ e.postorder, ∀ v ∈ a.constant?, Binary64.isFinite v = true

instance (c : Catalog) (e : Expr) : Decidable (e.Over c) :=
  inferInstanceAs (Decidable (∀ a ∈ e.postorder, ∀ o ∈ a.op?, o ∈ c.ops))

instance (e : Expr) : Decidable e.Fixed :=
  inferInstanceAs (Decidable (∀ a ∈ e.postorder, ∀ o ∈ a.op?, o.arity = .fixed a.operands.length))

instance (e : Expr) : Decidable e.Finite :=
  inferInstanceAs (Decidable (∀ a ∈ e.postorder, ∀ v ∈ a.constant?, Binary64.isFinite v = true))

theorem Over.op {c : Catalog} {e : Expr} {o : Op} (h : e.Over c) (ho : e.op? = some o) : o ∈ c.ops :=
  h e e.mem_postorder_self o ho

theorem Over.operand {c : Catalog} {e a : Expr} (h : e.Over c) (ha : a ∈ e.operands) : a.Over c :=
  fun b hb => h b (mem_postorder_of_mem_operands ha hb)

theorem Fixed.operand {e a : Expr} (h : e.Fixed) (ha : a ∈ e.operands) : a.Fixed :=
  fun b hb => h b (mem_postorder_of_mem_operands ha hb)

theorem Finite.const {v : Float} (h : (const v).Finite) : Binary64.isFinite v = true :=
  h _ (mem_postorder_self _) v rfl

theorem Finite.operand {e a : Expr} (h : e.Finite) (ha : a ∈ e.operands) : a.Finite :=
  fun b hb => h b (mem_postorder_of_mem_operands ha hb)

theorem deeper_le_iff {ds : List Nat} {limit : Nat} :
    deeper ds ≤ limit ↔ 1 ≤ limit ∧ ∀ d ∈ ds, d + 1 ≤ limit := by
  unfold deeper
  induction ds with
  | nil => simp
  | cons d ds ih =>
    have hmax : 1 + max d (ds.foldr max 0) ≤ limit ↔ d + 1 ≤ limit ∧ 1 + ds.foldr max 0 ≤ limit := by
      omega
    rw [List.foldr_cons, hmax, ih, List.forall_mem_cons, and_left_comm]

theorem depth_lt_of_mem_operands {e a : Expr} (h : a ∈ e.operands) : a.depth < e.depth := by
  cases ho : e.op? with
  | none =>
    rw [operands_leaf ho] at h
    exact absurd h List.not_mem_nil
  | some o =>
    have hd := depth_node ho
    exact (deeper_le_iff.mp (Nat.le_of_eq hd.symm)).2 _ (List.mem_map_of_mem h)

theorem depth_le_of_mem_postorder {e a : Expr} (h : a ∈ e.postorder) : a.depth ≤ e.depth := by
  induction e using induct_operands with
  | node e ih =>
    rcases mem_postorder.mp h with rfl | ⟨b, hb, ha⟩
    · exact Nat.le_refl _
    · exact Nat.le_trans (ih b hb ha) (Nat.le_of_lt (depth_lt_of_mem_operands hb))

end Trivariate.Expr
