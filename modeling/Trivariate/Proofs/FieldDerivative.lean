import Mathlib.Tactic.Ring
import Trivariate.Binary64.Rounding
import Trivariate.Expr.Derivative
import Trivariate.Proofs.ExprParts
import Trivariate.Proofs.RationalFunctions

/-! The value of a derivative is the derivative of the value, in every field of characteristic zero
with a derivation. Arithmetic is exact there; the other functions are whatever the field has for
them, as long as the derivation treats them as calculus does. -/

namespace Trivariate

/-- What an expression means in a field, apart from arithmetic. -/
structure FieldMeaning (K : Type*) where
  num : Float → K
  var : Var → K
  atan : K → K
  atan2 : K → K → K
  sinh : K → K
  cosh : K → K
  /-- The length of a list that is not empty. -/
  norm : List K → K

namespace FieldMeaning

variable {K : Type*} [Field K] (m : FieldMeaning K)

def squares (us : List K) : K := (us.map fun u => u * u).sum

def meaning : Meaning K where
  const := m.num
  var := m.var
  unary
    | .negate, u => -u
    | .atan, u => m.atan u
    | .sinh, u => m.sinh u
    | .cosh, u => m.cosh u
  binary
    | .add, u, w => u + w
    | .sub, u, w => u - w
    | .mul, u, w => u * w
    | .div, u, w => u / w
    | .atan2, u, w => m.atan2 u w
  variadic
    | .sum, us => us.sum
    | .avg, us => us.sum / us.length
    | .sumsq, us => squares us
    | .length, [] => 0
    | .length, us => m.norm us

def value (e : Expr) : K := e.interpret m.meaning

def divisor? : Expr → Option K
  | .div _ b => some (m.value b)
  | .avg args => some args.length
  | _ => none

def Defined (e : Expr) : Prop := ∀ a ∈ e.postorder, ∀ d ∈ m.divisor? a, d ≠ 0

def Regular : Expr → Prop
  | .atan a => 1 + m.value a * m.value a ≠ 0
  | .atan2 a b => m.value a * m.value a + m.value b * m.value b ≠ 0
  | .length (a :: args) => m.value (.length (a :: args)) ≠ 0
  | _ => True

/-- The meaning of the root obeys the law of calculus for it, and a number is what it stands for. -/
def Lawful (D : Derivation ℤ K K) : Expr → Prop
  | .const c => D (m.num c) = 0
  | .atan a => D (m.atan (m.value a)) = D (m.value a) / (1 + m.value a * m.value a)
  | .atan2 a b => D (m.atan2 (m.value a) (m.value b)) =
      (D (m.value a) * m.value b - m.value a * D (m.value b)) /
        (m.value a * m.value a + m.value b * m.value b)
  | .sinh a => D (m.sinh (m.value a)) = m.cosh (m.value a) * D (m.value a)
  | .cosh a => D (m.cosh (m.value a)) = m.sinh (m.value a) * D (m.value a)
  | .avg args => m.num args.length.toFloat = args.length
  | .length (a :: args) =>
      m.value (.length (a :: args)) * m.value (.length (a :: args)) = m.value (.sumsq (a :: args))
  | _ => True

section Value

variable (a b : Expr) (args : List Expr)

@[simp] theorem value_const (c : Float) : m.value (.const c) = m.num c := rfl

@[simp] theorem value_var (v : Var) : m.value (.var v) = m.var v := rfl

@[simp] theorem value_negate : m.value (.negate a) = -m.value a := rfl

@[simp] theorem value_atan : m.value (.atan a) = m.atan (m.value a) := rfl

@[simp] theorem value_sinh : m.value (.sinh a) = m.sinh (m.value a) := rfl

@[simp] theorem value_cosh : m.value (.cosh a) = m.cosh (m.value a) := rfl

@[simp] theorem value_add : m.value (.add a b) = m.value a + m.value b := rfl

@[simp] theorem value_sub : m.value (.sub a b) = m.value a - m.value b := rfl

@[simp] theorem value_mul : m.value (.mul a b) = m.value a * m.value b := rfl

@[simp] theorem value_div : m.value (.div a b) = m.value a / m.value b := rfl

@[simp] theorem value_atan2 : m.value (.atan2 a b) = m.atan2 (m.value a) (m.value b) := rfl

@[simp] theorem value_sum : m.value (.sum args) = (args.map m.value).sum :=
  Expr.interpret_variadic _ _ _

@[simp] theorem value_avg : m.value (.avg args) = (args.map m.value).sum / args.length := by
  have h : m.value (.avg args) = (args.map m.value).sum / (args.map m.value).length :=
    Expr.interpret_variadic _ _ _
  rw [h, List.length_map]

@[simp] theorem value_sumsq : m.value (.sumsq args) = squares (args.map m.value) :=
  Expr.interpret_variadic _ _ _

@[simp] theorem value_length_nil : m.value (.length []) = 0 := rfl

end Value

section Defined

variable {m} {a b : Expr}

theorem defined_iff {e : Expr} :
    m.Defined e ↔ (∀ d ∈ m.divisor? e, d ≠ 0) ∧ ∀ a ∈ e.operands, m.Defined a :=
  Expr.forall_mem_postorder

@[simp] theorem defined_const (c : Float) : m.Defined (.const c) := by
  rw [defined_iff]
  simp [divisor?, Expr.operands]

@[simp] theorem defined_var (v : Var) : m.Defined (.var v) := by
  rw [defined_iff]
  simp [divisor?, Expr.operands]

@[simp] theorem defined_unary {o : UnaryOp} : m.Defined (.unary o a) ↔ m.Defined a := by
  rw [defined_iff]
  simp [divisor?, Expr.operands]

@[simp] theorem defined_div :
    m.Defined (.div a b) ↔ m.value b ≠ 0 ∧ m.Defined a ∧ m.Defined b := by
  rw [defined_iff]
  simp [divisor?, Expr.operands]

@[simp] theorem defined_binary {o : BinaryOp} (ho : o ≠ .div) :
    m.Defined (.binary o a b) ↔ m.Defined a ∧ m.Defined b := by
  rw [defined_iff]
  cases o <;> simp [divisor?, Expr.operands] at ho ⊢

@[simp] theorem defined_avg {args : List Expr} :
    m.Defined (.avg args) ↔ (args.length : K) ≠ 0 ∧ ∀ a ∈ args, m.Defined a := by
  rw [defined_iff]
  simp [divisor?, Expr.operands]

@[simp] theorem defined_variadic {o : VariadicOp} {args : List Expr} (ho : o ≠ .avg) :
    m.Defined (.variadic o args) ↔ ∀ a ∈ args, m.Defined a := by
  rw [defined_iff]
  cases o <;> simp [divisor?, Expr.operands] at ho ⊢

end Defined

section Rules

variable {m} {D : Derivation ℤ K K}

theorem value_unary_derivative {o : UnaryOp} {a a' : Expr} (hone : m.num 1 = 1)
    (h : m.Lawful D (.unary o a)) (ha : m.value a' = D (m.value a)) :
    m.value (o.derivative a a') = D (m.value (.unary o a)) := by
  cases o with
  | negate =>
    have hneg : D (-m.value a) = -D (m.value a) := D.map_neg _
    simp only [UnaryOp.derivative, value_negate, ha, hneg]
  | atan =>
    have hlaw : D (m.atan (m.value a)) = D (m.value a) / (1 + m.value a * m.value a) := h
    simp only [UnaryOp.derivative, Expr.square, value_div, value_add, value_mul, value_const,
      value_atan, hone, ha, hlaw]
  | sinh =>
    have hlaw : D (m.sinh (m.value a)) = m.cosh (m.value a) * D (m.value a) := h
    simp only [UnaryOp.derivative, value_mul, value_cosh, value_sinh, ha, hlaw]
  | cosh =>
    have hlaw : D (m.cosh (m.value a)) = m.sinh (m.value a) * D (m.value a) := h
    simp only [UnaryOp.derivative, value_mul, value_cosh, value_sinh, ha, hlaw]

theorem value_binary_derivative {o : BinaryOp} {a b a' b' : Expr} (h : m.Lawful D (.binary o a b))
    (ha : m.value a' = D (m.value a)) (hb : m.value b' = D (m.value b)) :
    m.value (o.derivative a b a' b') = D (m.value (.binary o a b)) := by
  cases o with
  | add =>
    have hadd : D (m.value a + m.value b) = D (m.value a) + D (m.value b) := D.map_add _ _
    simp only [BinaryOp.derivative, value_add, ha, hb, hadd]
  | sub =>
    have hsub : D (m.value a - m.value b) = D (m.value a) - D (m.value b) := D.map_sub _ _
    simp only [BinaryOp.derivative, value_sub, ha, hb, hsub]
  | mul =>
    have hmul : D (m.value a * m.value b) = m.value a * D (m.value b) + D (m.value a) * m.value b := by
      rw [D.leibniz, smul_eq_mul, smul_eq_mul, mul_comm (m.value b)]
    simp only [BinaryOp.derivative, value_add, value_mul, ha, hb, hmul]
  | div =>
    have hdiv : D (m.value a / m.value b) =
        (D (m.value a) * m.value b - m.value a * D (m.value b)) / (m.value b * m.value b) := by
      rw [D.leibniz_div, smul_eq_mul, smul_eq_mul, smul_eq_mul, inv_pow, sq, mul_comm,
        ← div_eq_mul_inv, mul_comm (m.value b)]
    simp only [BinaryOp.derivative, Expr.crossDifference, Expr.square, value_div, value_sub,
      value_mul, ha, hb, hdiv]
  | atan2 =>
    have hlaw : D (m.atan2 (m.value a) (m.value b)) =
      (D (m.value a) * m.value b - m.value a * D (m.value b)) /
        (m.value a * m.value a + m.value b * m.value b) := h
    simp only [BinaryOp.derivative, Expr.crossDifference, Expr.square, value_div, value_sub,
      value_add, value_mul, value_atan2, ha, hb, hlaw]

theorem derivation_squares (D : Derivation ℤ K K) (us : List K) :
    D (squares us) = 2 * (us.map fun u => u * D u).sum := by
  induction us with
  | nil =>
    rw [squares, List.map_nil, List.map_nil, List.sum_nil, mul_zero]
    exact D.map_zero
  | cons u us ih =>
    have hsquare : D (u * u) = 2 * (u * D u) := by
      rw [D.leibniz, smul_eq_mul, two_mul]
    have hcons : squares (u :: us) = u * u + squares us := List.sum_cons
    rw [hcons, D.map_add, ih, hsquare, List.map_cons, List.sum_cons, mul_add]

theorem derivation_root [CharZero K] (D : Derivation ℤ K K) {s u : K} (hs : s ≠ 0) (h : s * s = u) :
    D u / (2 * s) = D s := by
  have htwice : D u = 2 * s * D s := by
    rw [← h, D.leibniz, smul_eq_mul, mul_assoc, two_mul]
  have hne : 2 * s ≠ 0 := mul_ne_zero two_ne_zero hs
  rw [htwice, mul_div_cancel_left₀ _ hne]

section Variadic

variable {f : Expr → Expr} {args : List Expr}

theorem map_value_derivatives (h : ∀ a ∈ args, m.value (f a) = D (m.value a)) :
    (args.map f).map m.value = (args.map m.value).map D := by
  rw [List.map_map, List.map_map]
  exact List.map_congr_left h

theorem value_sumsqDerivative (htwo : m.num 2 = 2) (h : ∀ a ∈ args, m.value (f a) = D (m.value a)) :
    m.value (sumsqDerivative args (args.map f)) = D (m.value (.sumsq args)) := by
  have hproducts : (List.zipWith Expr.mul args (args.map f)).map m.value =
      (args.map m.value).map fun u => u * D u := by
    rw [List.zipWith_map_right, List.zipWith_self, List.map_map, List.map_map]
    refine List.map_congr_left fun a ha => ?_
    have hmul : m.value (.mul a (f a)) = m.value a * m.value (f a) := rfl
    simp only [Function.comp_apply, hmul, h a ha]
  rw [sumsqDerivative, value_mul, value_const, htwo, value_sum, hproducts, value_sumsq,
    derivation_squares]

theorem value_variadic_derivative [CharZero K] {o : VariadicOp} (hzero : m.num 0 = 0)
    (htwo : m.num 2 = 2) (hlaw : m.Lawful D (.variadic o args)) (hregular : m.Regular (.variadic o args))
    (h : ∀ a ∈ args, m.value (f a) = D (m.value a)) :
    m.value (o.derivative args (args.map f)) = D (m.value (.variadic o args)) := by
  cases o with
  | sum => rw [VariadicOp.derivative, value_sum, value_sum, map_value_derivatives h, map_list_sum]
  | avg =>
    have hcount : m.num args.length.toFloat = args.length := hlaw
    have hconst : D (args.length : K) = 0 := D.map_natCast _
    rw [VariadicOp.derivative, value_div, value_sum, value_const, hcount, map_value_derivatives h,
      ← map_list_sum, value_avg, D.leibniz_div_const _ _ hconst, smul_eq_mul, div_eq_inv_mul]
  | sumsq => exact value_sumsqDerivative htwo h
  | length =>
    cases args with
    | nil =>
      rw [VariadicOp.derivative, value_const, hzero, value_length_nil, D.map_zero]
    | cons a args =>
      have hsum := value_sumsqDerivative htwo h
      have hquotient : m.value (VariadicOp.derivative .length (a :: args) ((a :: args).map f)) =
          m.value (sumsqDerivative (a :: args) ((a :: args).map f)) /
            (m.num 2 * m.value (.length (a :: args))) := rfl
      -- the rule for the length is that for the square of it, solved for the derivative
      rw [hquotient, hsum, htwo]
      exact derivation_root D hregular hlaw

end Variadic

end Rules

section Divisors

variable {m}

theorem defined_unary_derivative {o : UnaryOp} {a a' : Expr} (hone : m.num 1 = 1)
    (hregular : m.Regular (.unary o a)) (ha : m.Defined a) (ha' : m.Defined a') :
    m.Defined (o.derivative a a') := by
  cases o with
  | negate => exact defined_unary.mpr ha'
  | atan =>
    have hdivisor : m.value (.add (.const 1) a.square) ≠ 0 := by
      rw [value_add, value_const, hone]
      exact hregular
    refine defined_div.mpr ⟨hdivisor, ha', ?_⟩
    simp [Expr.square, ha]
  | sinh => simp [UnaryOp.derivative, ha, ha']
  | cosh => simp [UnaryOp.derivative, ha, ha']

theorem defined_binary_derivative {o : BinaryOp} {a b a' b' : Expr}
    (hregular : m.Regular (.binary o a b)) (h : m.Defined (.binary o a b)) (ha' : m.Defined a')
    (hb' : m.Defined b') : m.Defined (o.derivative a b a' b') := by
  obtain ⟨hroot, hoperands⟩ := defined_iff.mp h
  have ha : m.Defined a := hoperands a (List.mem_cons_self ..)
  have hb : m.Defined b := hoperands b (List.mem_cons_of_mem _ (List.mem_singleton_self b))
  have hcross : m.Defined (a.crossDifference b a' b') := by
    simp [Expr.crossDifference, ha, hb, ha', hb']
  cases o with
  | add => simp [BinaryOp.derivative, ha', hb']
  | sub => simp [BinaryOp.derivative, ha', hb']
  | mul => simp [BinaryOp.derivative, ha, hb, ha', hb']
  | div =>
    have hdivisor : m.value b ≠ 0 := hroot _ rfl
    refine defined_div.mpr ⟨mul_ne_zero hdivisor hdivisor, hcross, ?_⟩
    simp [Expr.square, hb]
  | atan2 =>
    refine defined_div.mpr ⟨hregular, hcross, ?_⟩
    simp [Expr.square, ha, hb]

theorem defined_sumsqDerivative {args args' : List Expr} (h : ∀ a ∈ args, m.Defined a)
    (h' : ∀ a ∈ args', m.Defined a) : m.Defined (sumsqDerivative args args') := by
  have hproducts : ∀ p ∈ List.zipWith Expr.mul args args', m.Defined p := by
    intro p hp
    rw [← List.map_uncurry_zip_eq_zipWith] at hp
    obtain ⟨⟨a, a'⟩, hpair, rfl⟩ := List.mem_map.mp hp
    have ha : m.Defined a := h a (List.of_mem_zip hpair).1
    have ha' : m.Defined a' := h' a' (List.of_mem_zip hpair).2
    exact (defined_binary (by decide)).mpr ⟨ha, ha'⟩
  have hsum : m.Defined (.sum (List.zipWith Expr.mul args args')) :=
    (defined_variadic (by decide)).mpr hproducts
  exact (defined_binary (by decide)).mpr ⟨defined_const 2, hsum⟩

theorem defined_variadic_derivative [CharZero K] {o : VariadicOp} {args args' : List Expr}
    {D : Derivation ℤ K K} (htwo : m.num 2 = 2) (hlaw : m.Lawful D (.variadic o args))
    (hregular : m.Regular (.variadic o args)) (h : m.Defined (.variadic o args))
    (h' : ∀ a ∈ args', m.Defined a) : m.Defined (o.derivative args args') := by
  obtain ⟨hroot, hoperands⟩ := defined_iff.mp h
  have hsum : m.Defined (.sum args') := (defined_variadic (by decide)).mpr h'
  cases o with
  | sum => exact hsum
  | avg =>
    have hcount : m.num args.length.toFloat = args.length := hlaw
    have hdivisor : m.value (.const args.length.toFloat) ≠ 0 := by
      rw [value_const, hcount]
      exact hroot _ rfl
    exact defined_div.mpr ⟨hdivisor, hsum, defined_const _⟩
  | sumsq => exact defined_sumsqDerivative hoperands h'
  | length =>
    cases args with
    | nil => exact defined_const 0
    | cons a args =>
      have hdivisor : m.value (.mul (.const 2) (.length (a :: args))) ≠ 0 := by
        rw [value_mul, value_const, htwo]
        exact mul_ne_zero two_ne_zero hregular
      refine defined_div.mpr ⟨hdivisor, defined_sumsqDerivative hoperands h', ?_⟩
      exact (defined_binary (by decide)).mpr ⟨defined_const 2, h⟩

end Divisors

/-- Where no divisor and no denominator of a rule is zero, a derivative has no zero divisor either,
and its value is the derivative of the value. The laws of the other functions are only asked for at
the arguments that the expression gives them. -/
theorem value_derivative {K : Type*} [Field K] [CharZero K] (m : FieldMeaning K)
    (D : Derivation ℤ K K) (v : Var) (hzero : m.num 0 = 0) (hone : m.num 1 = 1) (htwo : m.num 2 = 2)
    (hvar : ∀ w, D (m.var w) = if w = v then 1 else 0) (e : Expr)
    (hlawful : ∀ a ∈ e.postorder, m.Lawful D a) (hregular : ∀ a ∈ e.postorder, m.Regular a)
    (hdefined : m.Defined e) :
    m.Defined (e.derivative v) ∧ m.value (e.derivative v) = D (m.value e) := by
  induction e with
  | const c =>
    have hlaw : D (m.num c) = 0 := hlawful _ (Expr.mem_postorder_self _)
    exact ⟨defined_const 0, hzero.trans hlaw.symm⟩
  | var w =>
    rw [value_var, hvar w, Expr.derivative]
    by_cases hw : w = v
    · rw [if_pos hw, if_pos hw]
      exact ⟨defined_const 1, hone⟩
    · rw [if_neg hw, if_neg hw]
      exact ⟨defined_const 0, hzero⟩
  | unary o a ih =>
    obtain ⟨hlaw, hlaws⟩ := Expr.forall_mem_postorder.mp hlawful
    obtain ⟨hroot, hregulars⟩ := Expr.forall_mem_postorder.mp hregular
    obtain ⟨_, hdefineds⟩ := defined_iff.mp hdefined
    have hmem : a ∈ (Expr.unary o a).operands := List.mem_singleton_self a
    obtain ⟨hderived, hvalue⟩ := ih (hlaws a hmem) (hregulars a hmem) (hdefineds a hmem)
    exact ⟨defined_unary_derivative hone hroot (hdefineds a hmem) hderived,
      value_unary_derivative hone hlaw hvalue⟩
  | binary o a b iha ihb =>
    obtain ⟨hlaw, hlaws⟩ := Expr.forall_mem_postorder.mp hlawful
    obtain ⟨hroot, hregulars⟩ := Expr.forall_mem_postorder.mp hregular
    obtain ⟨_, hdefineds⟩ := defined_iff.mp hdefined
    have hleft : a ∈ (Expr.binary o a b).operands := List.mem_cons_self ..
    have hright : b ∈ (Expr.binary o a b).operands :=
      List.mem_cons_of_mem _ (List.mem_singleton_self b)
    obtain ⟨ha, hvaluea⟩ := iha (hlaws a hleft) (hregulars a hleft) (hdefineds a hleft)
    obtain ⟨hb, hvalueb⟩ := ihb (hlaws b hright) (hregulars b hright) (hdefineds b hright)
    exact ⟨defined_binary_derivative hroot hdefined ha hb,
      value_binary_derivative hlaw hvaluea hvalueb⟩
  | variadic o args ih =>
    obtain ⟨hlaw, hlaws⟩ := Expr.forall_mem_postorder.mp hlawful
    obtain ⟨hroot, hregulars⟩ := Expr.forall_mem_postorder.mp hregular
    obtain ⟨_, hdefineds⟩ := defined_iff.mp hdefined
    have hargs : ∀ a ∈ args, m.Defined (a.derivative v) ∧ m.value (a.derivative v) = D (m.value a) :=
      fun a ha => ih a ha (hlaws a ha) (hregulars a ha) (hdefineds a ha)
    have hderived : ∀ a' ∈ args.map (Expr.derivative v), m.Defined a' :=
      List.forall_mem_map.mpr fun a ha => (hargs a ha).1
    rw [Expr.derivative, Expr.derivativeAll_eq_map]
    exact ⟨defined_variadic_derivative htwo hlaw hroot hdefined hderived,
      value_variadic_derivative hzero htwo hlaw hroot fun a ha => (hargs a ha).2⟩

end FieldMeaning

namespace RationalFunction

def ofFloat (c : Float) : ℚ :=
  (if Binary64.isNegative c then -1 else 1) * Binary64.units (Binary64.magnitude c) /
    Binary64.unitsPerOne

/-- Variables are taken at the point `(x, 0, 1)`, where the other functions have these values. -/
noncomputable def meaning : FieldMeaning RationalFunction where
  num c := constant (ofFloat c)
  var
    | .x => x
    | .y => 0
    | .z => 1
  atan _ := 0
  atan2 _ _ := 0
  sinh _ := 0
  cosh _ := 1
  norm _ := 5 * x

theorem num_natCast {c : Float} {n : ℕ} (h : ofFloat c = n) : meaning.num c = n := by
  have hnum : meaning.num c = constant (ofFloat c) := rfl
  rw [hnum, h, map_natCast]

def sample : Expr :=
  .add (.div (.length [.mul (.const 3) (.var .x), .mul (.const 4) (.var .x)])
    (.avg [.var .x, .sinh (.var .y)])) (.atan2 (.var .y) (.var .z))

theorem lawful_sample : ∀ a ∈ sample.postorder, meaning.Lawful derivation a := by
  have hthree : meaning.num 3 = 3 := num_natCast (by decide +kernel)
  have hfour : meaning.num 4 = 4 := num_natCast (by decide +kernel)
  have hcount : meaning.num (2 : ℕ).toFloat = (2 : ℕ) := num_natCast (by decide +kernel)
  have hlength : 5 * x * (5 * x) = FieldMeaning.squares [meaning.num 3 * x, meaning.num 4 * x] := by
    rw [hthree, hfour]
    simp only [FieldMeaning.squares, List.map_cons, List.map_nil, List.sum_cons, List.sum_nil]
    ring
  have hsinh : derivation 0 = 1 * derivation 0 := (one_mul _).symm
  have hatan2 : derivation 0 = (derivation 0 * 1 - 0 * derivation 1) / (0 * 0 + 1 * 1) := by
    rw [derivation_zero, zero_mul, zero_mul, sub_zero, zero_div]
  simp only [sample, Expr.postorder, Expr.postorderAll, List.nil_append, List.append_nil,
    List.cons_append, List.forall_mem_cons, FieldMeaning.Lawful, true_and]
  exact ⟨derivation_constant _, derivation_constant _, hlength, hsinh, hcount, hatan2, List.forall_mem_nil _⟩

theorem regular_sample : ∀ a ∈ sample.postorder, meaning.Regular a := by
  have hlength : 5 * x ≠ 0 := mul_ne_zero (by norm_num) x_ne_zero
  have hatan2 : (0 * 0 + 1 * 1 : RationalFunction) ≠ 0 := by norm_num
  simp only [sample, Expr.postorder, Expr.postorderAll, List.nil_append, List.append_nil,
    List.cons_append, List.forall_mem_cons, FieldMeaning.Regular, true_and]
  exact ⟨hlength, hatan2, List.forall_mem_nil _⟩

theorem defined_sample : meaning.Defined sample := by
  have hcount : ((2 : ℕ) : RationalFunction) ≠ 0 := Nat.cast_ne_zero.mpr (by decide)
  have havg : (x + (0 + 0)) / ((2 : ℕ) : RationalFunction) ≠ 0 := by
    rw [add_zero, add_zero]
    exact div_ne_zero x_ne_zero hcount
  have hquotient : meaning.Defined (.div (.length [.mul (.const 3) (.var .x), .mul (.const 4) (.var .x)])
      (.avg [.var .x, .sinh (.var .y)])) := by
    refine FieldMeaning.defined_div.mpr ⟨havg, ?_, ?_⟩
    · simp
    · simp
  have hangle : meaning.Defined (.atan2 (.var .y) (.var .z)) := by simp
  exact (FieldMeaning.defined_binary (by decide)).mpr ⟨hquotient, hangle⟩

theorem derivation_var (w : Var) : derivation (meaning.var w) = if w = .x then 1 else 0 := by
  cases w with
  | x => exact derivation_x
  | y => exact derivation_zero
  | z => exact derivation_one

theorem value_derivative_sample :
    meaning.Defined (sample.derivative .x) ∧
      meaning.value (sample.derivative .x) = derivation (meaning.value sample) :=
  FieldMeaning.value_derivative meaning derivation .x
    ((num_natCast (by decide +kernel)).trans Nat.cast_zero)
    ((num_natCast (by decide +kernel)).trans Nat.cast_one) (num_natCast (by decide +kernel))
    derivation_var sample lawful_sample regular_sample defined_sample

end RationalFunction
end Trivariate
