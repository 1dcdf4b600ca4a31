import Mathlib
import Trivariate.Operation.Value

/-! Numbers that differ at most in the sign of a zero. Arithmetic takes such numbers to such numbers,
unless it divides by them, and a zero of either sign is neutral in sums and absorbs factors. -/

namespace Trivariate.Binary64

open Relator
open Float.Model (Format UnpackedFloat)
open Float.Model.UnpackedFloat (Sign)

def unpacked (x : Float) : UnpackedFloat := x.toModel.unpack

def packed (u : UnpackedFloat) : Float := .ofModel (.pack u)

theorem packed_unpacked (x : Float) : packed (unpacked x) = x := Float.ofBits_toBits x

def IsZero (x : Float) : Prop := (x == 0) = true

def Alike (x y : Float) : Prop := x = y ∨ IsZero x ∧ IsZero y

instance (x : Float) : Decidable (IsZero x) := inferInstanceAs (Decidable ((x == 0) = true))

instance (x y : Float) : Decidable (Alike x y) :=
  inferInstanceAs (Decidable (x = y ∨ IsZero x ∧ IsZero y))

def AlikeUnpacked (u v : UnpackedFloat) : Prop := u = v ∨ (∃ s, u = .zero s) ∧ ∃ t, v = .zero t

theorem isZero_iff {x : Float} : IsZero x ↔ ∃ s, unpacked x = .zero s := by
  have hbeq : (x == 0) = ((unpacked x).compare (.zero .positive) == some .eq) := rfl
  rw [IsZero, hbeq]
  cases unpacked x with
  | notANumber => simp [UnpackedFloat.compare]
  | infinity s => cases s <;> simp [UnpackedFloat.compare]
  | zero s => simp [UnpackedFloat.compare]
  | finite s m e hm => cases s <;> simp [UnpackedFloat.compare]

theorem isZero_zero : IsZero 0 := rfl

theorem isZero_packed (s : Sign) : IsZero (packed (.zero s)) := by
  cases s <;> rfl

theorem alike_packed {u v : UnpackedFloat} (h : AlikeUnpacked u v) : Alike (packed u) (packed v) := by
  rcases h with rfl | ⟨⟨s, rfl⟩, t, rfl⟩
  · exact .inl rfl
  · exact .inr ⟨isZero_packed s, isZero_packed t⟩

theorem alike_packed_self {u : UnpackedFloat} {x : Float} (h : AlikeUnpacked u (unpacked x)) :
    Alike (packed u) x := by
  have hpacked := alike_packed h
  rwa [packed_unpacked] at hpacked

section Finite

variable {x : Float}

theorem isFinite_of_unpacked {u : UnpackedFloat} (h : unpacked x = u) :
    isFinite x = isFinite (packed u) := by
  rw [← h, packed_unpacked]

theorem isFinite_infinity (s : Sign) : isFinite (packed (.infinity s)) = false := by
  cases s <;> rfl

theorem isFinite_notANumber : isFinite (packed .notANumber) = false := rfl

theorem isFinite_of_isZero (h : IsZero x) : isFinite x = true := by
  obtain ⟨s, hs⟩ := isZero_iff.mp h
  rw [isFinite_of_unpacked hs]
  cases s <;> rfl

end Finite

namespace Alike

variable {x y z : Float}

theorem refl (x : Float) : Alike x x := .inl rfl

theorem symm (h : Alike x y) : Alike y x := by
  rcases h with rfl | ⟨hx, hy⟩
  · exact .inl rfl
  · exact .inr ⟨hy, hx⟩

theorem trans (h : Alike x y) (h' : Alike y z) : Alike x z := by
  rcases h with rfl | ⟨hx, hy⟩
  · exact h'
  · rcases h' with rfl | ⟨-, hz⟩
    · exact .inr ⟨hx, hy⟩
    · exact .inr ⟨hx, hz⟩

theorem of_beq (h : (x == y) = true) : Alike x y := by
  obtain ⟨-, -, rfl | ⟨rfl, rfl⟩ | ⟨rfl, rfl⟩⟩ := Float.beq_iff_ne_nan_and_eq.mp h
  · exact .inl rfl
  · exact .inr ⟨rfl, rfl⟩
  · exact .inr ⟨rfl, rfl⟩

theorem isFinite (h : Alike x y) (hx : isFinite x = true) : Binary64.isFinite y = true := by
  rcases h with rfl | ⟨-, hy⟩
  · exact hx
  · exact isFinite_of_isZero hy

theorem beq (h : Alike x y) (hx : Binary64.isFinite x = true) : (x == y) = true := by
  rcases h with rfl | ⟨hx, hy⟩
  · rw [Float.beq_self_iff]
    rintro rfl
    cases hx
  · exact BEq.trans hx (BEq.symm hy)

end Alike

section Commutativity

theorem sign_mul_comm (s t : Sign) : s * t = t * s := by
  cases s <;> cases t <;> rfl

protected theorem mul_comm (x y : Float) : x * y = y * x := by
  have hmul : (unpacked x).mul .binary64 (unpacked y) = (unpacked y).mul .binary64 (unpacked x) := by
    cases unpacked x <;> cases unpacked y <;>
      simp only [UnpackedFloat.mul, sign_mul_comm, Nat.mul_comm, Int.add_comm]
  exact congrArg packed hmul

end Commutativity

section Zeros

/-! What an operation makes of a zero. -/

variable {z w : Float}

theorem zero_add_alike (hz : IsZero z) (x : Float) : Alike (z + x) x := by
  obtain ⟨s, hs⟩ := isZero_iff.mp hz
  have hadd : z + x = packed ((unpacked z).add .binary64 (unpacked x)) := rfl
  rw [hadd, hs]
  apply alike_packed_self
  cases unpacked x with
  | zero t => cases s <;> cases t <;> exact .inr ⟨⟨_, rfl⟩, _, rfl⟩
  | notANumber | infinity | finite => exact .inl rfl

theorem add_zero_alike (hz : IsZero z) (x : Float) : Alike (x + z) x := by
  obtain ⟨s, hs⟩ := isZero_iff.mp hz
  have hadd : x + z = packed ((unpacked x).add .binary64 (unpacked z)) := rfl
  rw [hadd, hs]
  apply alike_packed_self
  cases unpacked x with
  | zero t => cases s <;> cases t <;> exact .inr ⟨⟨_, rfl⟩, _, rfl⟩
  | notANumber | infinity | finite => exact .inl rfl

theorem sub_zero_alike (hz : IsZero z) (x : Float) : Alike (x - z) x := by
  obtain ⟨s, hs⟩ := isZero_iff.mp hz
  have hsub : x - z = packed ((unpacked x).sub .binary64 (unpacked z)) := rfl
  rw [hsub, hs]
  apply alike_packed_self
  cases unpacked x with
  | zero t => cases s <;> cases t <;> exact .inr ⟨⟨_, rfl⟩, _, rfl⟩
  | notANumber | infinity | finite => exact .inl rfl

theorem zero_sub_alike (hz : IsZero z) (x : Float) : Alike (z - x) (-x) := by
  obtain ⟨s, hs⟩ := isZero_iff.mp hz
  have hsub : z - x = packed ((unpacked z).sub .binary64 (unpacked x)) := rfl
  have hneg : -x = packed (unpacked x).neg := rfl
  rw [hsub, hneg, hs]
  apply alike_packed
  cases unpacked x with
  | zero t => cases s <;> cases t <;> exact .inr ⟨⟨_, rfl⟩, _, rfl⟩
  | notANumber | infinity | finite => exact .inl rfl

theorem mul_of_isZero (hz : IsZero z) (hw : IsZero w) (x : Float) :
    IsZero (z * x) ∧ IsZero (w * x) ∨ isFinite x = false ∧ z * x = w * x := by
  obtain ⟨s, hs⟩ := isZero_iff.mp hz
  obtain ⟨t, ht⟩ := isZero_iff.mp hw
  have hmul : ∀ y, y * x = packed ((unpacked y).mul .binary64 (unpacked x)) := fun _ => rfl
  rw [hmul z, hmul w, hs, ht]
  cases hx : unpacked x with
  | zero | finite => exact .inl ⟨isZero_packed _, isZero_packed _⟩
  | notANumber => exact .inr ⟨(isFinite_of_unpacked hx).trans isFinite_notANumber, rfl⟩
  | infinity => exact .inr ⟨(isFinite_of_unpacked hx).trans (isFinite_infinity _), rfl⟩

theorem div_of_isZero (hz : IsZero z) (hw : IsZero w) (x : Float) :
    IsZero (z / x) ∧ IsZero (w / x) ∨ isFinite (z / x) = false ∧ z / x = w / x := by
  obtain ⟨s, hs⟩ := isZero_iff.mp hz
  obtain ⟨t, ht⟩ := isZero_iff.mp hw
  have hdiv : ∀ y, y / x = packed ((unpacked y).div .binary64 (unpacked x)) := fun _ => rfl
  rw [hdiv z, hdiv w, hs, ht]
  cases unpacked x with
  | infinity | finite => exact .inl ⟨isZero_packed _, isZero_packed _⟩
  | notANumber | zero => exact .inr ⟨isFinite_notANumber, rfl⟩

theorem isFinite_div_zero (hz : IsZero z) (x : Float) : isFinite (x / z) = false := by
  obtain ⟨s, hs⟩ := isZero_iff.mp hz
  have hdiv : x / z = packed ((unpacked x).div .binary64 (unpacked z)) := rfl
  rw [hdiv, hs]
  cases unpacked x with
  | infinity | finite => exact isFinite_infinity _
  | notANumber | zero => rfl

theorem eq_or_of_isZero (hz : IsZero z) : z = 0 ∨ z = -0 := by
  obtain ⟨-, -, h | ⟨h, -⟩ | ⟨h, -⟩⟩ := Float.beq_iff_ne_nan_and_eq.mp hz
  · exact .inl h
  · exact .inl h
  · exact .inr h

end Zeros

section Congruence

variable {x x' y y' : Float}

theorem Alike.map {f : Float → Float} (hf : ∀ z w, IsZero z → IsZero w → Alike (f z) (f w))
    (h : Alike x y) : Alike (f x) (f y) := by
  rcases h with rfl | ⟨hx, hy⟩
  · exact .refl _
  · exact hf x y hx hy

theorem alike_apply {f : Float → Float} (hf : Alike (f 0) (f (-0))) (h : Alike x y) :
    Alike (f x) (f y) := by
  have hzero : ∀ z, IsZero z → Alike (f z) (f 0) := by
    intro z hz
    rcases eq_or_of_isZero hz with rfl | rfl
    · exact .refl _
    · exact hf.symm
  exact h.map fun z w hz hw => (hzero z hz).trans (hzero w hw).symm

theorem alike_add (hx : Alike x x') (hy : Alike y y') : Alike (x + y) (x' + y') := by
  have hleft : Alike (x + y) (x' + y) := hx.map (f := (· + y)) fun z w hz hw =>
    (zero_add_alike hz y).trans (zero_add_alike hw y).symm
  have hright : Alike (x' + y) (x' + y') := hy.map fun z w hz hw =>
    (add_zero_alike hz x').trans (add_zero_alike hw x').symm
  exact hleft.trans hright

theorem alike_sub (hx : Alike x x') (hy : Alike y y') : Alike (x - y) (x' - y') := by
  have hleft : Alike (x - y) (x' - y) := hx.map (f := (· - y)) fun z w hz hw =>
    (zero_sub_alike hz y).trans (zero_sub_alike hw y).symm
  have hright : Alike (x' - y) (x' - y') := hy.map fun z w hz hw =>
    (sub_zero_alike hz x').trans (sub_zero_alike hw x').symm
  exact hleft.trans hright

theorem alike_mul_right (hx : Alike x x') (y : Float) : Alike (x * y) (x' * y) := by
  refine hx.map (f := (· * y)) fun z w hz hw => ?_
  rcases mul_of_isZero hz hw y with ⟨hzy, hwy⟩ | ⟨-, heq⟩
  · exact .inr ⟨hzy, hwy⟩
  · exact .inl heq

theorem alike_mul (hx : Alike x x') (hy : Alike y y') : Alike (x * y) (x' * y') := by
  have hright := alike_mul_right hy x'
  rw [Binary64.mul_comm y, Binary64.mul_comm y'] at hright
  exact (alike_mul_right hx y).trans hright

theorem alike_div_right (hx : Alike x x') (y : Float) : Alike (x / y) (x' / y) := by
  refine hx.map (f := (· / y)) fun z w hz hw => ?_
  rcases div_of_isZero hz hw y with ⟨hzy, hwy⟩ | ⟨-, heq⟩
  · exact .inr ⟨hzy, hwy⟩
  · exact .inl heq

/-- A quotient by zero tells the sign of the zero, but it is never finite. -/
theorem alike_div (hx : Alike x x') (hy : Alike y y') (h : isFinite (x / y) = true) :
    Alike (x / y) (x' / y') := by
  rcases hy with rfl | ⟨hy, -⟩
  · exact alike_div_right hx y
  · rw [isFinite_div_zero hy] at h
    cases h

theorem alike_sum {vs ws : List Float} (h : List.Forall₂ Alike vs ws) : Alike (sum vs) (sum ws) := by
  have hstep : (Alike ⇒ Alike ⇒ Alike) (· + ·) (· + ·) := fun _ _ hacc _ _ hv => alike_add hacc hv
  unfold sum
  exact List.rel_foldl hstep (Alike.refl _) h

theorem alike_squaredNorm {vs ws : List Float} (h : List.Forall₂ Alike vs ws) :
    Alike (squaredNorm vs) (squaredNorm ws) := by
  refine alike_sum ?_
  rw [List.forall₂_map_left_iff, List.forall₂_map_right_iff]
  exact h.imp fun v w hvw => alike_mul hvw hvw

end Congruence

end Trivariate.Binary64
