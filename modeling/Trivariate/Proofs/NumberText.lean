import Trivariate.Proofs.Rounding
import Trivariate.Reading.Role

/-! The text of a finite number is a plain decimal. Every text reads back to its number. -/

namespace Trivariate.Decimal

theorem isDigit_of_mem_figures {d : Decimal} {c : Char} (h : c ∈ d.figures) : c.isDigit = true := by
  rcases List.mem_append.mp h with hz | hw
  · rw [List.eq_of_mem_replicate hz]
    rfl
  · exact Nat.isDigit_of_mem_toDigits (by decide) (by decide) hw

theorem ofDigitChars_figures (d : Decimal) : Nat.ofDigitChars 10 d.figures 0 = d.digits := by
  unfold figures
  rw [Nat.ofDigitChars_append, Nat.ofDigitChars_replicate_zero, Nat.mul_zero,
    Nat.ofDigitChars_ten_toDigits]

theorem places_lt_length_figures (d : Decimal) : d.places < d.figures.length := by
  unfold figures
  rw [List.length_append, List.length_replicate]
  omega

theorem figures_ne_nil (d : Decimal) : d.figures ≠ [] := by
  have hpos := d.places_lt_length_figures
  exact List.ne_nil_of_length_pos (by omega)

theorem ofChars?_whole {cs : List Char} (hd : ∀ c ∈ cs, c.isDigit = true) (hne : cs ≠ []) :
    ofChars? cs = some ⟨Nat.ofDigitChars 10 cs 0, 0⟩ := by
  rw [ofChars?, List.takeWhile_eq_self_iff.mpr hd, List.dropWhile_eq_nil_iff.mpr hd]
  exact if_neg (by simpa using hne)

theorem ofChars?_point {whole fraction : List Char} (hw : ∀ c ∈ whole, c.isDigit = true)
    (hf : ∀ c ∈ fraction, c.isDigit = true) (hne : whole ++ fraction ≠ []) :
    ofChars? (whole ++ '.' :: fraction) =
      some ⟨Nat.ofDigitChars 10 (whole ++ fraction) 0, fraction.length⟩ := by
  have htake : (whole ++ '.' :: fraction).takeWhile Char.isDigit = whole := by
    rw [List.takeWhile_append_of_pos hw, List.takeWhile_cons_of_neg (by decide), List.append_nil]
  have hdrop : (whole ++ '.' :: fraction).dropWhile Char.isDigit = '.' :: fraction := by
    rw [List.dropWhile_append_of_pos hw, List.dropWhile_cons_of_neg (by decide)]
  rw [ofChars?, htake, hdrop]
  exact if_pos (by simpa [List.all_eq_true.mpr hf] using hne)

theorem ofChars?_chars (d : Decimal) : ofChars? d.chars = some d := by
  unfold chars
  by_cases hp : d.places = 0
  · rw [if_pos hp, ofChars?_whole (fun _ => isDigit_of_mem_figures) d.figures_ne_nil,
      ofDigitChars_figures, ← hp]
  · have hpos := d.places_lt_length_figures
    have hlen : (d.figures.drop (d.figures.length - d.places)).length = d.places := by
      rw [List.length_drop]
      omega
    rw [if_neg hp]
    refine (ofChars?_point (fun c hc => isDigit_of_mem_figures (List.mem_of_mem_take hc))
      (fun c hc => isDigit_of_mem_figures (List.mem_of_mem_drop hc)) ?_).trans ?_
    · rw [List.take_append_drop]
      exact d.figures_ne_nil
    · rw [List.take_append_drop, ofDigitChars_figures, hlen]

theorem inNumber_of_mem_chars {d : Decimal} {c : Char} (h : c ∈ d.chars) :
    Scan.inNumber c = true := by
  have hfigure : ∀ c ∈ d.figures, Scan.inNumber c = true := fun c hc => by
    rw [Scan.inNumber, isDigit_of_mem_figures hc, Bool.true_or]
  unfold chars at h
  split at h
  · exact hfigure c h
  · rcases List.mem_append.mp h with hw | hf
    · exact hfigure c (List.mem_of_mem_take hw)
    · rcases List.mem_cons.mp hf with rfl | hf
      · rfl
      · exact hfigure c (List.mem_of_mem_drop hf)

theorem chars_ne_nil (d : Decimal) : d.chars ≠ [] := by
  unfold chars
  split
  · exact d.figures_ne_nil
  · simp

theorem shift_mul_ten_pow (k raised sig : Nat) :
    1 <<< k * (sig <<< (raised - k) * Nat.pow 5 (k - raised)) =
      sig <<< raised * Nat.pow 10 (k - raised) := by
  have hten : Nat.pow 10 (k - raised) = 2 ^ (k - raised) * 5 ^ (k - raised) :=
    Nat.mul_pow 2 5 (k - raised)
  have htwo : 2 ^ k * 2 ^ (raised - k) = 2 ^ raised * 2 ^ (k - raised) := by
    rw [← Nat.pow_add, ← Nat.pow_add]
    congr 1
    omega
  rw [hten, Nat.shiftLeft_eq, Nat.shiftLeft_eq, Nat.shiftLeft_eq, Nat.one_mul]
  calc 2 ^ k * (sig * 2 ^ (raised - k) * 5 ^ (k - raised))
      = sig * (2 ^ k * 2 ^ (raised - k)) * 5 ^ (k - raised) := by ac_rfl
    _ = sig * 2 ^ raised * (2 ^ (k - raised) * 5 ^ (k - raised)) := by rw [htwo]; ac_rfl

theorem magnitude_ofMagnitude {m : Nat} (h : m ≤ Binary64.infinite) : (ofMagnitude m).magnitude = m := by
  refine Binary64.nearest_exact h (Nat.pow_pos (by decide)) ?_
  unfold ofMagnitude Binary64.unitsPerOne Binary64.units
  exact shift_mul_ten_pow 1074 _ _

theorem magnitude_shortest {m : Nat} (h : m ≤ Binary64.infinite) : (shortest m).magnitude = m := by
  unfold shortest
  by_cases h0 : m = 0
  · have hzero : Binary64.units 0 = 0 := by decide
    rw [if_pos h0, h0]
    refine Binary64.nearest_exact (Nat.zero_le _) (by decide) ?_
    rw [hzero, Nat.mul_zero, Nat.zero_mul]
  · rw [if_neg h0]
    dsimp only
    generalize hfound : List.findSome? _ _ = found
    cases found with
    | none =>
      rw [Option.getD_none]
      exact magnitude_ofMagnitude h
    | some p =>
      obtain ⟨t, _, ht⟩ := List.exists_of_findSome?_eq_some hfound
      rw [Option.getD_some]
      exact magnitude_of_hit ht

end Trivariate.Decimal

namespace Trivariate

namespace Binary64

open Float.Model (Format)
open Float.Model.UnpackedFloat (unpackExponent unpackMantissa)

theorem magnitude_lt_infinite {x : Float} (h : isFinite x = true) : magnitude x < infinite :=
  of_decide_eq_true h

theorem toList_text {x : Float} (h : isFinite x = true) :
    (text x).toList =
      if isNegative x then '-' :: (Decimal.shortest (magnitude x)).chars
      else (Decimal.shortest (magnitude x)).chars := by
  have hlt := magnitude_lt_infinite h
  have hnan : ¬ isNaN x = true := by
    rw [isNaN, decide_eq_true_iff]
    omega
  have hinf : ¬ isInfinite x = true := by
    rw [isInfinite, beq_iff_eq]
    omega
  rw [text, if_neg hnan]
  simp only [if_neg hinf, String.toList_ofList]

theorem ofPlainText?_text {x : Float} (h : isFinite x = true) : ofPlainText? (text x) = some x := by
  have hmag : (Decimal.shortest (magnitude x)).magnitude = magnitude x :=
    Decimal.magnitude_shortest (magnitude_lt_infinite h).le
  have hx := ofMagnitude_magnitude x
  unfold ofPlainText?
  rw [toList_text h]
  cases hn : isNegative x with
  | true =>
    rw [hn] at hx
    simp only [if_true, Decimal.ofChars?_chars, Option.map_some, hmag, hx]
  | false =>
    rw [hn] at hx
    simp only [Bool.false_eq_true, if_false]
    split
    next cs hcs =>
      have hbad : Scan.inNumber '-' = true := Decimal.inNumber_of_mem_chars (hcs ▸ List.mem_cons_self ..)
      exact absurd hbad (by decide)
    next => rw [Decimal.ofChars?_chars, Option.map_some, hmag, hx]

/-- All encodings that are no numbers count as one. -/
theorem eq_of_isNaN {x : Float} (h : isNaN x = true) : x = 0 / 0 := by
  have hmag : 2047 * 2 ^ 52 < x.toBits.toNat % 2 ^ 63 := of_decide_eq_true h
  have hlt := x.toBits.toNat_lt
  have hexponent : @unpackExponent .binary64 x.toBits.toBitVec = -1#_ := by
    have hfield : x.toBits.toNat / 2 ^ 52 % 2 ^ 11 = 2047 := by omega
    apply BitVec.eq_of_toNat_eq
    rw [unpackExponent, BitVec.toNat_cast, BitVec.extractLsb_toNat, Nat.shiftRight_eq_div_pow]
    exact hfield
  have hfraction : @unpackMantissa .binary64 x.toBits.toBitVec ≠ 0#_ := by
    have hfield : x.toBits.toNat % 2 ^ 52 ≠ 0 := by omega
    intro hzero
    apply hfield
    have hnat := congrArg BitVec.toNat hzero
    rw [unpackMantissa, BitVec.toNat_cast, BitVec.extractLsb_toNat, Nat.shiftRight_zero] at hnat
    exact hnat
  have hbits : x.toBits = (0 / 0 : Float).toBits :=
    UInt64.eq_of_toBitVec_eq (x.toModel.valid.eq_packedNaN hexponent hfraction)
  rw [← Float.ofBits_toBits x, hbits, Float.ofBits_toBits]

theorem eq_or_isFinite (x : Float) :
    x = 0 / 0 ∨ x = 1 / 0 ∨ x = -1 / 0 ∨ isFinite x = true := by
  rcases Nat.lt_trichotomy (magnitude x) infinite with hlt | heq | hgt
  · exact .inr (.inr (.inr (decide_eq_true hlt)))
  · have hx := ofMagnitude_magnitude x
    rw [heq] at hx
    rw [← hx]
    cases isNegative x with
    | false => exact .inr (.inl rfl)
    | true => exact .inr (.inr (.inl rfl))
  · exact .inl (eq_of_isNaN (decide_eq_true hgt))

theorem ofText?_text (x : Float) : ofText? (text x) = some x := by
  rcases eq_or_isFinite x with rfl | rfl | rfl | hx
  · rfl
  · rfl
  · rfl
  · have hplain := ofPlainText?_text hx
    have hne : ∀ s, ofPlainText? s = none → text x ≠ s := by
      rintro s hs rfl
      rw [hs] at hplain
      cases hplain
    rw [ofText?, if_neg (hne _ rfl), if_neg (hne _ rfl), if_neg (hne _ rfl), hplain]

theorem text_ne {s : String} (h : ofText? s = none) (x : Float) : text x ≠ s := by
  rintro rfl
  rw [ofText?_text] at h
  cases h

theorem text_injective {x y : Float} (h : text x = text y) : x = y := by
  have hx := ofText?_text x
  rw [h, ofText?_text y] at hx
  exact (Option.some.inj hx).symm

end Binary64

theorem literal?_text {x : Float} (h : Binary64.isFinite x = true) :
    literal? (Binary64.text x) = some x := by
  rw [literal?, Binary64.ofPlainText?_text h, Option.filter_some, if_pos h]

end Trivariate
