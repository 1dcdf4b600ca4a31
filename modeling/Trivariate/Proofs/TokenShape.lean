import Mathlib.Data.List.TakeWhile
import Trivariate.Token.Scan

/-! What the tokens of a scan look like, and that a token is found again wherever its characters
stand before something that does not lengthen it. -/

namespace Trivariate

namespace Token

inductive Formed : Char → List Char → Token → Prop
  | symbol {c : Char} (h : c ∈ ['+', '-', '*', '/']) : Formed c [] (symbol c)
  | number {c : Char} {part : List Char} (hpart : ∀ d ∈ part, Scan.inNumber d = true)
      (hfirst : Scan.inNumber c = true ∨ c = '-' ∧ part ≠ []) :
      Formed c part (number (String.ofList (c :: part)))
  | name {c : Char} {part : List Char} (hpart : ∀ d ∈ part, Scan.inName d = true)
      (hfirst : c.isLower = true) : Formed c part (name (String.ofList (c :: part)))
  | opening : Formed '(' [] opening
  | closing : Formed ')' [] closing

def Shape (t : Token) : Prop := ∃ c part, Formed c part t

/-- Whether a character right behind the token would belong to it or make it another token. -/
def absorbs : Token → Char → Bool
  | symbol c, d => c == '-' && Scan.inNumber d
  | number _, d => Scan.inNumber d
  | name _, d => Scan.inName d
  | opening, _ => false
  | closing, _ => false

def EndsBefore (t : Token) (rest : List Char) : Prop := ∀ d ∈ rest.head?, t.absorbs d = false

theorem Formed.toList_text {c : Char} {part : List Char} {t : Token} (h : Formed c part t) :
    t.text.toList = c :: part := by
  cases h with
  | symbol => simp [text]
  | number => exact String.toList_ofList
  | name => exact String.toList_ofList
  | opening => rfl
  | closing => rfl

end Token

theorem Text.isBlank_eq_false {c : Char} (hlow : 33 ≤ c.toNat) (hhigh : c.toNat ≤ 126) :
    Text.isBlank c = false := by
  simp [Text.isBlank, Text.blankRuns]
  omega

namespace Scan

theorem toNat_of_isLower {c : Char} (h : c.isLower = true) : 97 ≤ c.toNat ∧ c.toNat ≤ 122 := by
  have hrange : (decide (97 ≤ c.val) && decide (c.val ≤ 122)) = true := h
  simpa [UInt32.le_iff_toNat_le] using hrange

theorem toNat_of_inNumber {c : Char} (h : inNumber c = true) : 46 ≤ c.toNat ∧ c.toNat ≤ 57 := by
  rw [inNumber, Bool.or_eq_true, beq_iff_eq] at h
  rcases h with hd | rfl
  · have hh : 48 ≤ c.toNat ∧ c.toNat ≤ 57 := by
      simpa [Char.isDigit, UInt32.le_iff_toNat_le] using hd
    omega
  · decide

theorem not_isLower_of_inNumber {c : Char} (h : inNumber c = true) : ¬ c.isLower = true := by
  intro hl
  have hnumber := toNat_of_inNumber h
  have hlower := toNat_of_isLower hl
  omega

theorem inNumber_of_isBlank {c : Char} (h : Text.isBlank c = true) : inNumber c = false := by
  by_contra hn
  have hrange := toNat_of_inNumber (eq_true_of_ne_false hn)
  rw [Text.isBlank_eq_false (by omega) (by omega)] at h
  cases h

theorem inName_of_isBlank {c : Char} (h : Text.isBlank c = true) : inName c = false := by
  have hlower : c.isLower = false := by
    by_contra hl
    have hrange := toNat_of_isLower (eq_true_of_ne_false hl)
    rw [Text.isBlank_eq_false (by omega) (by omega)] at h
    cases h
  have hdigit := inNumber_of_isBlank h
  rw [inNumber, Bool.or_eq_false_iff] at hdigit
  rw [inName, hlower, hdigit.1, Bool.or_false]

theorem takeWhile_append_of_stop {p : Char → Bool} {part rest : List Char}
    (hp : ∀ d ∈ part, p d = true) (hs : ∀ d ∈ rest.head?, p d = false) :
    (part ++ rest).takeWhile p = part := by
  rw [List.takeWhile_append_of_pos hp]
  cases rest with
  | nil => rw [List.takeWhile_nil, List.append_nil]
  | cons d rest => rw [List.takeWhile_cons_of_neg (by simp [hs d rfl]), List.append_nil]

theorem lexeme_symbol {c : Char} {rest : List Char} (h : c ∈ ['+', '-', '*', '/'])
    (he : (Token.symbol c).EndsBefore rest) : lexeme c rest = (.token (.symbol c), 0) := by
  have hminus : c = '-' → rest.head?.any inNumber = false := by
    intro hc
    cases rest with
    | nil => rfl
    | cons d rest => simpa [Token.absorbs, hc] using he d rfl
  simp only [List.mem_cons, List.not_mem_nil, or_false] at h
  rcases h with rfl | rfl | rfl | rfl
  · rfl
  · simp only [lexeme, hminus rfl]
    rfl
  · rfl
  · rfl

theorem lexeme_of_formed {t : Token} {c : Char} {part rest : List Char} (h : t.Formed c part)
    (he : t.EndsBefore rest) : lexeme c (part ++ rest) = (.token t, part.length) := by
  cases h with
  | symbol hc => exact lexeme_symbol hc he
  | number hpart hfirst =>
    have hlower : ¬ c.isLower = true := by
      rcases hfirst with hn | ⟨rfl, _⟩
      · exact not_isLower_of_inNumber hn
      · decide
    have hnumber : (inNumber c || (c == '-' && (part ++ rest).head?.any inNumber)) = true := by
      rcases hfirst with hn | ⟨rfl, hne⟩
      · rw [hn, Bool.true_or]
      · obtain ⟨d, part, rfl⟩ := List.exists_cons_of_ne_nil hne
        simp [hpart d (List.mem_cons_self ..)]
    rw [lexeme, if_neg hlower, if_pos hnumber, takeWhile_append_of_stop hpart he]
  | name hpart hlower => rw [lexeme, if_pos hlower, takeWhile_append_of_stop hpart he]
  | opening => rfl
  | closing => rfl

theorem isBlank_of_formed {t : Token} {c : Char} {part : List Char} (h : t.Formed c part) :
    Text.isBlank c = false := by
  have hgraphic : 33 ≤ c.toNat ∧ c.toNat ≤ 126 := by
    cases h with
    | symbol hc =>
      simp only [List.mem_cons, List.not_mem_nil, or_false] at hc
      rcases hc with rfl | rfl | rfl | rfl <;> decide
    | number _ hfirst =>
      rcases hfirst with hn | ⟨rfl, _⟩
      · have hh := toNat_of_inNumber hn
        omega
      · decide
    | name _ hlower =>
      have hh := toNat_of_isLower hlower
      omega
    | opening => decide
    | closing => decide
  exact Text.isBlank_eq_false hgraphic.1 hgraphic.2

theorem take_length_takeWhile (p : Char → Bool) (rest : List Char) :
    rest.take (rest.takeWhile p).length = rest.takeWhile p :=
  (List.prefix_iff_eq_take.mp (List.takeWhile_prefix p)).symm

theorem stop_of_mem_drop_takeWhile (p : Char → Bool) (rest : List Char) :
    ∀ d ∈ (rest.drop (rest.takeWhile p).length).head?, p d = false := by
  induction rest with
  | nil => simp
  | cons c rest ih =>
    by_cases hc : p c = true
    · rw [List.takeWhile_cons_of_pos hc]
      exact ih
    · rw [List.takeWhile_cons_of_neg hc]
      intro d hd
      obtain rfl : c = d := by simpa using hd
      exact eq_false_of_ne_true hc

theorem formed_of_lexeme {c : Char} {rest : List Char} {t : Token} {n : Nat}
    (h : lexeme c rest = (.token t, n)) :
    t.Formed c (rest.take n) ∧ t.EndsBefore (rest.drop n) := by
  unfold lexeme at h
  split at h
  next hlower =>
    cases h
    rw [take_length_takeWhile]
    exact ⟨.name (fun d hd => List.mem_takeWhile_imp hd) hlower, stop_of_mem_drop_takeWhile inName rest⟩
  next =>
    split at h
    next hnumber =>
      cases h
      rw [take_length_takeWhile]
      refine ⟨.number (fun d hd => List.mem_takeWhile_imp hd) ?_,
        stop_of_mem_drop_takeWhile inNumber rest⟩
      rcases Bool.or_eq_true _ _ ▸ hnumber with hn | hm
      · exact .inl hn
      · obtain ⟨hc, hany⟩ := Bool.and_eq_true _ _ ▸ hm
        cases rest with
        | nil => simp at hany
        | cons d rest =>
          refine .inr ⟨beq_iff_eq.mp hc, ?_⟩
          rw [List.takeWhile_cons_of_pos (by simpa using hany)]
          exact List.cons_ne_nil _ _
    next hnumber =>
      split at h
      next hc =>
        cases h
        obtain rfl : c = '(' := by simpa using hc
        exact ⟨.opening, fun _ _ => rfl⟩
      next =>
        split at h
        next hc =>
          cases h
          obtain rfl : c = ')' := by simpa using hc
          exact ⟨.closing, fun _ _ => rfl⟩
        next =>
          split at h
          next hc =>
            cases h
            refine ⟨.symbol hc, ?_⟩
            intro d hd
            rw [List.drop_zero] at hd
            simp only [Bool.or_eq_true, Bool.and_eq_true, not_or, not_and] at hnumber
            simp only [Token.absorbs, Bool.and_eq_false_iff]
            -- a minus that touches a number was taken for its sign above
            by_cases hm : (c == '-') = true
            · have hnot := hnumber.2 hm
              rw [hd] at hnot
              exact .inr (by simpa using hnot)
            · exact .inl (eq_false_of_ne_true hm)
          next => simp at h

end Scan
end Trivariate
