import Trivariate.Proofs.BlankInsertion
import Trivariate.Proofs.ErrorPlaces

/-! The first failure is final. A blank ends the last token of a text, so that a reader meets the same
steps whatever is written behind the blank, and where it refuses one of them it looks no further. -/

namespace Trivariate

namespace Scan

theorem steps_append_blank {w : Char} (hw : Text.isBlank w = true) (back : List Char)
    {column taken : Nat} {cs : List Char} (htaken : taken ≤ cs.length) :
    steps column taken (cs ++ w :: back) =
      steps column taken cs ++ steps (column + (cs.length + 1)) 0 back := by
  induction cs generalizing column taken with
  | nil =>
    obtain rfl := Nat.le_zero.mp htaken
    exact steps_blank hw column back
  | cons c cs ih =>
    have hcolumn : column + ((c :: cs).length + 1) = column + 1 + (cs.length + 1) := by
      rw [List.length_cons]
      omega
    rw [hcolumn, List.cons_append]
    cases taken with
    | succ more => exact ih (Nat.le_of_succ_le_succ htaken)
    | zero =>
      cases hblank : Text.isBlank c with
      | true =>
        rw [steps_blank hblank, steps_blank hblank]
        exact ih (Nat.zero_le _)
      | false =>
        have hlexeme := lexeme_insert (n := cs.length) hw (lexeme_snd_le c cs) back
        rw [List.take_length] at hlexeme
        rw [steps_lexeme hblank, steps_lexeme hblank, hlexeme, ih (lexeme_snd_le c cs), List.cons_append]

end Scan

theorem scan_append_space (source rest : String) :
    scan (source ++ " " ++ rest) =
      scan source ++ Scan.steps (source.length + 1) 0 rest.toList := by
  have hchars : (source ++ " " ++ rest).toList = source.toList ++ ' ' :: rest.toList := by simp
  rw [scan, hchars, Scan.steps_append_blank rfl _ (Nat.zero_le _), Nat.zero_add, String.length_toList]
  rfl

namespace Reading

theorem run_append_of_error {σ : Type} {next : Reader σ} {s : σ} {xs : List Step}
    {record : List Event} {e : ParseError} (h : run next s xs = (record, .error e)) (ys : List Step) :
    run next s (xs ++ ys) = (record, .error e) := by
  induction xs generalizing s record with
  | nil => cases h
  | cons x xs ih =>
    rw [run] at h
    rw [List.cons_append, run]
    cases hx : next s x with
    | error e' =>
      rw [hx] at h
      exact h
    | ok out =>
      rw [hx] at h
      dsimp only at h ⊢
      obtain ⟨rfl, herror⟩ := Prod.mk.inj h
      rw [ih (Prod.ext rfl herror)]

theorem exists_run_of_refused {σ : Type} {next : Reader σ} {s : σ} {xs : List Step}
    (h : ¬ ∃ t, (run next s xs).2 = .ok t) : ∃ record e, run next s xs = (record, .error e) := by
  cases hresult : (run next s xs).2 with
  | ok t => exact absurd ⟨t, hresult⟩ h
  | error e => exact ⟨_, e, Prod.ext rfl hresult⟩

theorem readBracketed_of_run {set : Settings} {source : String} {record : List Event} {e : ParseError}
    (h : run (Brackets.step set) {} (scan source) = (record, .error e)) :
    readBracketed set source = (record ++ [.failed .bracketed e], .error e) := by
  rw [readBracketed, h]
  rfl

theorem readPolish_of_run {set : Settings} {source : String} {record : List Event} {e : ParseError}
    (h : run (Polish.step set) [] (scan source) = (record, .error e)) :
    readPolish set source = (record ++ [.failed .polish e], .error e) := by
  rw [readPolish, h]
  rfl

/-- Where a reader does not take every step of a text, its error and its record stay the same whatever
comes behind the text. -/
theorem read_append_of_refused (form : Form) (set : Settings) (source : String)
    (h : ¬ form.TakesAll set source) :
    ∃ record e, read form set source = (record, .error e) ∧
      ∀ rest : String, read form set (source ++ " " ++ rest) = (record, .error e) := by
  cases form with
  | bracketed =>
    obtain ⟨record, e, hrun⟩ := exists_run_of_refused h
    refine ⟨_, e, readBracketed_of_run hrun, fun rest => readBracketed_of_run ?_⟩
    rw [scan_append_space]
    exact run_append_of_error hrun _
  | polish =>
    obtain ⟨record, e, hrun⟩ := exists_run_of_refused h
    refine ⟨_, e, readPolish_of_run hrun, fun rest => readPolish_of_run ?_⟩
    rw [scan_append_space]
    exact run_append_of_error hrun _

/-- Without the space the point would be one of the number behind it. -/
theorem read_append_of_refused_point :
    (∀ rest, (read .polish ⟨.standard, 0⟩ ("x ." ++ " " ++ rest)).2 = .error (.unknownToken "." 3)) ∧
    ∀ rest, (read .bracketed ⟨.standard, 1⟩ ("(negate (negate x))" ++ " " ++ rest)).2 =
      .error (.tooDeep 1 19) := by
  have hpoint : ¬ Form.polish.TakesAll ⟨.standard, 0⟩ "x ." := by
    rintro ⟨s, hs⟩
    have hrun : (run (Polish.step ⟨.standard, 0⟩) [] (scan "x .")).2.toOption.isSome = false := by
      decide +kernel
    rw [hs] at hrun
    cases hrun
  have hdeep : ¬ Form.bracketed.TakesAll ⟨.standard, 1⟩ "(negate (negate x))" := by
    rintro ⟨s, hs⟩
    have hrun : (run (Brackets.step ⟨.standard, 1⟩) {} (scan "(negate (negate x))")).2.toOption.isSome =
        false := by decide +kernel
    rw [hs] at hrun
    cases hrun
  obtain ⟨record, e, hread, hrest⟩ := read_append_of_refused .polish _ _ hpoint
  obtain ⟨record', e', hread', hrest'⟩ := read_append_of_refused .bracketed _ _ hdeep
  constructor
  · intro rest
    have herror : (read .polish ⟨.standard, 0⟩ "x .").2 = .error (.unknownToken "." 3) := by
      decide +kernel
    rw [hrest, ← herror, hread]
  · intro rest
    have herror : (read .bracketed ⟨.standard, 1⟩ "(negate (negate x))").2 = .error (.tooDeep 1 19) := by
      decide +kernel
    rw [hrest', ← herror, hread']

end Reading
end Trivariate
