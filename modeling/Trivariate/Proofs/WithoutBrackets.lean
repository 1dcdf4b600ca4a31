import Trivariate.Proofs.OperandRecord
import Trivariate.Proofs.ParallelStacks

/-! Bracketed text whose brackets close right behind their symbols. No symbol waits there for longer
than a token, so that the nodes are made in the order of the symbols, and what is left of the text
without its brackets is read as reverse Polish text. -/

namespace Trivariate

def Text.isBracket (c : Char) : Bool := c == '(' || c == ')'

def Text.blanked (c : Char) : Char := if isBracket c then ' ' else c

def unbracketed (source : String) : String := source.map Text.blanked

def Step.isBracket (x : Step) : Bool := x.lexeme == .token .opening || x.isClosing

namespace Scan

theorem takeWhile_unbracketed {p : Char → Bool} (hspace : p ' ' = false)
    (hbracket : ∀ c, Text.isBracket c = true → p c = false) (cs : List Char) :
    (cs.map Text.blanked).takeWhile p = cs.takeWhile p := by
  induction cs with
  | nil => rfl
  | cons c cs ih =>
    rw [List.map_cons, Text.blanked]
    by_cases hc : Text.isBracket c = true
    · rw [if_pos hc, List.takeWhile_cons_of_neg (by simp [hspace]),
        List.takeWhile_cons_of_neg (by simp [hbracket c hc])]
    · rw [if_neg hc]
      by_cases hp : p c = true
      · rw [List.takeWhile_cons_of_pos hp, List.takeWhile_cons_of_pos hp, ih]
      · rw [List.takeWhile_cons_of_neg hp, List.takeWhile_cons_of_neg hp]

theorem eq_of_isBracket {c : Char} (h : Text.isBracket c = true) : c = '(' ∨ c = ')' := by
  simpa [Text.isBracket] using h

theorem inName_of_isBracket (c : Char) (h : Text.isBracket c = true) : inName c = false := by
  rcases eq_of_isBracket h with rfl | rfl <;> rfl

theorem inNumber_of_isBracket (c : Char) (h : Text.isBracket c = true) : inNumber c = false := by
  rcases eq_of_isBracket h with rfl | rfl <;> rfl

theorem lexeme_unbracketed (c : Char) (rest : List Char) :
    lexeme c (rest.map Text.blanked) = lexeme c rest := by
  have hname := takeWhile_unbracketed rfl inName_of_isBracket rest
  have hnumber := takeWhile_unbracketed rfl inNumber_of_isBracket rest
  have hhead : (rest.map Text.blanked).head?.any inNumber = rest.head?.any inNumber := by
    cases rest with
    | nil => rfl
    | cons d rest =>
      rw [List.map_cons, List.head?_cons, List.head?_cons, Option.any_some, Option.any_some, Text.blanked]
      split
      next hd => exact (inNumber_of_isBracket d hd).symm
      next => rfl
  unfold lexeme
  rw [hname, hnumber, hhead]

theorem isBracket_lexeme {c : Char} (h : Text.isBracket c = false) (rest : List Char) (span : Span) :
    (Step.mk (lexeme c rest).1 span).isBracket = false := by
  have hne : ∀ t, t = .opening ∨ t = .closing → (lexeme c rest).1 ≠ .token t := by
    rintro t ht hlexeme
    generalize hpart : rest.take (lexeme c rest).2 = part at *
    have hformed : t.Formed c part := hpart ▸ (formed_of_lexeme (Prod.ext hlexeme rfl)).1
    rcases ht with rfl | rfl <;> cases hformed <;> cases h
  simp [Step.isBracket, Step.isClosing, hne]

theorem steps_unbracketed (column taken : Nat) (cs : List Char) :
    steps column taken (cs.map Text.blanked) = (steps column taken cs).filter (!·.isBracket) := by
  induction cs generalizing column taken with
  | nil => rfl
  | cons c cs ih =>
    rw [List.map_cons, Text.blanked]
    cases taken with
    | succ more => exact ih (column + 1) more
    | zero =>
      cases hc : Text.isBracket c with
      | true =>
        have hspace : Text.isBlank ' ' = true := rfl
        rw [if_pos rfl, steps, if_pos hspace, ih]
        rcases eq_of_isBracket hc with rfl | rfl <;> rfl
      | false =>
        rw [if_neg Bool.false_ne_true, steps, steps]
        split
        next => exact ih (column + 1) 0
        next =>
          rw [lexeme_unbracketed]
          dsimp only
          rw [List.filter_cons_of_pos (by simp [isBracket_lexeme hc]), ih]

end Scan

theorem scan_unbracketed (source : String) :
    scan (unbracketed source) = (scan source).filter (!·.isBracket) := by
  rw [scan, unbracketed, String.toList_map, Scan.steps_unbracketed, scan]

namespace Reading

/-- Every closing bracket comes right behind a symbol. A text that starts with one is never read. -/
def ClosesBehindSymbols (xs : List Step) : Prop :=
  xs.IsChain fun w x => x.isClosing = true → w.isSymbol = true

instance (xs : List Step) : Decidable (ClosesBehindSymbols xs) :=
  inferInstanceAs (Decidable (xs.IsChain fun w x => x.isClosing = true → w.isSymbol = true))

def WaitsForNext (waiting xs : List Step) : Prop :=
  waiting = [] ∨ ∃ w x rest, waiting = [w] ∧ xs = x :: rest ∧ x.isClosing = true

theorem WaitsForNext.eq_nil {waiting xs : List Step} {w : Step} (h : WaitsForNext waiting xs)
    (hchain : ClosesBehindSymbols (w :: xs)) (hw : w.isSymbol = false) : waiting = [] := by
  rcases h with hnil | ⟨_, x, rest, -, rfl, hx⟩
  · exact hnil
  · have hsymbol := (List.isChain_cons_cons.mp hchain).1 hx
    rw [hw] at hsymbol
    cases hsymbol

theorem labels_pushed {set : Settings} {xs : List Step} {s s' : Brackets} {waiting : List Step}
    (hshape : ∀ x ∈ xs, ∀ t, x.lexeme = .token t → t.Shape) (hchain : ClosesBehindSymbols xs)
    (h : xs.foldlM (advance (Brackets.step set)) s = .ok s') (hend : s'.pending = [])
    (hwaiting : List.Forall₂ (fun p w => w.lexeme = .token p.op.token) s.pending waiting) :
    WaitsForNext waiting xs ∧
      List.Forall₂ Labels ((pushed (told (Brackets.step set) s xs)).map Prod.snd)
        (waiting ++ xs.filter (!·.isBracket)) := by
  -- that a symbol does not wait any longer is only known from what comes behind it
  induction xs generalizing s waiting with
  | nil =>
    obtain rfl : s = s' := Except.ok.inj h
    rw [hend, List.forall₂_nil_left_iff] at hwaiting
    subst hwaiting
    exact ⟨.inl rfl, .nil⟩
  | cons x xs ih =>
    obtain ⟨hx, hxs⟩ := List.forall_mem_cons.mp hshape
    have hrest : ClosesBehindSymbols xs := hchain.tail
    obtain ⟨t, events, hstep, h⟩ := foldlM_cons_eq_ok_iff.mp h
    rw [told_cons hstep, pushed_append, List.map_append]
    cases Brackets.move_of_step hstep with
    | @operand e hrole =>
      obtain ⟨-, hlabels, hoperand, hsymbol, hclosing⟩ := kinds_operand hx hrole
      obtain ⟨hnext, hpushed⟩ := ih hxs hrest h (by rwa [Brackets.pending_push])
      obtain rfl := hnext.eq_nil hchain hsymbol
      have hopening : x.lexeme ≠ .token .opening := fun hx => by
        simp [Step.kinds_opening hx] at hoperand
      rw [List.filter_cons_of_pos (by simp [Step.isBracket, hopening, hclosing])]
      exact ⟨.inl rfl, .cons hlabels hpushed⟩
    | @operation o hrole =>
      obtain ⟨hlexeme, -, hsymbol, hclosing⟩ := kinds_operation hx hrole
      obtain ⟨hnext, hpushed⟩ := ih hxs hrest h (.cons hlexeme hwaiting)
      obtain hnil | ⟨w, y, rest, hw, -⟩ := hnext
      · cases hnil
      obtain ⟨rfl, rfl⟩ := List.cons.inj hw
      have hopening : x.lexeme ≠ .token .opening := fun hx => by
        simp [Step.kinds_opening hx] at hsymbol
      rw [List.filter_cons_of_pos (by simp [Step.isBracket, hopening, hclosing])]
      exact ⟨.inl rfl, hpushed⟩
    | opening hlexeme =>
      obtain ⟨-, hsymbol, -⟩ := Step.kinds_opening hlexeme
      obtain ⟨hnext, hpushed⟩ := ih hxs hrest h hwaiting
      obtain rfl := hnext.eq_nil hchain hsymbol
      rw [List.filter_cons_of_neg (by simp [Step.isBracket, hlexeme])]
      exact ⟨.inl rfl, hpushed⟩
    | @closing g outer p pending n a hlexeme _ hpending _ _ _ hop =>
      obtain ⟨-, hsymbol, hclosing⟩ := Step.kinds_closing hlexeme
      rw [hpending] at hwaiting
      obtain ⟨w, waiting, hw, hwaiting, rfl⟩ := List.forall₂_cons_left_iff.mp hwaiting
      obtain ⟨hnext, hpushed⟩ := ih hxs hrest h (by rwa [Brackets.pending_push])
      obtain rfl := hnext.eq_nil hchain hsymbol
      have hlabels : Labels a.expr w := ⟨_, hw, (Expr.labeledBy_of_op? hop _).mpr rfl⟩
      rw [List.filter_cons_of_neg (by simp [Step.isBracket, hclosing])]
      exact ⟨.inr ⟨w, x, xs, rfl, rfl, hclosing⟩, .cons hlabels hpushed⟩

end Reading

open Trivariate.Reading

/-- Where every closing bracket comes right behind a symbol and no operation is variadic, the brackets
say nothing: without them the text is read as the same expression, under the same limit. -/
theorem parsePolish_unbracketed (set : Settings) (source : String) {e : Expr}
    (h : parse set source = .ok e) (hfixed : ∀ a ∈ e.postorder, ∀ o ∈ a.op?, o.arity ≠ .variadic)
    (hchain : ClosesBehindSymbols (scan source)) :
    parsePolish set (unbracketed source) = .ok e := by
  have hallowed : Allows set e := allows_of_parse h
  obtain ⟨s, hrun, -, hpending, a, hoperands, rfl⟩ := Brackets.exists_run_of_parse h
  have hshape := Scan.shape_of_mem_scan source
  obtain ⟨-, hlabels⟩ := labels_pushed hshape hchain hrun hpending .nil
  rw [map_snd_pushed hrun, hoperands, List.reverse_singleton, List.flatMap_singleton,
    List.nil_append, ← scan_unbracketed] at hlabels
  have hcounts : a.expr.Fixed := by
    intro b hb o ho
    cases harity : o.arity with
    | fixed n => rw [← harity, Expr.arity_of_fixed ho harity]
    | variadic => exact absurd harity (hfixed b hb o ho)
  exact Polish.read_iff.mpr
    ⟨hlabels, forall_admits_iff.mpr ⟨hallowed.ops, hcounts, hallowed.depth_le⟩⟩

theorem parsePolish_unbracketed_lending :
    unbracketed "x ((y negate) -1+) (*)" = "x   y negate  -1+   * " ∧
    parsePolish ⟨.standard, 3⟩ (unbracketed "x ((y negate) -1+) (*)") =
      .ok (.mul (.var .x) (.add (.negate (.var .y)) (.const (-1)))) := by
  refine ⟨by decide +kernel, parsePolish_unbracketed _ _ ?_ (by decide) (by decide +kernel)⟩
  decide +kernel

end Trivariate
