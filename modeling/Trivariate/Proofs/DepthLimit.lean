import Trivariate.Proofs.OperandRecord
import Trivariate.Proofs.ParallelStacks

/-! The limit on the depth as a filter. A run under a lower limit does what one under a higher limit
does, up to the first node that is too deep for it, and there it fails at the token that completes
this node. -/

namespace Trivariate.Reading

section Runs

variable {σ : Type} {limit : Nat} {f f' : σ → Step → Except ParseError σ} {s s' : σ}

theorem tooDeep_or_eq_of_steps
    (h : ∀ s x, (∃ p, f s x = .error (.tooDeep limit p)) ∨ f s x = f' s x) (xs : List Step) (s : σ) :
    (∃ p, xs.foldlM f s = .error (.tooDeep limit p)) ∨ xs.foldlM f s = xs.foldlM f' s := by
  induction xs generalizing s with
  | nil => exact .inr rfl
  | cons x xs ih =>
    rcases h s x with ⟨p, hp⟩ | heq
    · exact .inl ⟨p, foldlM_cons_of_error hp xs⟩
    · cases hx : f s x with
      | error e =>
        rw [foldlM_cons_of_error hx, foldlM_cons_of_error (heq.symm.trans hx)]
        exact .inr rfl
      | ok t =>
        rw [foldlM_cons_of_ok hx, foldlM_cons_of_ok (heq.symm.trans hx)]
        exact ih t

def firstTooDeep (limit : Nat) (made : List (Step × Expr)) : Option (Step × Expr) :=
  made.find? fun p => limit < p.2.depth

/-- A run that completes some expressions, each at a step of its own, and fails only at one that is too
deep for the limit. -/
inductive Makes (limit : Nat) (f : σ → Step → Except ParseError σ) :
    σ → List Step → List (Step × Expr) → σ → Prop
  | nil (s : σ) : Makes limit f s [] [] s
  | pass {s t s' : σ} {x : Step} {xs : List Step} {made : List (Step × Expr)} (hx : f s x = .ok t)
      (hrest : Makes limit f t xs made s') : Makes limit f s (x :: xs) made s'
  | make {s t s' : σ} {x : Step} {a : Expr} {xs : List Step} {made : List (Step × Expr)}
      (hx : f s x = if limit < a.depth then .error (.tooDeep limit x.span.position) else .ok t)
      (hrest : Makes limit f t xs made s') : Makes limit f s (x :: xs) ((x, a) :: made) s'

theorem Makes.run {xs : List Step} {made : List (Step × Expr)} (h : Makes limit f s xs made s') :
    xs.foldlM f s =
      match firstTooDeep limit made with
      | none => .ok s'
      | some p => .error (.tooDeep limit p.1.span.position) := by
  induction h with
  | nil => rfl
  | pass hx _ ih => rw [foldlM_cons_of_ok hx, ih]
  | @make s t s' x a xs made hx _ ih =>
    by_cases hdeep : limit < a.depth
    · rw [if_pos hdeep] at hx
      have hfirst : firstTooDeep limit ((x, a) :: made) = some (x, a) :=
        List.find?_cons_of_pos (decide_eq_true hdeep)
      rw [foldlM_cons_of_error hx, hfirst]
    · rw [if_neg hdeep] at hx
      have hfirst : firstTooDeep limit ((x, a) :: made) = firstTooDeep limit made :=
        List.find?_cons_of_neg (by simpa using hdeep)
      rw [foldlM_cons_of_ok hx, ih, hfirst]

end Runs

section Outcome

variable {limit : Nat} {made : List (Step × Expr)} {e : Expr}

theorem firstTooDeep_eq_none (hmade : made.map Prod.snd = e.postorder) (h : e.depth ≤ limit) :
    firstTooDeep limit made = none := by
  refine List.find?_eq_none.mpr fun p hp => ?_
  have hpart : p.2 ∈ e.postorder := hmade ▸ List.mem_map_of_mem hp
  have hdepth := (Expr.depth_le_of_mem_postorder hpart).trans h
  simpa using hdepth

theorem exists_firstTooDeep (hmade : made.map Prod.snd = e.postorder) (h : limit < e.depth) :
    ∃ p, firstTooDeep limit made = some p := by
  have hroot : e ∈ made.map Prod.snd := hmade ▸ e.mem_postorder_self
  obtain ⟨p, hp, rfl⟩ := List.mem_map.mp hroot
  exact Option.isSome_iff_exists.mp (List.find?_isSome.mpr ⟨p, hp, decide_eq_true h⟩)

end Outcome

namespace Brackets

variable {c : Catalog} {limit limit' position : Nat} {s s' : Brackets}

theorem closeGroup_tooDeep_or_eq (h : limit ≤ limit') (s : Brackets) (position : Nat) :
    s.closeGroup limit position = .error (.tooDeep limit position) ∨
      s.closeGroup limit position = s.closeGroup limit' position := by
  unfold closeGroup
  split
  next => exact .inr rfl
  next => exact .inr rfl
  next g outer p waiting _ _ =>
    by_cases hle : p.op.arity.required g.count ≤ s.operands.length
    · simp only [dif_pos hle]
      split
      next => exact .inr rfl
      next =>
        by_cases hdeep : limit <
            (Operand.node p.op (Operand.newest _ s.operands) (Operand.accepts_newest hle)).depth
        · exact .inl (if_pos hdeep)
        · rw [if_neg hdeep, if_neg fun hlt => hdeep (h.trans_lt hlt)]
          exact .inr rfl
    · exact .inr (by simp only [dif_neg hle])

theorem step_tooDeep_or_eq (h : limit ≤ limit') (s : Brackets) (x : Step) :
    (∃ p, advance (step ⟨c, limit⟩) s x = .error (.tooDeep limit p)) ∨
      advance (step ⟨c, limit⟩) s x = advance (step ⟨c, limit'⟩) s x := by
  unfold advance step
  cases x.lexeme.role c with
  | operand e => exact .inr rfl
  | operation o => exact .inr rfl
  | opening => exact .inr rfl
  | unknown => exact .inr rfl
  | closing =>
    rcases closeGroup_tooDeep_or_eq h s x.span.position with hdeep | heq
    · exact .inl ⟨x.span.position, congrArg (Except.map Prod.fst) hdeep⟩
    · exact .inr (congrArg (Except.map Prod.fst) heq)

theorem closeGroup_of_ok {o : Op} {n : Nat} {e : Expr}
    (h : s.closeGroup limit' position = .ok (s', [.closing o n, .operand e])) (limit : Nat) :
    ∃ a ∈ s'.operands, a.expr = e ∧
      s.closeGroup limit position =
        if limit < a.depth then .error (.tooDeep limit position)
        else .ok (s', [.closing o n, .operand e]) := by
  unfold closeGroup at h
  split at h
  next => cases h
  next => cases h
  next g outer p waiting hgroups hpending =>
    dsimp only at h
    split at h
    next hle =>
      split at h
      next => cases h
      next hheld =>
        rw [closeGroup_node hgroups hpending hle (Nat.not_lt.mp hheld)]
        split at h
        next => cases h
        next =>
          cases h
          refine ⟨_, ?_, rfl, rfl⟩
          rw [operands_push]
          exact List.mem_cons_self ..
    next => cases h

theorem advance_closing_of_ok {x : Step} {o : Op} {n : Nat} {e : Expr}
    (hx : x.lexeme = .token .closing) (hs' : s'.InStep ⟨c, limit'⟩)
    (h : step ⟨c, limit'⟩ s x = .ok (s', [.closing o n, .operand e])) (limit : Nat) :
    advance (step ⟨c, limit⟩) s x =
      if limit < e.depth then .error (.tooDeep limit x.span.position) else .ok s' := by
  rw [step, hx] at h
  obtain ⟨a, ha, rfl, hclose⟩ := closeGroup_of_ok h limit
  rw [advance_closing hx, hclose, (hs'.operands a ha).1]
  split <;> rfl

theorem makes_of_run {xs : List Step} (hs : s.InStep ⟨c, limit'⟩)
    (h : xs.foldlM (advance (step ⟨c, limit'⟩)) s = .ok s') (limit : Nat) :
    Makes limit (advance (step ⟨c, limit⟩)) s xs (pushed (told (step ⟨c, limit'⟩) s xs)) s' := by
  induction xs generalizing s with
  | nil =>
    obtain rfl : s = s' := Except.ok.inj h
    exact .nil s
  | cons x xs ih =>
    obtain ⟨t, events, hstep, h⟩ := foldlM_cons_eq_ok_iff.mp h
    have hmove := move_of_step hstep
    have ht := hmove.inStep hs
    have hrest := ih ht h
    rw [told_cons hstep, pushed_append]
    cases hmove with
    | @operand e hrole =>
      have hdepth : ¬ limit < e.depth := by
        rw [Expr.depth_leaf (Lexeme.op?_of_role hrole)]
        exact Nat.not_lt_zero _
      have hpush : advance (step ⟨c, limit⟩) s x = .ok (s.push (.leaf e)) := by
        rw [advance, step, hrole]
        rfl
      exact .make (hpush.trans (if_neg hdepth).symm) hrest
    | operation hrole =>
      refine .pass ?_ hrest
      rw [advance, step, hrole]
      rfl
    | opening hlexeme => exact .pass (advance_opening hlexeme s) hrest
    | closing hlexeme => exact .make (advance_closing_of_ok hlexeme ht hstep limit) hrest

end Brackets

namespace Polish

variable {c : Catalog} {limit limit' : Nat}

theorem apply_tooDeep_or_eq (h : limit ≤ limit') (s : Stack) (o : Op) (position : Nat) :
    apply limit s o position = .error (.tooDeep limit position) ∨
      apply limit s o position = apply limit' s o position := by
  unfold apply
  by_cases hle : o.arity.required 0 ≤ s.length
  · simp only [dif_pos hle]
    by_cases hdeep : limit <
        (Operand.node o (Operand.newest _ s) (Operand.accepts_newest hle)).depth
    · exact .inl (if_pos hdeep)
    · rw [if_neg hdeep, if_neg fun hlt => hdeep (h.trans_lt hlt)]
      exact .inr rfl
  · exact .inr (by simp only [dif_neg hle])

theorem step_tooDeep_or_eq (h : limit ≤ limit') (s : Stack) (x : Step) :
    (∃ p, advance (step ⟨c, limit⟩) s x = .error (.tooDeep limit p)) ∨
      advance (step ⟨c, limit⟩) s x = advance (step ⟨c, limit'⟩) s x := by
  have happly : ∀ o, (∃ p, (apply limit s o x.span.position).map Prod.fst =
        .error (.tooDeep limit p)) ∨
      (apply limit s o x.span.position).map Prod.fst =
        (apply limit' s o x.span.position).map Prod.fst := by
    intro o
    rcases apply_tooDeep_or_eq h s o x.span.position with hdeep | heq
    · exact .inl ⟨x.span.position, congrArg (Except.map Prod.fst) hdeep⟩
    · exact .inr (congrArg (Except.map Prod.fst) heq)
  unfold advance step
  cases x.lexeme.role c with
  | operand e => exact .inr rfl
  | operation o =>
    rcases o with o | o | o
    · exact happly (.unary o)
    · exact happly (.binary o)
    · exact .inr rfl
  | opening => exact .inr rfl
  | closing => exact .inr rfl
  | unknown => exact .inr rfl

theorem Builds.makes {es as es' : List Expr} {xs : List Step} (h : Builds es xs as es')
    (has : ∀ a ∈ as, ∀ o ∈ a.op?, o ∈ c.ops ∧ o.arity = .fixed a.operands.length) (limit : Nat) :
    Makes limit (advance (step ⟨c, limit⟩)) (stack es) xs (xs.zip as) (stack es') := by
  induction h with
  | nil es => exact .nil (stack es)
  | @cons below es as a x xs hx _ ih =>
    obtain ⟨ha, has⟩ := List.forall_mem_cons.mp has
    exact .make (advance_of_labels hx ha below) (ih has)

end Polish

def Form.completing : Form → Step → Bool
  | .bracketed, x => x.isOperand || x.isClosing
  | .polish, _ => true

def Form.Completes : Form → Step → Expr → Prop
  | .bracketed, x, a => Labels a x ∧ a.isLeaf = true ∨ x.lexeme = .token .closing ∧ a.isLeaf = false
  | .polish, x, a => Labels a x

theorem Brackets.completes_of_run {set : Settings} {xs : List Step} {s : Brackets}
    (hshape : ∀ x ∈ xs, ∀ t, x.lexeme = .token t → t.Shape)
    (h : xs.foldlM (advance (step set)) {} = .ok s) :
    (pushed (told (step set) {} xs)).map Prod.fst = xs.filter Form.bracketed.completing ∧
      ∀ p ∈ pushed (told (step set) {} xs), Form.bracketed.Completes p.1 p.2 := by
  refine invariant_of_run (P := fun read _ record =>
    (pushed record).map Prod.fst = read.filter Form.bracketed.completing ∧
      ∀ p ∈ pushed record, Form.bracketed.Completes p.1 p.2) ⟨rfl, List.forall_mem_nil _⟩ ?_ h
  intro read x t record t' events hread ⟨hfst, hall⟩ hx
  have hx' := hshape x (hread.subset (List.mem_append_right _ (List.mem_singleton_self x)))
  rw [pushed_append, List.map_append, List.filter_append, hfst, List.forall_mem_append]
  cases move_of_step hx with
  | @operand e hrole =>
    obtain ⟨he, hlabels, hoperand, -⟩ := kinds_operand hx' hrole
    rw [List.filter_cons_of_pos (by simp [Form.completing, hoperand])]
    exact ⟨rfl, hall, List.forall_mem_singleton.mpr (.inl ⟨hlabels, Expr.isLeaf_leaf he⟩)⟩
  | operation hrole =>
    obtain ⟨-, hoperand, -, hclosing⟩ := kinds_operation hx' hrole
    rw [List.filter_cons_of_neg (by simp [Form.completing, hoperand, hclosing])]
    exact ⟨rfl, hall, List.forall_mem_nil _⟩
  | opening hlexeme =>
    obtain ⟨hoperand, -, hclosing⟩ := Step.kinds_opening hlexeme
    rw [List.filter_cons_of_neg (by simp [Form.completing, hoperand, hclosing])]
    exact ⟨rfl, hall, List.forall_mem_nil _⟩
  | closing hlexeme _ _ _ _ _ hop =>
    obtain ⟨-, -, hclosing⟩ := Step.kinds_closing hlexeme
    rw [List.filter_cons_of_pos (by simp [Form.completing, hclosing])]
    exact ⟨rfl, hall, List.forall_mem_singleton.mpr (.inr ⟨hlexeme, Expr.isLeaf_node hop⟩)⟩

section Results

variable {c : Catalog} {limit' : Nat} {source : String} {e : Expr}

theorem readBracketed_limit (h : (readBracketed ⟨c, limit'⟩ source).2 = .ok e) (limit : Nat) :
    (pushes ⟨c, limit'⟩ source).map Prod.fst = (scan source).filter Form.bracketed.completing ∧
      (pushes ⟨c, limit'⟩ source).map Prod.snd = e.postorder ∧
      (∀ p ∈ pushes ⟨c, limit'⟩ source, Form.bracketed.Completes p.1 p.2) ∧
      (readBracketed ⟨c, limit⟩ source).2 =
        match firstTooDeep limit (pushes ⟨c, limit'⟩ source) with
        | none => .ok e
        | some p => .error (.tooDeep limit p.1.span.position) := by
  have hshape := Scan.shape_of_mem_scan source
  obtain ⟨s, hrun, -, -, a, hoperands, rfl⟩ := Brackets.exists_run_of_parse h
  have hlisting := map_snd_pushed hrun
  rw [hoperands, List.reverse_singleton, List.flatMap_singleton] at hlisting
  obtain ⟨htokens, hall⟩ := Brackets.completes_of_run hshape hrun
  have hstart : Brackets.InStep ⟨c, limit'⟩ {} :=
    ⟨rfl, List.forall_mem_nil _, List.forall_mem_nil _⟩
  refine ⟨htokens, hlisting, hall, ?_⟩
  rw [snd_readBracketed, hrun] at h
  rw [snd_readBracketed, (Brackets.makes_of_run hstart hrun limit).run, pushes]
  split
  next => exact h
  next => rfl

theorem readPolish_limit (h : (readPolish ⟨c, limit'⟩ source).2 = .ok e) (limit : Nat) :
    ∃ made : List (Step × Expr), made.map Prod.fst = (scan source).filter Form.polish.completing ∧
      made.map Prod.snd = e.postorder ∧ (∀ p ∈ made, Form.polish.Completes p.1 p.2) ∧
      (readPolish ⟨c, limit⟩ source).2 =
        match firstTooDeep limit made with
        | none => .ok e
        | some p => .error (.tooDeep limit p.1.span.position) := by
  have hshape := Scan.shape_of_mem_scan source
  have hempty : ([] : Polish.Stack) = Polish.stack [] := rfl
  rw [snd_readPolish, hempty] at h
  cases hrun : (scan source).foldlM (advance (Polish.step ⟨c, limit'⟩)) (Polish.stack []) with
  | error e' =>
    rw [hrun] at h
    cases h
  | ok s =>
    obtain ⟨es, as, rfl, hbuilds, has⟩ := Polish.builds_of_run hshape hrun
    rw [hrun] at h
    obtain rfl : es = [e] := Polish.result_eq_ok_iff.mp h
    have hlisting : as = e.postorder := by simpa using hbuilds.flatMap_postorder.symm
    have hlabels := hbuilds.forall₂_labels
    have hlength := hlabels.length_eq
    refine ⟨(scan source).zip as, ?_, ?_, ?_, ?_⟩
    · rw [List.map_fst_zip hlength.ge]
      exact (List.filter_true _).symm
    · rw [List.map_snd_zip hlength.le, hlisting]
    · exact fun p hp => (List.forall₂_iff_zip.mp hlabels.flip).2 hp
    · have hmakes := (hbuilds.makes (fun a ha => (has a ha).1) limit).run
      rw [snd_readPolish, hempty, hmakes]
      split <;> rfl

theorem exists_made_of_read {form : Form} (h : (read form ⟨c, limit'⟩ source).2 = .ok e) (limit : Nat) :
    ∃ made : List (Step × Expr), (form = .bracketed → made = pushes ⟨c, limit'⟩ source) ∧
      made.map Prod.fst = (scan source).filter form.completing ∧ made.map Prod.snd = e.postorder ∧
      (∀ p ∈ made, form.Completes p.1 p.2) ∧
      (read form ⟨c, limit⟩ source).2 =
        match firstTooDeep limit made with
        | none => .ok e
        | some p => .error (.tooDeep limit p.1.span.position) := by
  cases form with
  | bracketed => exact ⟨_, fun _ => rfl, readBracketed_limit h limit⟩
  | polish =>
    obtain ⟨made, hmade⟩ := readPolish_limit h limit
    exact ⟨made, nofun, hmade⟩

theorem read_tooDeep_or_eq (form : Form) (c : Catalog) (source : String) {limit limit' : Nat}
    (h : limit ≤ limit') :
    (∃ p, (read form ⟨c, limit⟩ source).2 = .error (.tooDeep limit p)) ∨
      (read form ⟨c, limit⟩ source).2 = (read form ⟨c, limit'⟩ source).2 := by
  cases form with
  | bracketed =>
    simp only [read, snd_readBracketed]
    rcases tooDeep_or_eq_of_steps (Brackets.step_tooDeep_or_eq (c := c) h) (scan source) {} with
      ⟨p, hp⟩ | heq
    · exact .inl ⟨p, by rw [hp]; rfl⟩
    · exact .inr (by rw [heq])
  | polish =>
    simp only [read, snd_readPolish]
    rcases tooDeep_or_eq_of_steps (Polish.step_tooDeep_or_eq (c := c) h) (scan source) [] with
      ⟨p, hp⟩ | heq
    · exact .inl ⟨p, by rw [hp]; rfl⟩
    · exact .inr (by rw [heq])

end Results

/-- The limit on the depth is a filter. What is read under a lower limit, or fails there for another
reason than the depth, is the same under a higher one. Of what is read under the higher limit the
lower one lets pass what is not too deep, and refuses the rest at the token that completes the first
part, in postorder, that is. -/
theorem read_limit (form : Form) (c : Catalog) (source : String) {limit limit' : Nat}
    (h : limit ≤ limit') :
    ((∀ l p, (read form ⟨c, limit⟩ source).2 ≠ .error (.tooDeep l p)) →
      (read form ⟨c, limit'⟩ source).2 = (read form ⟨c, limit⟩ source).2) ∧
    ∀ e, (read form ⟨c, limit'⟩ source).2 = .ok e →
      ∃ made : List (Step × Expr), (form = .bracketed → made = pushes ⟨c, limit'⟩ source) ∧
        made.map Prod.fst = (scan source).filter form.completing ∧ made.map Prod.snd = e.postorder ∧
        (∀ p ∈ made, form.Completes p.1 p.2) ∧
        (e.depth ≤ limit → (read form ⟨c, limit⟩ source).2 = .ok e) ∧
        (limit < e.depth → ∃ p, firstTooDeep limit made = some p ∧
          (read form ⟨c, limit⟩ source).2 = .error (.tooDeep limit p.1.span.position)) := by
  constructor
  · intro hother
    rcases read_tooDeep_or_eq form c source h with ⟨p, hp⟩ | heq
    · exact absurd hp (hother limit p)
    · exact heq.symm
  · intro e he
    obtain ⟨made, hpushes, htokens, hlisting, hall, hread⟩ := exists_made_of_read he limit
    refine ⟨made, hpushes, htokens, hlisting, hall, ?_, ?_⟩
    · intro hdepth
      rw [hread, firstTooDeep_eq_none hlisting hdepth]
    · intro hdepth
      obtain ⟨p, hp⟩ := exists_firstTooDeep hlisting hdepth
      exact ⟨p, hp, by rw [hread, hp]⟩

theorem read_limit_nested :
    (read .polish ⟨.standard, 5⟩ "x y negate").2 = .error (.missingOperation 11) ∧
    ∃ made : List (Step × Expr), made.map Prod.snd =
        (Expr.add (.negate (.var .x)) (.sum [.negate (.negate (.var .y))])).postorder ∧
      firstTooDeep 2 made = some
        (⟨.token .closing, ⟨38, 39⟩⟩, .sum [.negate (.negate (.var .y))]) ∧
      (read .bracketed ⟨.standard, 2⟩ "(+ (negate x) (sum (negate (negate y))))").2 =
        .error (.tooDeep 2 39) := by
  constructor
  · have hsame := (read_limit .polish .standard "x y negate" (show 1 ≤ 5 by decide)).1
    exact hsame fun _ _ => nofun
  · have hlimit := (read_limit .bracketed .standard "(+ (negate x) (sum (negate (negate y))))"
      (show 2 ≤ 4 by decide)).2
    obtain ⟨made, hpushes, -, hlisting, -, -, hdeep⟩ := hlimit _ rfl
    obtain ⟨p, hp, hread⟩ := hdeep (by decide)
    obtain rfl := hpushes rfl
    obtain rfl := Option.some.inj hp
    exact ⟨_, hlisting, rfl, hread⟩

end Trivariate.Reading
