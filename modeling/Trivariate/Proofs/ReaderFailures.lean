import Trivariate.Proofs.BracketMoves

/-! How a reading fails: at the first step that its reader refuses, or behind the last step for want
of a result. The reasons are listed once for each reader. -/

namespace Trivariate.Reading

section Runs

variable {σ : Type} {s : σ} {e : ParseError}

theorem advance_eq_error_iff {next : Reader σ} {x : Step} :
    advance next s x = .error e ↔ next s x = .error e := by
  unfold advance
  cases next s x <;> simp [Except.map]

theorem exists_of_foldlM_eq_error {f : σ → Step → Except ParseError σ} {xs : List Step}
    (h : xs.foldlM f s = .error e) :
    ∃ front x back t, xs = front ++ x :: back ∧ front.foldlM f s = .ok t ∧ f t x = .error e := by
  induction xs generalizing s with
  | nil => cases h
  | cons x xs ih =>
    cases hx : f s x with
    | error e' =>
      rw [foldlM_cons_of_error hx] at h
      exact ⟨[], x, xs, s, rfl, rfl, hx.trans h⟩
    | ok t =>
      rw [foldlM_cons_of_ok hx] at h
      obtain ⟨front, y, back, t', rfl, hfront, hy⟩ := ih h
      exact ⟨x :: front, y, back, t', rfl, (foldlM_cons_of_ok hx front).trans hfront, hy⟩

theorem exists_of_reading_eq_error {next : Reader σ} {result : σ → Except ParseError Expr}
    {xs : List Step} (h : (xs.foldlM (advance next) s).bind result = .error e) :
    (∃ front x back t, xs = front ++ x :: back ∧ front.foldlM (advance next) s = .ok t ∧
      next t x = .error e) ∨
    ∃ t, xs.foldlM (advance next) s = .ok t ∧ result t = .error e := by
  cases hrun : xs.foldlM (advance next) s with
  | error e' =>
    rw [hrun] at h
    obtain rfl : e' = e := Except.error.inj h
    obtain ⟨front, x, back, t, hxs, hfront, hx⟩ := exists_of_foldlM_eq_error hrun
    exact .inl ⟨front, x, back, t, hxs, hfront, advance_eq_error_iff.mp hx⟩
  | ok t =>
    rw [hrun] at h
    exact .inr ⟨t, rfl, h⟩

end Runs

namespace Brackets

inductive Refuses (set : Settings) (s : Brackets) (x : Step) : ParseError → Prop
  | unknown (hrole : x.lexeme.role set.catalog = .unknown) : Refuses set s x (unknown x)
  | unpaired (hlexeme : x.lexeme = .token .closing) (hgroups : s.groups = []) :
      Refuses set s x (.unpairedBracket ')' x.span.position)
  | idle (hlexeme : x.lexeme = .token .closing) (hgroups : s.groups ≠ []) (hpending : s.pending = []) :
      Refuses set s x (.missingOperation x.span.position)
  | short {g : Group} {outer : List Group} {p : Pending} {waiting : List Pending}
      (hlexeme : x.lexeme = .token .closing) (hgroups : s.groups = g :: outer)
      (hpending : s.pending = p :: waiting)
      (hlt : s.operands.length < p.op.arity.required g.count) :
      Refuses set s x (.missingOperand p.op p.position (p.op.arity.required g.count) s.operands.length)
  | overfull {g : Group} {outer : List Group} {p : Pending} {waiting : List Pending}
      (hlexeme : x.lexeme = .token .closing) (hgroups : s.groups = g :: outer)
      (hpending : s.pending = p :: waiting) (hlt : p.op.arity.required g.count < g.count) :
      Refuses set s x (.missingOperation x.span.position)
  | deep {g : Group} {outer : List Group} {p : Pending} {waiting : List Pending} {n : Nat}
      (hlexeme : x.lexeme = .token .closing) (hgroups : s.groups = g :: outer)
      (hpending : s.pending = p :: waiting) (hn : n = p.op.arity.required g.count)
      (hheld : g.count ≤ n) (hle : n ≤ s.operands.length)
      (hlimit : set.limit < Expr.deeper ((Operand.newest n s.operands).map Operand.depth)) :
      Refuses set s x (.tooDeep set.limit x.span.position)

inductive Lacks (s : Brackets) (stop : Nat) : ParseError → Prop
  | unclosed {g : Group} (hgroups : s.groups.getLast? = some g) :
      Lacks s stop (.unpairedBracket '(' (g.offset + 1))
  | waiting {p : Pending} {waiting : List Pending} (hgroups : s.groups = [])
      (hpending : s.pending = p :: waiting) :
      Lacks s stop (.missingOperand p.op p.position (p.op.arity.required 0) s.operands.length)
  | uncombined (hgroups : s.groups = []) (hpending : s.pending = []) (hoperands : s.operands.length ≠ 1) :
      Lacks s stop (.missingOperation stop)

variable {set : Settings} {s : Brackets} {x : Step} {e : ParseError}

theorem refuses_of_closeGroup (hlexeme : x.lexeme = .token .closing)
    (h : s.closeGroup set.limit x.span.position = .error e) : Refuses set s x e := by
  unfold closeGroup at h
  split at h
  next hgroups =>
    cases h
    exact .unpaired hlexeme hgroups
  next hgroups hpending =>
    cases h
    exact .idle hlexeme (by simp [hgroups]) hpending
  next g outer p waiting hgroups hpending =>
    dsimp only at h
    split at h
    next hle =>
      split at h
      next hlt =>
        cases h
        exact .overfull hlexeme hgroups hpending hlt
      next hheld =>
        split at h
        next hlimit =>
          cases h
          exact .deep hlexeme hgroups hpending rfl (Nat.not_lt.mp hheld) hle hlimit
        next => cases h
    next hlt =>
      cases h
      exact .short hlexeme hgroups hpending (Nat.not_le.mp hlt)

theorem refuses_of_step (h : step set s x = .error e) : Refuses set s x e := by
  unfold step at h
  split at h
  next => cases h
  next => cases h
  next => cases h
  next hrole => exact refuses_of_closeGroup (Lexeme.eq_closing_of_role hrole) h
  next hrole =>
    cases h
    exact .unknown hrole

theorem lacks_of_result {stop : Nat} (h : s.result stop = .error e) : s.Lacks stop e := by
  unfold result at h
  split at h
  next g hgroups =>
    cases h
    exact .unclosed hgroups
  next p waiting hgroups hpending =>
    cases h
    exact .waiting (List.getLast?_eq_none_iff.mp hgroups) hpending
  next => cases h
  next hgroups hpending hoperands =>
    cases h
    refine .uncombined (List.getLast?_eq_none_iff.mp hgroups) hpending fun hlength => ?_
    obtain ⟨a, ha⟩ := List.length_eq_one_iff.mp hlength
    exact hoperands a ha

theorem refuses_or_lacks {source : String} (h : (readBracketed set source).2 = .error e) :
    (∃ front x back s, scan source = front ++ x :: back ∧
      front.foldlM (advance (step set)) {} = .ok s ∧ Refuses set s x e) ∨
    ∃ s, (scan source).foldlM (advance (step set)) {} = .ok s ∧ s.Lacks (positionAfter source) e := by
  rw [snd_readBracketed] at h
  rcases exists_of_reading_eq_error h with ⟨front, x, back, s, hscan, hfront, hx⟩ | ⟨s, hrun, hs⟩
  · exact .inl ⟨front, x, back, s, hscan, hfront, refuses_of_step hx⟩
  · exact .inr ⟨s, hrun, lacks_of_result hs⟩

end Brackets

namespace Polish

inductive Refuses (set : Settings) (s : Stack) (x : Step) : ParseError → Prop
  | unknown (hrole : x.lexeme.role set.catalog = .unknown) : Refuses set s x (unknown x)
  | variadic {o : VariadicOp} (hrole : x.lexeme.role set.catalog = .operation (.variadic o)) :
      Refuses set s x (Reading.unknown x)
  | opening (hlexeme : x.lexeme = .token .opening) :
      Refuses set s x (.unpairedBracket '(' x.span.position)
  | closing (hlexeme : x.lexeme = .token .closing) :
      Refuses set s x (.unpairedBracket ')' x.span.position)
  | short {o : Op} {n : Nat} (hrole : x.lexeme.role set.catalog = .operation o)
      (harity : o.arity = .fixed n) (hlt : s.length < n) :
      Refuses set s x (.missingOperand o x.span.position n s.length)
  | deep {o : Op} {n : Nat} (hrole : x.lexeme.role set.catalog = .operation o)
      (harity : o.arity = .fixed n) (hle : n ≤ s.length)
      (hlimit : set.limit < Expr.deeper ((Operand.newest n s).map Operand.depth)) :
      Refuses set s x (.tooDeep set.limit x.span.position)

variable {set : Settings} {s : Stack} {x : Step} {e : ParseError}

theorem refuses_of_apply {o : Op} {n : Nat} (hrole : x.lexeme.role set.catalog = .operation o)
    (harity : o.arity = .fixed n) (h : apply set.limit s o x.span.position = .error e) :
    Refuses set s x e := by
  have hrequired : o.arity.required 0 = n := by rw [harity, Arity.required]
  unfold apply at h
  dsimp only at h
  split at h
  next hle =>
    split at h
    next hlimit =>
      cases h
      exact .deep hrole harity (hrequired ▸ hle) (hrequired ▸ hlimit)
    next => cases h
  next hlt =>
    cases h
    rw [hrequired] at hlt ⊢
    exact .short hrole harity (Nat.not_le.mp hlt)

theorem refuses_of_step (h : step set s x = .error e) : Refuses set s x e := by
  unfold step at h
  split at h
  next => cases h
  next o hrole =>
    cases h
    exact .variadic hrole
  next o hvariadic hrole =>
    rcases o with o | o | o
    · exact refuses_of_apply hrole rfl h
    · exact refuses_of_apply hrole rfl h
    · exact absurd rfl (hvariadic o)
  next hrole =>
    cases h
    exact .opening (Lexeme.eq_opening_of_role hrole)
  next hrole =>
    cases h
    exact .closing (Lexeme.eq_closing_of_role hrole)
  next hrole =>
    cases h
    exact .unknown hrole

theorem eq_missingOperation_of_result {stop : Nat} (h : result s stop = .error e) :
    e = .missingOperation stop ∧ s.length ≠ 1 := by
  unfold result at h
  split at h
  next => cases h
  next hs =>
    refine ⟨(Except.error.inj h).symm, fun hlength => ?_⟩
    obtain ⟨a, ha⟩ := List.length_eq_one_iff.mp hlength
    exact hs a ha

theorem refuses_or_missingOperation {source : String} (h : (readPolish set source).2 = .error e) :
    (∃ front x back s, scan source = front ++ x :: back ∧
      front.foldlM (advance (step set)) [] = .ok s ∧ Refuses set s x e) ∨
    ∃ s, (scan source).foldlM (advance (step set)) [] = .ok s ∧
      e = .missingOperation (positionAfter source) ∧ s.length ≠ 1 := by
  rw [snd_readPolish] at h
  rcases exists_of_reading_eq_error h with ⟨front, x, back, s, hscan, hfront, hx⟩ | ⟨s, hrun, hs⟩
  · exact .inl ⟨front, x, back, s, hscan, hfront, refuses_of_step hx⟩
  · exact .inr ⟨s, hrun, eq_missingOperation_of_result hs⟩

end Polish
end Trivariate.Reading
