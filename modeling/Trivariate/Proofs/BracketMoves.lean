import Trivariate.Proofs.BracketedReading

/-! What a step of the reading of bracketed text can do: it brings a leaf, lets an operation wait,
opens a group or closes one over a node. What a run keeps is shown once for these four moves. -/

namespace Trivariate

theorem isFinite_of_literal? {s : String} {v : Float} (h : literal? s = some v) :
    Binary64.isFinite v = true := by
  rw [literal?, Option.filter_eq_some_iff] at h
  exact h.2

namespace Lexeme

variable {c : Catalog} {l : Lexeme}

theorem eq_opening_of_role (h : l.role c = .opening) :
    l = .token .opening := by
  unfold role Token.role Role.ofWord Role.ofNumber at h
  split at h
  · repeat' split at h
    all_goals first | rfl | cases h
  · cases h

theorem eq_closing_of_role (h : l.role c = .closing) :
    l = .token .closing := by
  unfold role Token.role Role.ofWord Role.ofNumber at h
  split at h
  · repeat' split at h
    all_goals first | rfl | cases h
  · cases h

theorem leaf_of_role {e : Expr} (h : l.role c = .operand e) :
    (∃ v, e = .var v) ∨ ∃ v, e = .const v ∧ Binary64.isFinite v = true := by
  cases l with
  | stray d => cases h
  | token t =>
    rcases Token.role_word c t with hword | ⟨s, rfl⟩ | rfl | rfl
    · obtain ⟨v, rfl, -⟩ := Role.ofWord_eq_operand (hword.symm.trans h)
      exact .inl ⟨v, rfl⟩
    · obtain ⟨v, rfl, hv⟩ := Role.ofNumber_eq_operand h
      exact .inr ⟨v, rfl, isFinite_of_literal? hv⟩
    · cases h
    · cases h

theorem op?_of_role {e : Expr} (h : l.role c = .operand e) : e.op? = none := by
  rcases leaf_of_role h with ⟨v, rfl⟩ | ⟨v, rfl, -⟩ <;> rfl

theorem mem_ops_of_role {o : Op} (h : l.role c = .operation o) : o ∈ c.ops := by
  cases l with
  | stray d => cases h
  | token t =>
    rcases Token.role_word c t with hword | ⟨s, rfl⟩ | rfl | rfl
    · exact (Role.ofWord_eq_operation (hword.symm.trans h)).1
    · exact absurd h (Token.ofNumber_ne_operation s o)
    · cases h
    · cases h

end Lexeme

namespace Reading

section Records

variable {σ : Type} {next : Reader σ} {s s' : σ} {xs : List Step}

/-- The record of a run up to its first failure, each event with the step that it is told of. -/
def told (next : Reader σ) (s : σ) : List Step → List (Step × Event)
  | [] => []
  | x :: xs =>
    match next s x with
    | .error _ => []
    | .ok (s', events) => events.map (x, ·) ++ told next s' xs

theorem advance_eq_ok_iff {x : Step} :
    advance next s x = .ok s' ↔ ∃ events, next s x = .ok (s', events) := by
  unfold advance
  cases next s x with
  | error e => simp [Except.map]
  | ok out => simp [Except.map, Prod.ext_iff]

theorem foldlM_cons_eq_ok_iff {x : Step} :
    (x :: xs).foldlM (advance next) s = .ok s' ↔
      ∃ t events, next s x = .ok (t, events) ∧ xs.foldlM (advance next) t = .ok s' := by
  cases hx : next s x with
  | error e =>
    rw [foldlM_cons_of_error (by rw [advance, hx]; rfl)]
    simp
  | ok out =>
    rw [foldlM_cons_of_ok (advance_eq_ok_iff.mpr ⟨out.2, hx⟩)]
    simp [Prod.ext_iff]

theorem told_cons {x : Step} {events : List Event} (h : next s x = .ok (s', events))
    (xs : List Step) : told next s (x :: xs) = events.map (x, ·) ++ told next s' xs := by
  rw [told, h]

theorem told_append (h : xs.foldlM (advance next) s = .ok s') (ys : List Step) :
    told next s (xs ++ ys) = told next s xs ++ told next s' ys := by
  induction xs generalizing s with
  | nil =>
    obtain rfl : s = s' := Except.ok.inj h
    rfl
  | cons x xs ih =>
    obtain ⟨t, events, hx, h⟩ := foldlM_cons_eq_ok_iff.mp h
    rw [List.cons_append, told_cons hx, told_cons hx, ih h, List.append_assoc]

theorem mem_of_mem_told {x : Step} {e : Event} (h : (x, e) ∈ told next s xs) : x ∈ xs := by
  induction xs generalizing s with
  | nil => exact absurd h List.not_mem_nil
  | cons y ys ih =>
    unfold told at h
    split at h
    next => exact absurd h List.not_mem_nil
    next =>
      rcases List.mem_append.mp h with h | h
      · obtain ⟨_, _, heq⟩ := List.mem_map.mp h
        exact Prod.mk.inj heq |>.1 ▸ List.mem_cons_self ..
      · exact List.mem_cons_of_mem _ (ih h)

theorem foldlM_append_eq_ok_iff {ys : List Step} :
    (xs ++ ys).foldlM (advance next) s = .ok s' ↔
      ∃ t, xs.foldlM (advance next) s = .ok t ∧ ys.foldlM (advance next) t = .ok s' := by
  rw [List.foldlM_append]
  cases xs.foldlM (advance next) s with
  | error e =>
    constructor
    · rintro ⟨⟩
    · rintro ⟨_, ⟨⟩, _⟩
  | ok t =>
    constructor
    · intro h
      exact ⟨t, rfl, h⟩
    · rintro ⟨_, ht, h⟩
      rw [← Except.ok.inj ht] at h
      exact h

theorem foldlM_singleton_eq_ok_iff {x : Step} :
    [x].foldlM (advance next) s = .ok s' ↔ ∃ events, next s x = .ok (s', events) := by
  rw [← advance_eq_ok_iff, List.foldlM_cons]
  cases advance next s x <;> rfl

/-- What holds at the start and is kept by every step that does not fail holds of all that a run has
read, reached and told. -/
theorem invariant_of_run {P : List Step → σ → List (Step × Event) → Prop} (initial : P [] s [])
    (keep : ∀ read x t record t' events, read ++ [x] <+: xs → P read t record →
      next t x = .ok (t', events) → P (read ++ [x]) t' (record ++ events.map (x, ·)))
    (h : xs.foldlM (advance next) s = .ok s') : P xs s' (told next s xs) := by
  suffices hall : ∀ read, read <+: xs → ∀ t, read.foldlM (advance next) s = .ok t →
      P read t (told next s read) from hall xs List.prefix_rfl s' h
  -- a step is added at the end, where the record grows
  intro read
  induction read using List.reverseRecOn with
  | nil =>
    intro _ t ht
    rw [← Except.ok.inj ht]
    exact initial
  | append_singleton read x ih =>
    intro hread t' ht'
    obtain ⟨t, ht, hx⟩ := foldlM_append_eq_ok_iff.mp ht'
    obtain ⟨events, hx⟩ := foldlM_singleton_eq_ok_iff.mp hx
    have hrecord : told next t [x] = events.map (x, ·) := by
      rw [told_cons hx, told, List.append_nil]
    rw [told_append ht, hrecord]
    exact keep read x t _ t' events hread
      (ih ((List.prefix_append read [x]).trans hread) t ht) hx

end Records

namespace Operand

variable {o : Op} {args : List Operand}

theorem node?_map_expr (h : o.accepts args.length = true) :
    Expr.node? o (args.map expr) = some (node o args h).expr :=
  Expr.node?_eq_some_node (by rwa [List.length_map])

theorem op?_node (h : o.accepts args.length = true) : (node o args h).expr.op? = some o :=
  (Expr.node?_eq_some_iff.mp (node?_map_expr h)).1

theorem operands_node (h : o.accepts args.length = true) :
    (node o args h).expr.operands = args.map expr :=
  (Expr.node?_eq_some_iff.mp (node?_map_expr h)).2

end Operand

namespace Brackets

inductive Move (set : Settings) (s : Brackets) (x : Step) : Brackets → List Event → Prop
  | operand {e : Expr} (hrole : x.lexeme.role set.catalog = .operand e) :
      Move set s x (s.push (.leaf e)) [.operand e]
  | operation {o : Op} (hrole : x.lexeme.role set.catalog = .operation o) :
      Move set s x { s with pending := ⟨o, x.span.position⟩ :: s.pending }
        [.operator o x.span.position]
  | opening (hlexeme : x.lexeme = .token .opening) :
      Move set s x { s with groups := ⟨x.span.start, 0⟩ :: s.groups } []
  | closing {g : Group} {outer : List Group} {p : Pending} {waiting : List Pending} {n : Nat}
      {a : Operand} (hlexeme : x.lexeme = .token .closing) (hgroups : s.groups = g :: outer)
      (hpending : s.pending = p :: waiting) (hn : n = p.op.arity.required g.count)
      (hheld : g.count ≤ n) (hle : n ≤ s.operands.length) (hop : a.expr.op? = some p.op)
      (hoperands : a.expr.operands = (Operand.newest n s.operands).map Operand.expr)
      (hdepth : a.depth = Expr.deeper ((Operand.newest n s.operands).map Operand.depth))
      (hlimit : a.depth ≤ set.limit) :
      Move set s x
        (push ⟨s.operands.drop n, waiting, (lend s.loose (n - g.count) outer).1,
          (lend s.loose (n - g.count) outer).2⟩ a)
        [.closing p.op n, .operand a.expr]

variable {set : Settings} {s s' : Brackets} {x : Step} {events : List Event}

section Closing

variable {limit position : Nat} {g : Group} {outer : List Group} {p : Pending}
  {waiting : List Pending}

theorem closeGroup_short (hgroups : s.groups = g :: outer) (hpending : s.pending = p :: waiting)
    (hlt : s.operands.length < p.op.arity.required g.count) :
    s.closeGroup limit position = .error (.missingOperand p.op p.position
      (p.op.arity.required g.count) s.operands.length) := by
  simp only [closeGroup, hgroups, hpending]
  exact dif_neg (Nat.not_le.mpr hlt)

theorem closeGroup_overfull (hgroups : s.groups = g :: outer) (hpending : s.pending = p :: waiting)
    (hle : p.op.arity.required g.count ≤ s.operands.length)
    (hlt : p.op.arity.required g.count < g.count) :
    s.closeGroup limit position = .error (.missingOperation position) := by
  simp only [closeGroup, hgroups, hpending]
  rw [dif_pos hle, if_pos hlt]

theorem closeGroup_node (hgroups : s.groups = g :: outer) (hpending : s.pending = p :: waiting)
    (hle : p.op.arity.required g.count ≤ s.operands.length)
    (hheld : g.count ≤ p.op.arity.required g.count) :
    s.closeGroup limit position =
      let n := p.op.arity.required g.count
      let node := Operand.node p.op (Operand.newest n s.operands) (Operand.accepts_newest hle)
      if limit < node.depth then .error (.tooDeep limit position)
      else .ok (push ⟨s.operands.drop n, waiting, (lend s.loose (n - g.count) outer).1,
        (lend s.loose (n - g.count) outer).2⟩ node, [.closing p.op n, .operand node.expr]) := by
  simp only [closeGroup, hgroups, hpending]
  rw [dif_pos hle, if_neg (Nat.not_lt.mpr hheld)]

end Closing

theorem move_of_closeGroup (hlexeme : x.lexeme = .token .closing)
    (h : s.closeGroup set.limit x.span.position = .ok (s', events)) : Move set s x s' events := by
  unfold closeGroup at h
  split at h
  next => cases h
  next => cases h
  next g outer p waiting hgroups hpending =>
    dsimp only at h
    split at h
    next hle =>
      split at h
      next => cases h
      next hheld =>
        split at h
        next => cases h
        next hlimit =>
          cases h
          exact .closing hlexeme hgroups hpending rfl (Nat.not_lt.mp hheld) hle
            (Operand.op?_node _) (Operand.operands_node _) rfl (Nat.not_lt.mp hlimit)
    next => cases h

theorem move_of_step (h : step set s x = .ok (s', events)) : Move set s x s' events := by
  unfold step at h
  split at h
  next e hrole =>
    cases h
    exact .operand hrole
  next o hrole =>
    cases h
    exact .operation hrole
  next hrole =>
    cases h
    exact .opening (Lexeme.eq_opening_of_role hrole)
  next hrole => exact move_of_closeGroup (Lexeme.eq_closing_of_role hrole) h
  next => cases h

section Lending

theorem lend_nil (loose n : Nat) : lend loose n [] = ([], loose - n) := by
  cases n <;> rfl

theorem lend_zero (loose : Nat) (groups : List Group) : lend loose 0 groups = (groups, loose) := by
  cases groups <;> rfl

theorem lend_cons (loose n : Nat) (g : Group) (outer : List Group) :
    lend loose n (g :: outer) =
      ({ g with count := g.count - n } :: (lend loose (n - g.count) outer).1,
        (lend loose (n - g.count) outer).2) := by
  cases n with
  | zero => rw [Nat.zero_sub, lend_zero, lend_zero, Nat.sub_zero]
  | succ n => simp only [lend]

theorem map_offset_lend (loose n : Nat) (groups : List Group) :
    (lend loose n groups).1.map Group.offset = groups.map Group.offset := by
  induction groups generalizing n with
  | nil => rw [lend_nil]
  | cons g outer ih => rw [lend_cons, List.map_cons, List.map_cons, ih]

theorem sum_count_lend {loose n : Nat} {groups : List Group}
    (h : n ≤ (groups.map Group.count).sum + loose) :
    ((lend loose n groups).1.map Group.count).sum + (lend loose n groups).2 + n =
      (groups.map Group.count).sum + loose := by
  induction groups generalizing n with
  | nil =>
    rw [List.map_nil, List.sum_nil, Nat.zero_add] at h
    simp only [lend_nil, List.map_nil, List.sum_nil, Nat.zero_add]
    exact Nat.sub_add_cancel h
  | cons g outer ih =>
    rw [List.map_cons, List.sum_cons] at h
    have hrest := ih (n := n - g.count) (by omega)
    simp only [lend_cons, List.map_cons, List.sum_cons]
    omega

end Lending

theorem operands_push (s : Brackets) (a : Operand) : (s.push a).operands = a :: s.operands := by
  unfold push
  split <;> rfl

theorem pending_push (s : Brackets) (a : Operand) : (s.push a).pending = s.pending := by
  unfold push
  split <;> rfl

theorem map_offset_push (s : Brackets) (a : Operand) :
    (s.push a).groups.map Group.offset = s.groups.map Group.offset := by
  unfold push
  split
  next h => rw [h]
  next h => rw [h, List.map_cons, List.map_cons]

theorem exists_run_of_parse {source : String} {e : Expr} (h : parse set source = .ok e) :
    ∃ s, (scan source).foldlM (advance (step set)) {} = .ok s ∧ s.groups = [] ∧ s.pending = [] ∧
      ∃ a, s.operands = [a] ∧ a.expr = e := by
  have hread : parse set source = _ := snd_readBracketed set source
  rw [hread] at h
  cases hrun : (scan source).foldlM (advance (step set)) {} with
  | error e' =>
    rw [hrun] at h
    cases h
  | ok s =>
    rw [hrun] at h
    replace h : s.result (positionAfter source) = .ok e := h
    refine ⟨s, rfl, ?_⟩
    unfold result at h
    split at h
    next => cases h
    next => cases h
    next a hgroups hpending hoperands =>
      exact ⟨List.getLast?_eq_none_iff.mp hgroups, hpending, a, hoperands, Except.ok.inj h⟩
    next => cases h

end Brackets
end Reading
end Trivariate
