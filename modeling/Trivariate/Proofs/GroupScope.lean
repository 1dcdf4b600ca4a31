import Trivariate.Proofs.OperandRecord
import Trivariate.Proofs.StepPlaces

/-! Brackets as scopes. What is written inside a group does not leave it but as a part of the node that
the group makes, and what the group itself lacks is what was written last before it and is still to be
taken. Only the counts of the groups say so to the reader: they cut its stack at the open brackets. -/

namespace Trivariate

namespace Reading

inductive Balanced : List Step → Prop
  | nil : Balanced []
  | single {x : Step} (hopening : x.lexeme ≠ .token .opening) (hclosing : x.lexeme ≠ .token .closing) :
      Balanced [x]
  | append {xs ys : List Step} (hxs : Balanced xs) (hys : Balanced ys) : Balanced (xs ++ ys)
  | group {x y : Step} {xs : List Step} (hx : x.lexeme = .token .opening) (hxs : Balanced xs)
      (hy : y.lexeme = .token .closing) : Balanced (x :: (xs ++ [y]))

inductive Unclosed : Nat → List Step → Prop
  | balanced {xs : List Step} (h : Balanced xs) : Unclosed 0 xs
  | opening {n : Nat} {front mid : List Step} {x : Step} (hfront : Unclosed n front)
      (hx : x.lexeme = .token .opening) (hmid : Balanced mid) : Unclosed (n + 1) (front ++ x :: mid)

theorem Unclosed.append {n : Nat} {xs ys : List Step} (h : Unclosed n xs) (hys : Balanced ys) :
    Unclosed n (xs ++ ys) := by
  cases h with
  | balanced h => exact .balanced (h.append hys)
  | opening hfront hx hmid =>
    rw [List.append_assoc, List.cons_append]
    exact .opening hfront hx (hmid.append hys)

section Brackets

variable {set : Settings} {s s' : Brackets} {x : Step}

theorem balanced_of_role (hopening : x.lexeme.role set.catalog ≠ .opening)
    (hclosing : x.lexeme.role set.catalog ≠ .closing) : Balanced [x] :=
  .single (fun h => hopening (by rw [h]; rfl)) (fun h => hclosing (by rw [h]; rfl))

theorem exists_closed {events : List Event} (hx : x.lexeme = .token .closing)
    (h : Brackets.step set s x = .ok (s', events)) :
    ∃ g outer p waiting n a, s.groups = g :: outer ∧ s.pending = p :: waiting ∧
      n = p.op.arity.required g.count ∧ g.count ≤ n ∧ n ≤ s.operands.length ∧
      Expr.op? a = some p.op ∧ a.operands = (Operand.newest n s.operands).map Operand.expr ∧
      events = [.closing p.op n, .operand a] ∧
      s'.groups.map Group.offset = outer.map Group.offset := by
  cases Brackets.move_of_step h with
  | operand hrole =>
    rw [hx] at hrole
    cases hrole
  | operation hrole =>
    rw [hx] at hrole
    cases hrole
  | opening hlexeme =>
    rw [hx] at hlexeme
    cases hlexeme
  | @closing g outer p waiting n a _ hgroups hpending hn hheld hle hop hoperands =>
    refine ⟨g, outer, p, waiting, n, a.expr, hgroups, hpending, hn, hheld, hle, hop, hoperands, rfl, ?_⟩
    rw [Brackets.map_offset_push]
    exact Brackets.map_offset_lend ..

theorem unclosed_of_run {xs : List Step} (h : xs.foldlM (advance (Brackets.step set)) {} = .ok s) :
    Unclosed s.groups.length xs := by
  refine invariant_of_run (P := fun read t _ => Unclosed t.groups.length read) (.balanced .nil) ?_ h
  intro read x t _ t' events _ ih hx
  have hpush : ∀ (t : Brackets) a, (t.push a).groups.length = t.groups.length := by
    intro t a
    simpa using congrArg List.length (Brackets.map_offset_push t a)
  cases Brackets.move_of_step hx with
  | operand hrole =>
    rw [hpush]
    exact ih.append (balanced_of_role (by rw [hrole]; nofun) (by rw [hrole]; nofun))
  | operation hrole =>
    exact ih.append (balanced_of_role (by rw [hrole]; nofun) (by rw [hrole]; nofun))
  | opening hlexeme => exact .opening ih hlexeme .nil
  | @closing g outer p waiting n a hlexeme hgroups =>
    have hlent := congrArg List.length (Brackets.map_offset_lend t.loose (n - g.count) outer)
    rw [List.length_map, List.length_map] at hlent
    rw [hgroups] at ih
    rw [hpush]
    dsimp only
    rw [hlent]
    cases ih with
    | @opening _ front mid x' hfront hx' hmid =>
      -- the bracket that was opened last has its partner now, and the two close a group
      rw [List.append_assoc, List.cons_append]
      exact hfront.append (.group hx' hmid hlexeme)

theorem map_offset_of_balanced {xs : List Step} (hxs : Balanced xs)
    (h : xs.foldlM (advance (Brackets.step set)) s = .ok s') :
    s'.groups.map Group.offset = s.groups.map Group.offset := by
  induction hxs generalizing s s' with
  | nil =>
    obtain rfl : s = s' := Except.ok.inj h
    rfl
  | single hopening hclosing =>
    obtain ⟨events, hx⟩ := foldlM_singleton_eq_ok_iff.mp h
    cases Brackets.move_of_step hx with
    | operand => exact Brackets.map_offset_push ..
    | operation => rfl
    | opening hlexeme => exact absurd hlexeme hopening
    | closing hlexeme => exact absurd hlexeme hclosing
  | append _ _ ihxs ihys =>
    obtain ⟨t, hleft, hright⟩ := foldlM_append_eq_ok_iff.mp h
    exact (ihys hright).trans (ihxs hleft)
  | @group x y xs hx _ hy ih =>
    rw [foldlM_cons_of_ok (Brackets.advance_opening hx s)] at h
    obtain ⟨t, hxs, hlast⟩ := foldlM_append_eq_ok_iff.mp h
    obtain ⟨events, hstep⟩ := foldlM_singleton_eq_ok_iff.mp hlast
    have hopened := ih hxs
    obtain ⟨g, outer, _, _, _, _, hgroups, -, -, -, -, -, -, -, hclosed⟩ := exists_closed hy hstep
    rw [hgroups, List.map_cons] at hopened
    exact hclosed.trans (List.cons.inj hopened).2

end Brackets

def takeNewest (stack : List (Step × Expr)) (made : Step × Expr) : List (Step × Expr) :=
  made :: stack.drop made.2.operands.length

/-- The operands that some steps push and leave to be taken, the newest first, each with the step that
pushes it. -/
def standing (set : Settings) (read : List Step) : List (Step × Expr) :=
  (pushed (told (Brackets.step set) {} read)).foldl takeNewest []

def writtenAfter (x : Step) (made : List (Step × Expr)) : List (Step × Expr) :=
  made.filter (x.span.start < ·.1.span.start)

def writtenBefore (x : Step) (made : List (Step × Expr)) : List (Step × Expr) :=
  made.filter (·.1.span.start < x.span.start)

section Written

variable {x : Step} {own earlier : List (Step × Expr)}

theorem writtenAfter_append (hown : ∀ p ∈ own, x.span.start < p.1.span.start)
    (hearlier : ∀ p ∈ earlier, p.1.span.start ≤ x.span.start) :
    writtenAfter x (own ++ earlier) = own := by
  rw [writtenAfter, List.filter_append, List.filter_eq_self.mpr (by simpa using hown),
    List.filter_eq_nil_iff.mpr (by simpa using hearlier), List.append_nil]

theorem writtenBefore_append (hown : ∀ p ∈ own, x.span.start ≤ p.1.span.start)
    (hearlier : ∀ p ∈ earlier, p.1.span.start < x.span.start) :
    writtenBefore x (own ++ earlier) = earlier := by
  rw [writtenBefore, List.filter_append, List.filter_eq_nil_iff.mpr (by simpa using hown),
    List.filter_eq_self.mpr (by simpa using hearlier), List.nil_append]

end Written

theorem exists_kept (stack made : List (Step × Expr)) :
    ∃ new kept, made.foldl takeNewest stack = new ++ kept ∧ kept <:+ stack ∧ ∀ p ∈ new, p ∈ made := by
  induction made using List.reverseRecOn with
  | nil => exact ⟨[], stack, rfl, List.suffix_rfl, List.forall_mem_nil _⟩
  | append_singleton made p ih =>
    obtain ⟨new, kept, hfold, hkept, hnew⟩ := ih
    have hdrop : takeNewest (new ++ kept) p = (p :: new.drop p.2.operands.length) ++
        kept.drop (p.2.operands.length - new.length) := by
      rw [takeNewest, List.drop_append, List.cons_append]
    rw [List.foldl_concat, hfold, hdrop]
    refine ⟨_, _, rfl, (List.drop_suffix _ _).trans hkept, ?_⟩
    intro q hq
    rcases List.mem_cons.mp hq with rfl | hq
    · exact List.mem_append_right _ (List.mem_singleton_self q)
    · exact List.mem_append_left _ (hnew q (List.mem_of_mem_drop hq))

/-- The counts cut a stack at the offsets of the groups: the operands of a group stand behind its
bracket and in front of those of the groups around it. -/
inductive Segments (loose : Nat) : List (Step × Expr) → List Group → Prop
  | outside {made : List (Step × Expr)} (hloose : loose = made.length) : Segments loose made []
  | inside {own made : List (Step × Expr)} {g : Group} {outer : List Group}
      (hcount : g.count = own.length) (hown : ∀ p ∈ own, g.offset < p.1.span.start)
      (hmade : ∀ p ∈ made, p.1.span.start < g.offset) (houter : Segments loose made outer) :
      Segments loose (own ++ made) (g :: outer)

namespace Segments

variable {loose : Nat} {made : List (Step × Expr)} {groups : List Group}

theorem lend (h : Segments loose made groups) (n : Nat) :
    Segments (lend loose n groups).2 (made.drop n) (lend loose n groups).1 := by
  induction h generalizing n with
  | outside hloose =>
    rw [Brackets.lend_nil]
    refine .outside ?_
    rw [hloose, List.length_drop]
  | @inside own made g outer hcount hown hmade _ ih =>
    rw [Brackets.lend_cons, List.drop_append, ← hcount]
    refine .inside ?_ ?_ ?_ (ih _)
    · rw [List.length_drop, ← hcount]
    · exact fun p hp => hown p (List.mem_of_mem_drop hp)
    · exact fun p hp => hmade p (List.mem_of_mem_drop hp)

theorem push {s : Brackets} (h : Segments s.loose made s.groups) {p : Step × Expr}
    (hp : ∀ offset ∈ s.groups.map Group.offset, offset < p.1.span.start) (a : Operand) :
    Segments (s.push a).loose (p :: made) (s.push a).groups := by
  unfold Brackets.push
  split
  next hgroups =>
    rw [hgroups] at h
    cases h with
    | outside hloose =>
      dsimp only
      rw [hgroups]
      exact .outside (congrArg (· + 1) hloose)
  next g outer hgroups =>
    rw [hgroups] at h hp
    cases h with
    | @inside own made _ _ hcount hown hmade houter =>
      have hnew : ∀ q ∈ p :: own, g.offset < q.1.span.start :=
        List.forall_mem_cons.mpr ⟨hp _ (List.mem_cons_self ..), hown⟩
      rw [← List.cons_append]
      exact .inside (congrArg (· + 1) hcount) hnew hmade houter

end Segments

/-- The stack of a state lists the operands that stand, and its counts cut them at the open brackets. -/
structure Scoped (read : List Step) (s : Brackets) (made : List (Step × Expr)) : Prop where
  stack : made.map Prod.snd = s.operands.map Operand.expr
  segments : Segments s.loose made s.groups
  newest : made.Pairwise fun p q => q.1.span.start < p.1.span.start
  steps : ∀ p ∈ made, p.1 ∈ read
  offsets : ∀ offset ∈ s.groups.map Group.offset, ∃ z ∈ read, z.span.start = offset

namespace Scoped

variable {read : List Step} {s s' : Brackets} {x : Step} {made : List (Step × Expr)}

theorem append (h : Scoped read s made) (x : Step) : Scoped (read ++ [x]) s made where
  stack := h.stack
  segments := h.segments
  newest := h.newest
  steps := fun p hp => List.mem_append_left _ (h.steps p hp)
  offsets := by
    intro offset hoffset
    obtain ⟨z, hz, hstart⟩ := h.offsets offset hoffset
    exact ⟨z, List.mem_append_left _ hz, hstart⟩

theorem push (h : Scoped read s made) (hbefore : ∀ z ∈ read, z.span.start < x.span.start)
    (a : Operand) : Scoped (read ++ [x]) (s.push a) ((x, a.expr) :: made) where
  stack := by rw [List.map_cons, h.stack, Brackets.operands_push, List.map_cons]
  segments := by
    refine h.segments.push ?_ a
    intro offset hoffset
    obtain ⟨z, hz, rfl⟩ := h.offsets offset hoffset
    exact hbefore z hz
  newest := .cons (fun p hp => hbefore p.1 (h.steps p hp)) h.newest
  steps := List.forall_mem_cons.mpr
    ⟨List.mem_append_right _ (List.mem_singleton_self x), (h.append x).steps⟩
  offsets := by
    rw [Brackets.map_offset_push]
    exact (h.append x).offsets

theorem move {set : Settings} {events : List Event} (h : Scoped read s made)
    (hbefore : ∀ z ∈ read, z.span.start < x.span.start)
    (hmove : Brackets.Move set s x s' events) :
    Scoped (read ++ [x]) s' ((pushed (events.map (x, ·))).foldl takeNewest made) := by
  cases hmove with
  | @operand e hrole =>
    have hleaf : takeNewest made (x, e) = (x, e) :: made := by
      rw [takeNewest, Expr.operands_leaf (Lexeme.op?_of_role hrole)]
      rfl
    have hnext := h.push hbefore (.leaf e)
    rw [Operand.leaf, ← hleaf] at hnext
    exact hnext
  | operation => exact ⟨h.stack, h.segments, h.newest, (h.append x).steps, (h.append x).offsets⟩
  | opening =>
    refine ⟨h.stack, ?_, h.newest, (h.append x).steps, ?_⟩
    · rw [← List.nil_append made]
      exact .inside rfl (List.forall_mem_nil _) (fun p hp => hbefore p.1 (h.steps p hp)) h.segments
    · refine List.forall_mem_cons.mpr ⟨⟨x, ?_, rfl⟩, (h.append x).offsets⟩
      exact List.mem_append_right _ (List.mem_singleton_self x)
  | @closing g outer p waiting n a _ hgroups _ _ hheld hle _ hoperands =>
    have htake : takeNewest made (x, a.expr) = (x, a.expr) :: made.drop n := by
      rw [takeNewest, hoperands, List.length_map, Operand.length_newest hle]
    have hsegments := h.segments
    have houter := h.offsets
    rw [hgroups] at hsegments houter
    -- once the group has given all that it holds, the rest comes from the groups around it
    have hbelow : Segments (lend s.loose (n - g.count) outer).2 (made.drop n)
        (lend s.loose (n - g.count) outer).1 := by
      cases hsegments with
      | @inside own made' _ _ hcount _ _ hsegments =>
        rw [List.drop_append, List.drop_of_length_le (hcount ▸ hheld), List.nil_append, ← hcount]
        exact hsegments.lend _
    have hscoped : Scoped read ⟨s.operands.drop n, waiting, (lend s.loose (n - g.count) outer).1,
        (lend s.loose (n - g.count) outer).2⟩ (made.drop n) := by
      refine ⟨?_, hbelow, h.newest.sublist (List.drop_sublist ..),
        fun p hp => h.steps p (List.mem_of_mem_drop hp), ?_⟩
      · rw [List.map_drop, h.stack, List.map_drop]
      · rw [Brackets.map_offset_lend]
        exact fun offset hoffset => houter offset (List.mem_cons_of_mem _ hoffset)
    have hnext := hscoped.push hbefore a
    rw [← htake] at hnext
    exact hnext

end Scoped

section Runs

variable {set : Settings} {s : Brackets} {front mid xs : List Step} {x : Step}

theorem scoped_of_run (hxs : xs.Pairwise (·.span.start < ·.span.start))
    (h : xs.foldlM (advance (Brackets.step set)) {} = .ok s) : Scoped xs s (standing set xs) := by
  refine invariant_of_run
    (P := fun read t record => Scoped read t ((pushed record).foldl takeNewest [])) ?_ ?_ h
  · exact ⟨rfl, .outside rfl, .nil, List.forall_mem_nil _, List.forall_mem_nil _⟩
  · intro read x t record t' events hread ih hx
    have hbefore := (List.pairwise_append.mp (hxs.sublist hread.sublist)).2.2
    rw [pushed_append, List.foldl_append]
    exact ih.move (fun z hz => hbefore z hz x (List.mem_singleton_self x)) (Brackets.move_of_step hx)

theorem leaves_standing (hxs : xs.Pairwise (·.span.start < ·.span.start))
    (hshape : ∀ x ∈ xs, ∀ t, x.lexeme = .token t → t.Shape)
    (h : xs.foldlM (advance (Brackets.step set)) {} = .ok s) :
    List.Forall₂ Labels ((standing set xs).reverse.flatMap (·.2.leaves))
      (xs.filter Step.isOperand) := by
  have hstack := congrArg (fun es => es.reverse.flatMap Expr.leaves) (scoped_of_run hxs h).stack
  rw [← List.map_reverse, ← List.map_reverse, List.flatMap_map, List.flatMap_map] at hstack
  rw [hstack]
  exact leaves_of_run hshape h

theorem writtenBefore_suffix (hxs : (front ++ x :: mid).Pairwise (·.span.start < ·.span.start))
    (h : front.foldlM (advance (Brackets.step set)) {} = .ok s) :
    writtenBefore x (standing set (front ++ x :: mid)) <:+ standing set front := by
  obtain ⟨hfront, hback, hbefore⟩ := List.pairwise_append.mp hxs
  obtain ⟨new, kept, hfold, hkept, hnew⟩ := exists_kept (standing set front)
    (pushed (told (Brackets.step set) s (x :: mid)))
  have hstanding : standing set (front ++ x :: mid) = new ++ kept := by
    rw [standing, told_append h, pushed_append, List.foldl_append]
    exact hfold
  rw [hstanding, writtenBefore_append]
  · exact hkept
  · intro p hp
    obtain ⟨event, hevent⟩ := mem_of_mem_pushed (hnew p hp)
    rcases List.mem_cons.mp (mem_of_mem_told hevent) with hstep | hstep
    · rw [hstep]
    · exact (List.rel_of_pairwise_cons hback hstep).le
  · intro p hp
    have hstep := (scoped_of_run hfront h).steps p (hkept.subset hp)
    exact hbefore p.1 hstep x (List.mem_cons_self ..)

theorem exists_group (hxs : (front ++ x :: mid).Pairwise (·.span.start < ·.span.start))
    (hx : x.lexeme = .token .opening) (hmid : Balanced mid)
    (h : (front ++ x :: mid).foldlM (advance (Brackets.step set)) {} = .ok s) :
    ∃ g outer, s.groups = g :: outer ∧
      g.count = (writtenAfter x (standing set (front ++ x :: mid))).length ∧
      standing set (front ++ x :: mid) = writtenAfter x (standing set (front ++ x :: mid)) ++
        writtenBefore x (standing set (front ++ x :: mid)) := by
  have hsegments := (scoped_of_run hxs h).segments
  obtain ⟨t, hfront, hrest⟩ := foldlM_append_eq_ok_iff.mp h
  rw [foldlM_cons_of_ok (Brackets.advance_opening hx t)] at hrest
  -- what lies between is balanced, so that the innermost group is still the one of this bracket
  obtain ⟨g, outer, hgroups, hoffset, -⟩ := List.map_eq_cons_iff.mp (map_offset_of_balanced hmid hrest)
  refine ⟨g, outer, hgroups, ?_⟩
  rw [hgroups] at hsegments
  generalize standing set (front ++ x :: mid) = made at hsegments ⊢
  cases hsegments with
  | @inside own earlier _ _ hcount hown hearlier =>
    rw [hoffset] at hown hearlier
    rw [writtenAfter_append hown fun p hp => (hearlier p hp).le,
      writtenBefore_append (fun p hp => (hown p hp).le) hearlier]
    exact ⟨hcount, rfl⟩

end Runs

/-- What a closing bracket makes of the operands of its group and of what was written before: `front`
are the steps before its partner, `mid` those between the two. -/
structure TakesGroup (o : Op) (front mid : List Step) (own earlier : List (Step × Expr))
    (e : Expr) : Prop where
  op : e.op? = some o
  own_le : own.length ≤ o.arity.required own.length
  borrowed_le : o.arity.required own.length - own.length ≤ earlier.length
  operands : e.operands =
    ((earlier.take (o.arity.required own.length - own.length)).reverse ++ own.reverse).map Prod.snd
  variadic : o.arity = .variadic → e.operands = own.reverse.map Prod.snd
  leaves : ∃ borrowed, borrowed <:+ front.filter Step.isOperand ∧
    List.Forall₂ Labels e.leaves (borrowed ++ mid.filter Step.isOperand)

theorem leaves_newest {front mid : List Step} {x : Step} {own earlier below : List (Step × Expr)}
    (hx : x.isOperand = false) (hearlier : earlier <:+ below) (n : Nat)
    (hbelow : List.Forall₂ Labels (below.reverse.flatMap (·.2.leaves)) (front.filter Step.isOperand))
    (h : List.Forall₂ Labels ((own ++ earlier).reverse.flatMap (·.2.leaves))
      ((front ++ x :: mid).filter Step.isOperand)) :
    ∃ borrowed, borrowed <:+ front.filter Step.isOperand ∧
      List.Forall₂ Labels (((earlier.take n).reverse ++ own.reverse).flatMap (·.2.leaves))
        (borrowed ++ mid.filter Step.isOperand) := by
  obtain ⟨lost, rfl⟩ := hearlier
  have hsplit : earlier.reverse = (earlier.drop n).reverse ++ (earlier.take n).reverse := by
    rw [← List.reverse_append, List.take_append_drop]
  -- the operands that stay out are from before, and so are their tokens
  have hle : ((earlier.drop n).reverse.flatMap (·.2.leaves)).length ≤
      (front.filter Step.isOperand).length := by
    rw [← hbelow.length_eq, List.reverse_append, hsplit, List.append_assoc, List.flatMap_append,
      List.length_append]
    exact Nat.le_add_right ..
  have hrest := List.forall₂_drop ((earlier.drop n).reverse.flatMap (·.2.leaves)).length h
  rw [List.reverse_append, hsplit, List.append_assoc, List.flatMap_append, List.drop_left,
    List.filter_append, List.filter_cons_of_neg (by simp [hx]),
    List.drop_append_of_le_length hle] at hrest
  exact ⟨_, List.drop_suffix .., hrest⟩

theorem map_newest {s : Brackets} {own earlier : List (Step × Expr)} {n : Nat}
    (hstack : (own ++ earlier).map Prod.snd = s.operands.map Operand.expr) (hle : own.length ≤ n) :
    (Operand.newest n s.operands).map Operand.expr =
      ((earlier.take (n - own.length)).reverse ++ own.reverse).map Prod.snd := by
  rw [Operand.newest, List.map_reverse, List.map_take, ← hstack, ← List.map_take,
    ← List.map_reverse, List.take_append, List.take_of_length_le hle, List.reverse_append]

section Closing

variable {set : Settings} {s s' : Brackets} {front mid : List Step} {x y : Step} {events : List Event}
  (hxs : (front ++ x :: mid).Pairwise (·.span.start < ·.span.start))
  (hx : x.lexeme = .token .opening)
  (h : (front ++ x :: mid).foldlM (advance (Brackets.step set)) {} = .ok s)
include hxs hx h

theorem leaves_group (hshape : ∀ z ∈ front ++ x :: mid, ∀ t, z.lexeme = .token t → t.Shape)
    {own : List (Step × Expr)} (hparts : standing set (front ++ x :: mid) =
      own ++ writtenBefore x (standing set (front ++ x :: mid))) (n : Nat) :
    ∃ borrowed, borrowed <:+ front.filter Step.isOperand ∧
      List.Forall₂ Labels
        ((((writtenBefore x (standing set (front ++ x :: mid))).take n).reverse ++
          own.reverse).flatMap (·.2.leaves))
        (borrowed ++ mid.filter Step.isOperand) := by
  obtain ⟨t, hfront, -⟩ := foldlM_append_eq_ok_iff.mp h
  have hbelow := leaves_standing (List.pairwise_append.mp hxs).1
    (fun z hz => hshape z (List.mem_append_left _ hz)) hfront
  have hall := leaves_standing hxs hshape h
  rw [hparts] at hall
  exact leaves_newest (Step.kinds_opening hx).1 (writtenBefore_suffix hxs hfront) n hbelow hall

theorem takesGroup_of_step (hmid : Balanced mid)
    (hshape : ∀ z ∈ front ++ x :: mid, ∀ t, z.lexeme = .token t → t.Shape)
    (hy : y.lexeme = .token .closing) (hstep : Brackets.step set s y = .ok (s', events)) :
    let own := writtenAfter x (standing set (front ++ x :: mid))
    let earlier := writtenBefore x (standing set (front ++ x :: mid))
    ∃ p ∈ s.pending.head?, ∃ e, TakesGroup p.op front mid own earlier e ∧
      events = [.closing p.op (p.op.arity.required own.length), .operand e] ∧
      standing set (front ++ x :: mid ++ [y]) =
        (y, e) :: earlier.drop (p.op.arity.required own.length - own.length) := by
  obtain ⟨g, outer, hgroups, hcount, hparts⟩ := exists_group hxs hx hmid h
  obtain ⟨g', outer', p, waiting, n, e, hgroups', hpending, hn, hheld, hle, hop, hoperands,
    hevents, -⟩ := exists_closed hy hstep
  obtain rfl := (List.cons.inj (hgroups.symm.trans hgroups')).1
  have hleaves := leaves_group hxs hx h hshape hparts
  have hstack := (scoped_of_run hxs h).stack
  have hlength : e.operands.length = n := by
    rw [hoperands, List.length_map, Operand.length_newest hle]
  -- the record of this step is all that the bracket adds to what was told before
  have hafter : standing set (front ++ x :: mid ++ [y]) =
      takeNewest (standing set (front ++ x :: mid)) (y, e) := by
    rw [standing, told_append h, told_cons hstep, hevents, pushed_append, List.foldl_append]
    rfl
  intro own earlier
  change standing set (front ++ x :: mid) = own ++ earlier at hparts
  change g.count = own.length at hcount
  rw [hparts] at hstack hafter
  rw [hcount] at hn hheld
  rw [map_newest hstack hheld] at hoperands
  have htotal : own.length + earlier.length = s.operands.length := by
    simpa using congrArg List.length hstack
  subst hn
  refine ⟨p, by rw [hpending]; rfl, e, ⟨hop, hheld, by omega, hoperands, ?_, ?_⟩, hevents, ?_⟩
  · intro hvariadic
    rw [hoperands, hvariadic, Arity.required, Nat.sub_self, List.take_zero, List.reverse_nil,
      List.nil_append]
  · rw [Expr.leaves_node hop, hoperands, List.flatMap_map]
    exact hleaves _
  · rw [hafter, takeNewest, hlength, List.drop_append, List.drop_of_length_le hheld,
      List.nil_append]

theorem step_overfull (hmid : Balanced mid) (hy : y.lexeme = .token .closing) {p : Pending}
    (hp : p ∈ s.pending.head?)
    (hlt : p.op.arity.required (writtenAfter x (standing set (front ++ x :: mid))).length <
      (writtenAfter x (standing set (front ++ x :: mid))).length) :
    Brackets.step set s y = .error (.missingOperation y.span.position) := by
  obtain ⟨waiting, hpending⟩ := List.head?_eq_some_iff.mp hp
  obtain ⟨g, outer, hgroups, hcount, hparts⟩ := exists_group hxs hx hmid h
  have hstack := congrArg List.length (scoped_of_run hxs h).stack
  rw [List.length_map, List.length_map, hparts, List.length_append, ← hcount] at hstack
  rw [← hcount] at hlt
  have hclose : s.closeGroup set.limit y.span.position = .error (.missingOperation y.span.position) :=
    Brackets.closeGroup_overfull hgroups hpending (by omega) hlt
  rw [Brackets.step, hy]
  exact hclose

end Closing

/-- Brackets are scopes. A closing bracket that the reader accepts has a partner. Its node takes just
the operands of its group and, where these are too few, those that were written last before the
group, so that what stands then was written before the group or is the node, and every operand token
between the brackets is a leaf of the node. Where the group holds too many, the bracket fails. -/
theorem closing_takes_group (set : Settings) (source : String) {read rest : List Step} {y : Step}
    {s : Brackets} (hscan : scan source = read ++ y :: rest) (hy : y.lexeme = .token .closing)
    (h : read.foldlM (advance (Brackets.step set)) {} = .ok s) :
    (∀ out, Brackets.step set s y = .ok out →
      ∃ front x mid, read = front ++ x :: mid ∧ x.lexeme = .token .opening ∧ Balanced mid) ∧
    ((standing set read).map Prod.snd = s.operands.map Operand.expr ∧
      (standing set read).Pairwise fun p q => q.1.span.start < p.1.span.start) ∧
    ∀ front x mid, read = front ++ x :: mid → x.lexeme = .token .opening → Balanced mid →
      ∃ own earlier, standing set read = own ++ earlier ∧
        own = writtenAfter x (standing set read) ∧ earlier = writtenBefore x (standing set read) ∧
        (∀ s' events, Brackets.step set s y = .ok (s', events) →
          ∃ p ∈ s.pending.head?, ∃ e, TakesGroup p.op front mid own earlier e ∧
            events = [.closing p.op (p.op.arity.required own.length), .operand e] ∧
            standing set (read ++ [y]) =
              (y, e) :: earlier.drop (p.op.arity.required own.length - own.length)) ∧
        ∀ p ∈ s.pending.head?, p.op.arity.required own.length < own.length →
          Brackets.step set s y = .error (.missingOperation y.span.position) := by
  have hsteps := Scan.pairwise_start_scan source
  have hshape : ∀ z ∈ read, ∀ t, z.lexeme = .token t → t.Shape := fun z hz t ht =>
    Scan.shape_of_mem_steps (hscan ▸ List.mem_append_left _ hz) ht
  rw [hscan] at hsteps
  have hread := (List.pairwise_append.mp hsteps).1
  have hscoped := scoped_of_run hread h
  refine ⟨?_, ⟨hscoped.stack, hscoped.newest⟩, ?_⟩
  · intro out hout
    obtain ⟨g, outer, _, _, _, _, hgroups, -⟩ := exists_closed hy hout
    have hunclosed := unclosed_of_run h
    rw [hgroups] at hunclosed
    cases hunclosed with
    | opening _ hx hmid => exact ⟨_, _, _, rfl, hx, hmid⟩
  · rintro front x mid rfl hx hmid
    obtain ⟨-, -, -, -, hparts⟩ := exists_group hread hx hmid h
    refine ⟨_, _, hparts, rfl, rfl, ?_, ?_⟩
    · intro s' events hstep
      exact takesGroup_of_step hread hx h hmid hshape hy hstep
    · intro p hp hlt
      exact step_overfull hread hx h hmid hy hp hlt

theorem closing_takes_group_lending :
    (∃ front x mid own earlier, scan "x (y (negate) +)" =
        front ++ x :: mid ++ [⟨.token .closing, ⟨15, 16⟩⟩] ∧
      own.map Prod.snd = [.negate (.var .y)] ∧ earlier.map Prod.snd = [.var .x] ∧
      TakesGroup (.binary .add) front mid own earlier (.add (.var .x) (.negate (.var .y)))) ∧
    ∃ s, (scan "(+ x y z)").dropLast.foldlM (advance (Brackets.step ⟨.standard, 2⟩)) {} = .ok s ∧
      Brackets.step ⟨.standard, 2⟩ s ⟨.token .closing, ⟨8, 9⟩⟩ = .error (.missingOperation 9) := by
  constructor
  · have hscan : scan "x (y (negate) +)" = (scan "x (y (negate) +)").dropLast ++
        ⟨.token .closing, ⟨15, 16⟩⟩ :: [] := rfl
    have hrun : (scan "x (y (negate) +)").dropLast.foldlM (advance (Brackets.step ⟨.standard, 2⟩)) {} =
        .ok ⟨[⟨.negate (.var .y), 1⟩, ⟨.var .x, 0⟩], [⟨.binary .add, 15⟩], [⟨2, 1⟩], 1⟩ := rfl
    obtain ⟨-, -, hall⟩ := closing_takes_group _ _ hscan rfl hrun
    have hmid : Balanced ([⟨.token (.name "y"), ⟨3, 4⟩⟩] ++ ((⟨.token .opening, ⟨5, 6⟩⟩ ::
        ([⟨.token (.name "negate"), ⟨6, 12⟩⟩] ++ [⟨.token .closing, ⟨12, 13⟩⟩])) ++
        [⟨.token (.symbol '+'), ⟨14, 15⟩⟩])) :=
      (Balanced.single (by decide) (by decide)).append
        ((Balanced.group rfl (.single (by decide) (by decide)) rfl).append
          (.single (by decide) (by decide)))
    obtain ⟨own, earlier, -, hown, hearlier, htakes, -⟩ :=
      hall [⟨.token (.name "x"), ⟨0, 1⟩⟩] ⟨.token .opening, ⟨2, 3⟩⟩ _ rfl rfl hmid
    obtain ⟨p, hp, e, he, hevents, -⟩ := htakes _ _ rfl
    obtain rfl : Pending.mk (.binary .add) 15 = p := Option.some.inj hp
    obtain rfl : .add (.var .x) (.negate (.var .y)) = e := by
      cases hevents
      rfl
    exact ⟨_, _, _, own, earlier, rfl, by rw [hown]; rfl, by rw [hearlier]; rfl, he⟩
  · have hscan : scan "(+ x y z)" = (scan "(+ x y z)").dropLast ++
        ⟨.token .closing, ⟨8, 9⟩⟩ :: [] := rfl
    have hrun : (scan "(+ x y z)").dropLast.foldlM (advance (Brackets.step ⟨.standard, 2⟩)) {} =
        .ok ⟨[⟨.var .z, 0⟩, ⟨.var .y, 0⟩, ⟨.var .x, 0⟩], [⟨.binary .add, 2⟩], [⟨0, 3⟩], 0⟩ := rfl
    obtain ⟨-, -, hall⟩ := closing_takes_group _ _ hscan rfl hrun
    have hmid : Balanced ([⟨.token (.symbol '+'), ⟨1, 2⟩⟩] ++ ([⟨.token (.name "x"), ⟨3, 4⟩⟩] ++
        ([⟨.token (.name "y"), ⟨5, 6⟩⟩] ++ [⟨.token (.name "z"), ⟨7, 8⟩⟩]))) :=
      (Balanced.single (by decide) (by decide)).append ((Balanced.single (by decide) (by decide)).append
        ((Balanced.single (by decide) (by decide)).append (.single (by decide) (by decide))))
    obtain ⟨own, earlier, -, rfl, -, -, hfails⟩ :=
      hall [] ⟨.token .opening, ⟨0, 1⟩⟩ _ rfl rfl hmid
    exact ⟨_, hrun, hfails ⟨.binary .add, 2⟩ rfl (by decide)⟩

end Reading
end Trivariate
