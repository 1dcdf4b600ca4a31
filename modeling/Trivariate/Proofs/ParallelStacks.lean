import Mathlib.Data.Nat.PSub
import Trivariate.Proofs.BracketMoves

/-! The reader of bracketed text on stacks that lie side by side, with a check wherever a number is
taken from another, a stack is cut or an entry has to be there. No check ever stops it, and it reads
as the reader does, because in every state that a reading reaches the stacks are in step. -/

namespace Trivariate

namespace Reading

structure Allows (set : Settings) (e : Expr) : Prop where
  depth_le : e.depth ≤ set.limit
  arities : ∀ a ∈ e.postorder, ∀ o ∈ a.op?, o.accepts a.operands.length = true
  ops : e.Over set.catalog
  constants : e.Finite

namespace Allows

variable {set : Settings} {e : Expr}

theorem const {v : Float} (h : Binary64.isFinite v = true) : Allows set (.const v) where
  depth_le := Nat.zero_le _
  arities := by simp [Expr.postorder, Expr.op?]
  ops := by simp [Expr.Over, Expr.postorder, Expr.op?]
  constants := by simpa [Expr.Finite, Expr.postorder, Expr.constant?] using h

theorem var (v : Var) : Allows set (.var v) where
  depth_le := Nat.zero_le _
  arities := by simp [Expr.postorder, Expr.op?]
  ops := by simp [Expr.Over, Expr.postorder, Expr.op?]
  constants := by simp [Expr.Finite, Expr.postorder, Expr.constant?]

theorem node {o : Op} (hop : e.op? = some o) (hc : o ∈ set.catalog.ops) (hdepth : e.depth ≤ set.limit)
    (h : ∀ a ∈ e.operands, Allows set a) : Allows set e where
  depth_le := hdepth
  arities := Expr.forall_mem_postorder.mpr
    ⟨fun _ hp => Expr.accepts_operands hp, fun a ha => (h a ha).arities⟩
  ops := by
    refine Expr.forall_mem_postorder.mpr ⟨?_, fun a ha => (h a ha).ops⟩
    intro p hp
    obtain rfl : o = p := Option.some.inj (hop.symm.trans hp)
    exact hc
  constants := by
    refine Expr.forall_mem_postorder.mpr ⟨?_, fun a ha => (h a ha).constants⟩
    intro v hv
    cases e <;> simp [Expr.op?, Expr.constant?] at hop hv

theorem of_role {l : Lexeme} (h : l.role set.catalog = .operand e) : Allows set e := by
  rcases Lexeme.leaf_of_role h with ⟨v, rfl⟩ | ⟨v, rfl, hv⟩
  · exact var v
  · exact const hv

end Allows

namespace Brackets

structure InStep (set : Settings) (s : Brackets) : Prop where
  counts : (s.groups.map Group.count).sum + s.loose = s.operands.length
  operands : ∀ a ∈ s.operands, a.depth = a.expr.depth ∧ Allows set a.expr
  pending : ∀ p ∈ s.pending, p.op ∈ set.catalog.ops

variable {set : Settings} {s s' : Brackets} {x : Step} {events : List Event}

theorem InStep.push (h : s.InStep set) {a : Operand} (hdepth : a.depth = a.expr.depth)
    (ha : Allows set a.expr) : (s.push a).InStep set where
  counts := by
    have hcounts := h.counts
    unfold Brackets.push
    split
    next hgroups =>
      rw [hgroups] at hcounts ⊢
      simp only [List.map_nil, List.sum_nil, List.length_cons] at hcounts ⊢
      omega
    next g outer hgroups =>
      rw [hgroups] at hcounts
      simp only [List.map_cons, List.sum_cons, List.length_cons] at hcounts ⊢
      omega
  operands := by
    rw [operands_push]
    exact List.forall_mem_cons.mpr ⟨⟨hdepth, ha⟩, h.operands⟩
  pending := by
    rw [pending_push]
    exact h.pending

theorem Move.inStep (hmove : Move set s x s' events) (h : s.InStep set) : s'.InStep set := by
  cases hmove with
  | @operand e hrole =>
    have he : Allows set e := Allows.of_role hrole
    have hdepth : e.depth = 0 := Expr.depth_leaf (Lexeme.op?_of_role hrole)
    exact h.push hdepth.symm he
  | operation hrole =>
    exact ⟨h.counts, h.operands, List.forall_mem_cons.mpr ⟨Lexeme.mem_ops_of_role hrole, h.pending⟩⟩
  | opening =>
    refine ⟨?_, h.operands, h.pending⟩
    simpa using h.counts
  | @closing g outer p waiting n a _ hgroups hpending hn hheld hle hop hoperands hdepth hlimit =>
    have hnewest : ∀ b ∈ Operand.newest n s.operands, b.depth = b.expr.depth ∧ Allows set b.expr :=
      fun b hb => h.operands b (List.mem_of_mem_take (List.mem_reverse.mp hb))
    have hparts : ∀ b ∈ a.expr.operands, Allows set b := by
      rw [hoperands]
      exact List.forall_mem_map.mpr fun b hb => (hnewest b hb).2
    have htrue : a.depth = a.expr.depth := by
      rw [hdepth, Expr.depth_node hop, hoperands, List.map_map]
      exact congrArg Expr.deeper (List.map_congr_left fun b hb => (hnewest b hb).1)
    have hcounts := h.counts
    rw [hgroups, List.map_cons, List.sum_cons] at hcounts
    have hlent := @sum_count_lend s.loose (n - g.count) outer (by omega)
    refine InStep.push ⟨?_, ?_, ?_⟩ htrue (.node hop ?_ (htrue ▸ hlimit) hparts)
    · dsimp only
      rw [List.length_drop]
      omega
    · exact fun b hb => h.operands b (List.mem_of_mem_drop hb)
    · exact fun q hq => h.pending q (hpending ▸ List.mem_cons_of_mem _ hq)
    · exact h.pending p (hpending ▸ List.mem_cons_self ..)

theorem inStep_of_run {xs : List Step} (h : xs.foldlM (advance (step set)) {} = .ok s) :
    s.InStep set :=
  invariant_of_run (P := fun _ t _ => t.InStep set) ⟨rfl, List.forall_mem_nil _, List.forall_mem_nil _⟩
    (fun _ _ _ _ _ _ _ ht hx => (move_of_step hx).inStep ht) h

end Brackets

/-- The state of the reader on stacks side by side, the newest entry of each first: a depth for every
operand, and a counter for every open bracket with one more for the operands outside all brackets. -/
structure Stacks where
  operands : List Expr := []
  depths : List Nat := []
  pending : List Pending := []
  brackets : List Nat := []
  counters : List Nat := [0]

def Brackets.stacks (s : Brackets) : Stacks where
  operands := s.operands.map Operand.expr
  depths := s.operands.map Operand.depth
  pending := s.pending
  brackets := s.groups.map Group.offset
  counters := s.groups.map Group.count ++ [s.loose]

namespace Stacks

def splitOff {α : Type} (kept : Nat) (stack : List α) : Option (List α × List α) :=
  (stack.length.psub kept).map fun n => (stack.drop n, (stack.take n).reverse)

/-- Takes from one counter after another what is owed. The result is what stays owed, and the
counters. -/
def borrow : Nat → List Nat → Option (Nat × List Nat)
  | 0, counters => some (0, counters)
  | owed, [] => some (owed, [])
  | owed, count :: counters => do
    let taken := min owed count
    let less ← count.psub taken
    let owed ← owed.psub taken
    let (owed, counters) ← borrow owed counters
    return (owed, less :: counters)

def push? (t : Stacks) (e : Expr) (depth : Nat) : Option Stacks :=
  match t.counters with
  | [] => none
  | count :: counters => some { t with
      operands := e :: t.operands
      depths := depth :: t.depths
      counters := (count + 1) :: counters }

/-- `none` where there is no counter for the bracket, a subtraction falls below zero, something stays
owed, a cut is out of range or the operation does not accept its operands. -/
def close? (limit : Nat) (t : Stacks) (position : Nat) : Option (Except ParseError Stacks) :=
  match t.brackets, t.pending, t.counters with
  | [], _, _ => some (.error (.unpairedBracket ')' position))
  | _ :: _, [], _ => some (.error (.missingOperation position))
  | _ :: _, _ :: _, [] => none
  | _ :: brackets, p :: waiting, held :: counters =>
    let required := p.op.arity.required held
    if t.operands.length < required then
      some (.error (.missingOperand p.op p.position required t.operands.length))
    else if required < held then some (.error (.missingOperation position))
    else do
      let short ← required.psub held
      let (owed, counters) ← borrow short counters
      guard (owed = 0)
      let kept ← t.operands.length.psub required
      let (operands, args) ← splitOff kept t.operands
      let (depths, argDepths) ← splitOff kept t.depths
      let depth := Expr.deeper argDepths
      if limit < depth then some (.error (.tooDeep limit position))
      else
        let node ← Expr.node? p.op args
        (push? ⟨operands, depths, waiting, brackets, counters⟩ node depth).map .ok

def step? (set : Settings) (t : Stacks) (x : Step) : Option (Except ParseError Stacks) :=
  match x.lexeme.role set.catalog with
  | .operand e => (t.push? e 0).map .ok
  | .operation o => some (.ok { t with pending := ⟨o, x.span.position⟩ :: t.pending })
  | .opening =>
    some (.ok { t with brackets := x.span.start :: t.brackets, counters := 0 :: t.counters })
  | .closing => t.close? set.limit x.span.position
  | .unknown => some (.error (unknown x))

def run? (set : Settings) (t : Stacks) : List Step → Option (Except ParseError Stacks)
  | [] => some (.ok t)
  | x :: xs =>
    match t.step? set x with
    | none => none
    | some (.error e) => some (.error e)
    | some (.ok t') => run? set t' xs

theorem borrow_cons (owed count : Nat) (counters : List Nat) :
    borrow owed (count :: counters) =
      (borrow (owed - count) counters).map fun out => (out.1, (count - owed) :: out.2) := by
  cases owed with
  | zero => rw [Nat.zero_sub, borrow, borrow]; rfl
  | succ n =>
    have hcount : count.psub (min (n + 1) count) = some (count - (n + 1)) := by
      rw [Nat.psub_eq_sub (Nat.min_le_right ..)]
      congr 1
      omega
    have howed : (n + 1).psub (min (n + 1) count) = some (n + 1 - count) := by
      rw [Nat.psub_eq_sub (Nat.min_le_left ..)]
      congr 1
      omega
    simp only [borrow, hcount, howed, Option.bind_eq_bind, Option.bind_some]
    cases borrow (n + 1 - count) counters <;> rfl

theorem borrow_counters {loose n : Nat} {groups : List Group}
    (h : n ≤ (groups.map Group.count).sum + loose) :
    borrow n (groups.map Group.count ++ [loose]) =
      some (0, (lend loose n groups).1.map Group.count ++ [(lend loose n groups).2]) := by
  induction groups generalizing n with
  | nil =>
    rw [List.map_nil, List.sum_nil, Nat.zero_add] at h
    rw [List.map_nil, List.nil_append, borrow_cons, Brackets.lend_nil, Nat.sub_eq_zero_of_le h]
    rfl
  | cons g outer ih =>
    rw [List.map_cons, List.sum_cons] at h
    rw [List.map_cons, List.cons_append, borrow_cons, ih (by omega), Brackets.lend_cons]
    rfl

theorem splitOff_map {α : Type} (f : Operand → α) {n : Nat} {stack : List Operand}
    (h : n ≤ stack.length) :
    splitOff (stack.length - n) (stack.map f) =
      some ((stack.drop n).map f, (Operand.newest n stack).map f) := by
  rw [splitOff, List.length_map, Nat.psub_eq_sub (Nat.sub_le ..), Nat.sub_sub_self h,
    Option.map_some, List.map_drop, Operand.newest, List.map_reverse, List.map_take]

theorem push?_stacks (s : Brackets) (a : Operand) :
    s.stacks.push? a.expr a.depth = some (s.push a).stacks := by
  unfold Brackets.push
  split
  next h => simp [push?, Brackets.stacks, h]
  next h => simp [push?, Brackets.stacks, h]

theorem close?_stacks {s : Brackets}
    (h : (s.groups.map Group.count).sum + s.loose = s.operands.length) (limit position : Nat) :
    s.stacks.close? limit position =
      some ((s.closeGroup limit position).map fun out => out.1.stacks) := by
  cases hgroups : s.groups with
  | nil => simp [close?, Brackets.stacks, Brackets.closeGroup, hgroups, Except.map]
  | cons g outer =>
    cases hpending : s.pending with
    | nil => simp [close?, Brackets.stacks, Brackets.closeGroup, hgroups, hpending, Except.map]
    | cons p waiting =>
      rw [hgroups, List.map_cons, List.sum_cons] at h
      simp only [close?, Brackets.stacks, hgroups, hpending, List.map_cons, List.cons_append,
        List.length_map]
      by_cases hle : p.op.arity.required g.count ≤ s.operands.length
      · rw [if_neg (Nat.not_lt.mpr hle)]
        by_cases hheld : p.op.arity.required g.count < g.count
        · rw [if_pos hheld, Brackets.closeGroup_overfull hgroups hpending hle hheld]
          rfl
        · have hheld := Nat.not_lt.mp hheld
          have hnode := Operand.node?_map_expr (Operand.accepts_newest hle)
          have hlent : p.op.arity.required g.count - g.count ≤
              (outer.map Group.count).sum + s.loose := by omega
          have hpush := push?_stacks ⟨s.operands.drop (p.op.arity.required g.count), waiting,
            (lend s.loose (p.op.arity.required g.count - g.count) outer).1,
            (lend s.loose (p.op.arity.required g.count - g.count) outer).2⟩
            (Operand.node p.op (Operand.newest _ s.operands) (Operand.accepts_newest hle))
          simp only [Brackets.stacks, Brackets.map_offset_lend] at hpush
          rw [if_neg (Nat.not_lt.mpr hheld), Brackets.closeGroup_node hgroups hpending hle hheld]
          simp only [Nat.psub_eq_sub hheld, borrow_counters hlent, Nat.psub_eq_sub hle,
            splitOff_map _ hle, hnode, Option.bind_eq_bind, Option.bind_some, guard_true]
          by_cases hlimit : limit <
              (Operand.node p.op (Operand.newest _ s.operands) (Operand.accepts_newest hle)).depth
          · rw [if_pos hlimit]
            exact if_pos hlimit
          · rw [if_neg hlimit]
            refine (if_neg hlimit).trans ?_
            exact congrArg (Option.map Except.ok) hpush
      · have hlt := Nat.not_le.mp hle
        rw [if_pos hlt, Brackets.closeGroup_short hgroups hpending hlt]
        rfl

theorem step?_stacks {set : Settings} {s : Brackets} (h : s.InStep set) (x : Step) :
    s.stacks.step? set x = some ((advance (Brackets.step set) s x).map Brackets.stacks) := by
  unfold step? advance Brackets.step
  cases x.lexeme.role set.catalog with
  | operand e => exact congrArg (Option.map Except.ok) (push?_stacks s (.leaf e))
  | operation o => rfl
  | opening => rfl
  | closing =>
    refine (close?_stacks h.counts set.limit x.span.position).trans ?_
    dsimp only
    cases s.closeGroup set.limit x.span.position <;> rfl
  | unknown => rfl

theorem run?_stacks {set : Settings} {s : Brackets} (h : s.InStep set) (xs : List Step) :
    s.stacks.run? set xs = some ((xs.foldlM (advance (Brackets.step set)) s).map Brackets.stacks) := by
  induction xs generalizing s with
  | nil => rfl
  | cons x xs ih =>
    rw [run?, step?_stacks h x]
    cases hx : advance (Brackets.step set) s x with
    | error e =>
      rw [foldlM_cons_of_error hx]
      rfl
    | ok s' =>
      obtain ⟨events, hstep⟩ := advance_eq_ok_iff.mp hx
      rw [foldlM_cons_of_ok hx]
      exact ih ((Brackets.move_of_step hstep).inStep h)

structure Sound (set : Settings) (t : Stacks) : Prop where
  length_counters : t.counters.length = t.brackets.length + 1
  sum_counters : t.counters.sum = t.operands.length
  depths : t.depths = t.operands.map Expr.depth
  allowed : ∀ e ∈ t.operands, Allows set e

theorem sound_stacks {set : Settings} {s : Brackets} (h : s.InStep set) : s.stacks.Sound set where
  length_counters := by simp [Brackets.stacks]
  sum_counters := by simpa [Brackets.stacks] using h.counts
  depths := by
    simp only [Brackets.stacks, List.map_map]
    exact List.map_congr_left fun a ha => (h.operands a ha).1
  allowed := List.forall_mem_map.mpr fun a ha => (h.operands a ha).2

theorem eq_tooDeep_of_closeGroup {set : Settings} {s : Brackets} (h : s.InStep set) {p : Pending}
    (hpending : p ∈ s.pending.head?) (hp : p.op.arity = .variadic) (hgroups : s.groups ≠ [])
    {position : Nat} {e : ParseError} (he : s.closeGroup set.limit position = .error e) :
    e = .tooDeep set.limit position := by
  obtain ⟨waiting, hpending⟩ := List.head?_eq_some_iff.mp hpending
  obtain ⟨g, outer, hgroups⟩ := List.exists_cons_of_ne_nil hgroups
  have hrequired : p.op.arity.required g.count = g.count := by rw [hp, Arity.required]
  have hcounts := h.counts
  rw [hgroups, List.map_cons, List.sum_cons] at hcounts
  rw [Brackets.closeGroup_node hgroups hpending (by omega) (by omega)] at he
  dsimp only at he
  split at he
  next => exact (Except.error.inj he).symm
  next => cases he

end Stacks

theorem allows_of_parse {set : Settings} {source : String} {e : Expr}
    (h : parse set source = .ok e) : Allows set e := by
  obtain ⟨s, hrun, -, -, a, hoperands, rfl⟩ := Brackets.exists_run_of_parse h
  exact ((Brackets.inStep_of_run hrun).operands a (hoperands ▸ List.mem_singleton_self a)).2

/-- At every moment of every reading the stacks are in step with one another and hold allowed
expressions only. So no check stops the reader that works on them, it does what the reader of the
library does, only the depth can keep a variadic operation from closing, and a result is allowed. -/
theorem parallel_stacks_sound (set : Settings) (source : String) :
    (∀ read, read <+: scan source → ∃ out : Except ParseError Stacks,
      Stacks.run? set {} read = some out ∧
      out = (read.foldlM (advance (Brackets.step set)) {}).map
        Brackets.stacks ∧
      ∀ t, out = .ok t → t.Sound set ∧
        ∀ p ∈ t.pending.head?, p.op.arity = .variadic → t.brackets ≠ [] →
          ∀ position e, t.close? set.limit position = some (.error e) →
            e = .tooDeep set.limit position) ∧
    ∀ e, parse set source = .ok e → Allows set e := by
  refine ⟨fun read _ => ?_, fun e he => allows_of_parse he⟩
  have hstart : Brackets.InStep set {} :=
    ⟨rfl, List.forall_mem_nil _, List.forall_mem_nil _⟩
  refine ⟨_, Stacks.run?_stacks hstart read, rfl, ?_⟩
  intro t ht
  cases hrun : read.foldlM (advance (Brackets.step set)) {} with
  | error e =>
    rw [hrun] at ht
    cases ht
  | ok s =>
    rw [hrun] at ht
    obtain rfl : s.stacks = t := Except.ok.inj ht
    have hs := Brackets.inStep_of_run hrun
    refine ⟨Stacks.sound_stacks hs, ?_⟩
    intro p hpending hp hbrackets position e he
    rw [Stacks.close?_stacks hs.counts] at he
    have hclose : s.closeGroup set.limit position = .error e := by
      cases hclose : s.closeGroup set.limit position with
      | error e' =>
        rw [hclose] at he
        exact congrArg Except.error (Except.error.inj (Option.some.inj he))
      | ok out =>
        rw [hclose] at he
        cases he
    have hgroups : s.groups ≠ [] := fun hnil => hbrackets (by rw [Brackets.stacks, hnil]; rfl)
    exact Stacks.eq_tooDeep_of_closeGroup hs hpending hp hgroups hclose

theorem parallel_stacks_sound_lending :
    (∃ t, Stacks.run? ⟨.standard, 0⟩ {} (scan "x (sum y") = some (.ok t) ∧
      t.counters = [1, 1] ∧ t.Sound ⟨.standard, 0⟩ ∧
      ∃ e, t.close? 0 9 = some (.error e) ∧ e = .tooDeep 0 9) ∧
    Allows ⟨.standard, 2⟩ (.negate (.add (.var .x) (.var .y))) := by
  obtain ⟨hstates, -⟩ := parallel_stacks_sound ⟨.standard, 0⟩ "x (sum y"
  obtain ⟨-, hresult⟩ := parallel_stacks_sound ⟨.standard, 2⟩ "(x negate (+ y))"
  constructor
  · obtain ⟨out, hrun, hout, hall⟩ := hstates _ List.prefix_rfl
    obtain rfl : out = .ok ⟨[.var .y, .var .x], [0, 0], [⟨.variadic .sum, 4⟩], [2], [1, 1]⟩ :=
      hout.trans rfl
    obtain ⟨hsound, hdeep⟩ := hall _ rfl
    exact ⟨_, hrun, rfl, hsound, _, rfl, hdeep ⟨.variadic .sum, 4⟩ rfl rfl (by decide) 9 _ rfl⟩
  · exact hresult _ rfl

end Reading
end Trivariate
