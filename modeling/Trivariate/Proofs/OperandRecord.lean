import Trivariate.Proofs.BracketMoves
import Trivariate.Proofs.PolishReading

/-! What the reading of bracketed text makes of its tokens. The operands that it pushes are the parts of
its result in postorder, so its leaves are the operand tokens in their order, and each of its nodes
belongs to one closing bracket and to the symbol that this bracket takes. -/

namespace Trivariate

namespace Expr

def isLeaf (e : Expr) : Bool := e.op?.isNone

def leaves (e : Expr) : List Expr :=
  e.interpret (.uniform (fun v => [.const v]) (fun v => [.var v]) fun _ => List.flatten)

theorem leaves_node {e : Expr} {o : Op} (h : e.op? = some o) :
    e.leaves = e.operands.flatMap leaves := interpret_node _ _ _ h

theorem isLeaf_node {e : Expr} {o : Op} (h : e.op? = some o) : e.isLeaf = false := by
  rw [isLeaf, h]
  rfl

theorem isLeaf_leaf {e : Expr} (h : e.op? = none) : e.isLeaf = true := by
  rw [isLeaf, h]
  rfl

theorem filter_isLeaf_postorder (e : Expr) : e.postorder.filter isLeaf = e.leaves := by
  induction e using induct_node with
  | const v => rfl
  | var v => rfl
  | node o e h ih =>
    have hroot : [e].filter isLeaf = [] := List.filter_cons_of_neg (by simp [isLeaf_node h])
    rw [postorder_eq, List.filter_append, hroot, List.append_nil, List.filter_flatMap,
      leaves_node h]
    exact List.flatMap_congr fun a ha => ih a ha

end Expr

namespace Step

def isOperand (x : Step) : Bool :=
  match x.lexeme with
  | .token (.number _) => true
  | .token (.name s) => (Var.ofName? s).isSome
  | _ => false

def isSymbol (x : Step) : Bool :=
  match x.lexeme with
  | .token (.symbol _) => true
  | .token (.name s) => (Var.ofName? s).isNone
  | _ => false

def isClosing (x : Step) : Bool := x.lexeme == .token .closing

variable {x : Step}

theorem kinds_opening (h : x.lexeme = .token .opening) :
    x.isOperand = false ∧ x.isSymbol = false ∧ x.isClosing = false := by
  simp [isOperand, isSymbol, isClosing, h]

theorem kinds_closing (h : x.lexeme = .token .closing) :
    x.isOperand = false ∧ x.isSymbol = false ∧ x.isClosing = true := by
  simp [isOperand, isSymbol, isClosing, h]

end Step

namespace Reading

section Steps

variable {set : Settings} {x : Step} (hshape : ∀ t, x.lexeme = .token t → t.Shape)
include hshape

theorem kinds_operand {e : Expr} (h : x.lexeme.role set.catalog = .operand e) :
    e.op? = none ∧ Labels e x ∧ x.isOperand = true ∧ x.isSymbol = false ∧ x.isClosing = false := by
  unfold Step.isOperand Step.isSymbol Step.isClosing
  cases hlexeme : x.lexeme with
  | stray c =>
    rw [hlexeme] at h
    cases h
  | token t =>
    rw [hlexeme] at h
    obtain ⟨he, hlabeled⟩ := Token.labeledBy_of_role (hshape t hlexeme) h
    refine ⟨he, ⟨t, hlexeme, hlabeled⟩, ?_⟩
    cases e with
    | const v =>
      obtain ⟨s, rfl, -⟩ := hlabeled
      exact ⟨rfl, rfl, rfl⟩
    | var v =>
      obtain rfl := hlabeled
      simp [Var.ofName?_eq_some_iff.mpr rfl]
    | unary | binary | variadic => cases he

theorem kinds_operation {o : Op} (h : x.lexeme.role set.catalog = .operation o) :
    x.lexeme = .token o.token ∧ x.isOperand = false ∧ x.isSymbol = true ∧ x.isClosing = false := by
  unfold Step.isOperand Step.isSymbol Step.isClosing
  cases hlexeme : x.lexeme with
  | stray c =>
    rw [hlexeme] at h
    cases h
  | token t =>
    rw [hlexeme] at h
    obtain ⟨-, rfl⟩ := Token.eq_token_of_role (hshape t hlexeme) h
    refine ⟨rfl, ?_⟩
    rcases o with o | o | o <;> cases o <;> exact ⟨rfl, rfl, rfl⟩

end Steps

def Event.operand? : Event → Option Expr
  | .operand e => some e
  | _ => none

def pushed (record : List (Step × Event)) : List (Step × Expr) :=
  record.filterMap fun p => p.2.operand?.map (p.1, ·)

theorem pushed_append (as bs : List (Step × Event)) : pushed (as ++ bs) = pushed as ++ pushed bs :=
  List.filterMap_append

theorem mem_of_mem_pushed {record : List (Step × Event)} {p : Step × Expr} (h : p ∈ pushed record) :
    ∃ event, (p.1, event) ∈ record := by
  obtain ⟨⟨x, event⟩, hmem, hp⟩ := List.mem_filterMap.mp h
  obtain ⟨e, -, rfl⟩ := Option.map_eq_some_iff.mp hp
  exact ⟨event, hmem⟩

theorem filterMap_operand?_run {σ : Type} (next : Reader σ) (s : σ) (xs : List Step) :
    (run next s xs).1.filterMap Event.operand? = (pushed (told next s xs)).map Prod.snd := by
  have hannounce : ∀ x, (announce x).filterMap Event.operand? = [] := by
    intro x
    unfold announce
    split <;> rfl
  induction xs generalizing s with
  | nil => rfl
  | cons x xs ih =>
    rw [run, told]
    cases next s x with
    | error e => exact hannounce x
    | ok out =>
      have hevents : (pushed (out.2.map (x, ·))).map Prod.snd = out.2.filterMap Event.operand? := by
        rw [pushed, List.filterMap_map, List.map_filterMap]
        refine congrArg (List.filterMap · out.2) (funext fun event => ?_)
        simp [Function.comp_def]
      dsimp only
      rw [List.filterMap_append, List.filterMap_append, hannounce, ih, pushed_append, List.map_append,
        hevents, List.nil_append]

def pushes (set : Settings) (source : String) : List (Step × Expr) :=
  pushed (told (Brackets.step set) {} (scan source))

theorem filterMap_operand?_readBracketed (set : Settings) (source : String) :
    (readBracketed set source).1.filterMap Event.operand? = (pushes set source).map Prod.snd := by
  rw [pushes, ← filterMap_operand?_run, readBracketed]
  dsimp only
  split <;> simp [Event.operand?]

/-- Pairs each closing bracket of some steps with the newest symbol that waits for one. No bracket may
find none, and no symbol may be left. -/
def pairOff : List Step → List Step → Option (List (Step × Step))
  | [], [] => some []
  | [], _ :: _ => none
  | x :: xs, waiting =>
    if x.isClosing then
      match waiting with
      | [] => none
      | w :: waiting => (pairOff xs waiting).map ((w, x) :: ·)
    else if x.isSymbol then pairOff xs (x :: waiting)
    else pairOff xs waiting

section Pairs

variable {x : Step} (xs : List Step)

theorem pairOff_closing (h : x.isClosing = true) (w : Step) (waiting : List Step) :
    pairOff (x :: xs) (w :: waiting) = (pairOff xs waiting).map ((w, x) :: ·) := by
  rw [pairOff, if_pos h]

theorem pairOff_symbol (hclosing : x.isClosing = false) (h : x.isSymbol = true)
    (waiting : List Step) : pairOff (x :: xs) waiting = pairOff xs (x :: waiting) := by
  rw [pairOff.eq_def]
  dsimp only
  rw [if_neg (by simp [hclosing]), if_pos h]

theorem pairOff_other (hclosing : x.isClosing = false) (h : x.isSymbol = false)
    (waiting : List Step) : pairOff (x :: xs) waiting = pairOff xs waiting := by
  rw [pairOff.eq_def]
  dsimp only
  rw [if_neg (by simp [hclosing]), if_neg (by simp [h])]

theorem pairs_of_pairOff {xs waiting : List Step} {pairs : List (Step × Step)}
    (h : pairOff xs waiting = some pairs) :
    (pairs.map Prod.fst).Perm (waiting ++ xs.filter Step.isSymbol) ∧
      pairs.map Prod.snd = xs.filter Step.isClosing := by
  induction xs generalizing waiting pairs with
  | nil =>
    cases waiting with
    | nil =>
      obtain rfl : [] = pairs := Option.some.inj h
      exact ⟨.nil, rfl⟩
    | cons w waiting => cases h
  | cons x xs ih =>
    cases hclosing : x.isClosing with
    | true =>
      cases waiting with
      | nil =>
        rw [pairOff, if_pos hclosing] at h
        cases h
      | cons w waiting =>
        rw [pairOff_closing xs hclosing] at h
        obtain ⟨rest, hrest, rfl⟩ := Option.map_eq_some_iff.mp h
        obtain ⟨hfst, hsnd⟩ := ih hrest
        obtain ⟨-, hsymbol, -⟩ := Step.kinds_closing (beq_iff_eq.mp hclosing)
        rw [List.map_cons, List.map_cons, List.filter_cons_of_neg (by simp [hsymbol]),
          List.filter_cons_of_pos hclosing, hsnd]
        exact ⟨hfst.cons w, rfl⟩
    | false =>
      have hskip : (x :: xs).filter Step.isClosing = xs.filter Step.isClosing :=
        List.filter_cons_of_neg (by simp [hclosing])
      rw [hskip]
      cases hsymbol : x.isSymbol with
      | true =>
        rw [pairOff_symbol xs hclosing hsymbol] at h
        obtain ⟨hfst, hsnd⟩ := ih h
        rw [List.filter_cons_of_pos hsymbol]
        exact ⟨hfst.trans List.perm_middle.symm, hsnd⟩
      | false =>
        rw [pairOff_other xs hclosing hsymbol] at h
        rw [List.filter_cons_of_neg (by simp [hsymbol])]
        exact ih h

end Pairs

section Runs

variable {set : Settings} {xs : List Step} {s s' : Brackets}

theorem map_snd_pushed (h : xs.foldlM (advance (Brackets.step set)) {} = .ok s) :
    (pushed (told (Brackets.step set) {} xs)).map Prod.snd =
      s.operands.reverse.flatMap fun a => a.expr.postorder := by
  refine invariant_of_run (P := fun _ t record => (pushed record).map Prod.snd =
    t.operands.reverse.flatMap fun a => a.expr.postorder) rfl ?_ h
  intro read x t record t' events _ ih hx
  rw [pushed_append, List.map_append, ih]
  cases Brackets.move_of_step hx with
  | @operand e hrole =>
    have hleaf : e.postorder = [e] := by
      rw [Expr.postorder_eq, Expr.operands_leaf (Lexeme.op?_of_role hrole)]
      rfl
    rw [Brackets.operands_push, List.reverse_cons, List.flatMap_append, List.flatMap_singleton,
      Operand.leaf, hleaf]
    rfl
  | operation => exact List.append_nil _
  | opening => exact List.append_nil _
  | @closing g outer p waiting n a _ _ _ _ _ _ _ hoperands =>
    -- the node takes the end of the listing and puts itself behind it
    have hstack : t.operands.reverse = (t.operands.drop n).reverse ++ Operand.newest n t.operands := by
      rw [Operand.newest, ← List.reverse_append, List.take_append_drop]
    rw [Brackets.operands_push, List.reverse_cons, List.flatMap_append, List.flatMap_singleton,
      Expr.postorder_eq a.expr, hoperands, List.flatMap_map, hstack, List.flatMap_append,
      List.append_assoc]
    rfl

theorem leaves_pushed (hshape : ∀ x ∈ xs, ∀ t, x.lexeme = .token t → t.Shape)
    (h : xs.foldlM (advance (Brackets.step set)) {} = .ok s) :
    List.Forall₂ (fun made x => made.1 = x ∧ Labels made.2 x)
      ((pushed (told (Brackets.step set) {} xs)).filter (·.2.isLeaf)) (xs.filter Step.isOperand) := by
  refine invariant_of_run (P := fun read _ record =>
    List.Forall₂ (fun made x => made.1 = x ∧ Labels made.2 x)
      ((pushed record).filter (·.2.isLeaf)) (read.filter Step.isOperand)) .nil ?_ h
  intro read x t record t' events hread ih hx
  have hx' := hshape x (hread.subset (List.mem_append_right _ (List.mem_singleton_self x)))
  rw [pushed_append, List.filter_append, List.filter_append]
  refine List.rel_append ih ?_
  cases Brackets.move_of_step hx with
  | @operand e hrole =>
    obtain ⟨he, hlabels, hoperand, -⟩ := kinds_operand hx' hrole
    have hleaf : (pushed ([Event.operand e].map (x, ·))).filter (·.2.isLeaf) = [(x, e)] :=
      List.filter_cons_of_pos (Expr.isLeaf_leaf he)
    rw [hleaf, List.filter_cons_of_pos hoperand]
    exact .cons ⟨rfl, hlabels⟩ .nil
  | operation hrole =>
    obtain ⟨-, hoperand, -⟩ := kinds_operation hx' hrole
    rw [List.filter_cons_of_neg (by simp [hoperand])]
    exact .nil
  | opening hlexeme =>
    rw [List.filter_cons_of_neg (by simp [Step.kinds_opening hlexeme])]
    exact .nil
  | @closing g outer p waiting n a hlexeme _ _ _ _ _ hop =>
    have hnode :
        (pushed ([Event.closing p.op n, .operand a.expr].map (x, ·))).filter (·.2.isLeaf) = [] :=
      List.filter_cons_of_neg (by simp [Expr.isLeaf_node hop])
    rw [hnode, List.filter_cons_of_neg (by simp [Step.kinds_closing hlexeme])]
    exact .nil

theorem leaves_of_run (hshape : ∀ x ∈ xs, ∀ t, x.lexeme = .token t → t.Shape)
    (h : xs.foldlM (advance (Brackets.step set)) {} = .ok s) :
    List.Forall₂ Labels (s.operands.reverse.flatMap fun a => a.expr.leaves)
      (xs.filter Step.isOperand) := by
  have hstack : (s.operands.reverse.flatMap fun a => a.expr.leaves) =
      ((pushed (told (Brackets.step set) {} xs)).filter (·.2.isLeaf)).map Prod.snd := by
    have hfilter := congrArg (List.filter Expr.isLeaf) (map_snd_pushed h)
    rw [List.filter_flatMap, List.filter_map] at hfilter
    simp only [Expr.filter_isLeaf_postorder] at hfilter
    exact hfilter.symm
  rw [hstack, List.forall₂_map_left_iff]
  exact (leaves_pushed hshape h).imp fun _ _ hmade => hmade.2

theorem nodes_pushed (hshape : ∀ x ∈ xs, ∀ t, x.lexeme = .token t → t.Shape) {waiting : List Step}
    (hwaiting : List.Forall₂ (fun p w => w.lexeme = .token p.op.token) s.pending waiting)
    (h : xs.foldlM (advance (Brackets.step set)) s = .ok s') (hend : s'.pending = []) :
    ∃ pairs, pairOff xs waiting = some pairs ∧
      List.Forall₂ (fun made pair => made.1 = pair.2 ∧ Labels made.2 pair.1)
        ((pushed (told (Brackets.step set) s xs)).filter (!·.2.isLeaf)) pairs := by
  -- `pairOff` looks ahead, so that no invariant of what was read does
  induction xs generalizing s waiting with
  | nil =>
    obtain rfl : s = s' := Except.ok.inj h
    rw [hend, List.forall₂_nil_left_iff] at hwaiting
    subst hwaiting
    exact ⟨[], rfl, .nil⟩
  | cons x xs ih =>
    obtain ⟨hx, hxs⟩ := List.forall_mem_cons.mp hshape
    obtain ⟨t, events, hstep, h⟩ := foldlM_cons_eq_ok_iff.mp h
    rw [told_cons hstep, pushed_append, List.filter_append]
    cases Brackets.move_of_step hstep with
    | @operand e hrole =>
      obtain ⟨he, -, -, hsymbol, hclosing⟩ := kinds_operand hx hrole
      rw [pairOff_other xs hclosing hsymbol]
      have hleaf : (pushed ([Event.operand e].map (x, ·))).filter (!·.2.isLeaf) = [] :=
        List.filter_cons_of_neg (by simp [Expr.isLeaf_leaf he])
      rw [hleaf]
      exact ih hxs (by rwa [Brackets.pending_push]) h
    | @operation o hrole =>
      obtain ⟨hlexeme, -, hsymbol, hclosing⟩ := kinds_operation hx hrole
      rw [pairOff_symbol xs hclosing hsymbol]
      exact ih hxs (.cons hlexeme hwaiting) h
    | opening hlexeme =>
      obtain ⟨-, hsymbol, hclosing⟩ := Step.kinds_opening hlexeme
      rw [pairOff_other xs hclosing hsymbol]
      exact ih hxs hwaiting h
    | @closing g outer p waiting n a hlexeme _ hpending _ _ _ hop =>
      rw [hpending] at hwaiting
      obtain ⟨w, waiting', hw, hwaiting, rfl⟩ := List.forall₂_cons_left_iff.mp hwaiting
      obtain ⟨pairs, hpairs, hmade⟩ := ih hxs (by rwa [Brackets.pending_push]) h
      have hnode : (pushed ([Event.closing p.op n, .operand a.expr].map (x, ·))).filter
          (!·.2.isLeaf) = [(x, a.expr)] :=
        List.filter_cons_of_pos (by simp [Expr.isLeaf_node hop])
      rw [pairOff_closing xs (Step.kinds_closing hlexeme).2.2, hpairs, hnode]
      have hlabels : Labels a.expr w := ⟨_, hw, (Expr.labeledBy_of_op? hop _).mpr rfl⟩
      exact ⟨(w, x) :: pairs, rfl, .cons ⟨rfl, hlabels⟩ hmade⟩

end Runs

/-- The operands that a reading pushes are the parts of its result in postorder. The leaves are the
operand tokens in turn, and the nodes belong to the closing brackets in turn, each with the operation
of the symbol that its bracket is paired with. -/
theorem parse_postorder (set : Settings) (source : String) {e : Expr}
    (h : parse set source = .ok e) :
    (readBracketed set source).1.filterMap Event.operand? = e.postorder ∧
    (pushes set source).map Prod.snd = e.postorder ∧
    List.Forall₂ Labels e.leaves ((scan source).filter Step.isOperand) ∧
    ∃ pairs, pairOff (scan source) [] = some pairs ∧
      (pairs.map Prod.fst).Perm ((scan source).filter Step.isSymbol) ∧
      pairs.map Prod.snd = (scan source).filter Step.isClosing ∧
      List.Forall₂ (fun made pair => made.1 = pair.2 ∧ Labels made.2 pair.1)
        ((pushes set source).filter (!·.2.isLeaf)) pairs := by
  obtain ⟨s, hrun, -, hpending, a, hoperands, rfl⟩ := Brackets.exists_run_of_parse h
  have hshape : ∀ x ∈ scan source, ∀ t, x.lexeme = .token t → t.Shape := fun x hx t ht =>
    Scan.shape_of_mem_steps hx ht
  have hlisting : (pushes set source).map Prod.snd = a.expr.postorder := by
    have hall := map_snd_pushed hrun
    rw [hoperands] at hall
    simpa [pushes] using hall
  have hleaves := leaves_of_run hshape hrun
  rw [hoperands, List.reverse_singleton, List.flatMap_singleton] at hleaves
  obtain ⟨pairs, hpairs, hnodes⟩ := nodes_pushed hshape .nil hrun hpending
  obtain ⟨hsymbols, hbrackets⟩ := pairs_of_pairOff hpairs
  refine ⟨?_, hlisting, hleaves, pairs, hpairs, hsymbols, hbrackets, hnodes⟩
  rw [filterMap_operand?_readBracketed, hlisting]

theorem parse_postorder_waiting_symbols :
    parse ⟨.standard, 2⟩ "- x negate (y) ()" = .ok (.sub (.var .x) (.negate (.var .y))) ∧
    (pushes ⟨.standard, 2⟩ "- x negate (y) ()").map Prod.snd =
      [.var .x, .var .y, .negate (.var .y), .sub (.var .x) (.negate (.var .y))] ∧
    ∃ pairs, pairOff (scan "- x negate (y) ()") [] = some pairs ∧
      (pairs.map Prod.fst).Perm ((scan "- x negate (y) ()").filter Step.isSymbol) ∧
      pairs.map (·.1.span.start) = [4, 0] := by
  have hparse : parse ⟨.standard, 2⟩ "- x negate (y) ()" =
      .ok (.sub (.var .x) (.negate (.var .y))) := rfl
  obtain ⟨-, hlisting, -, pairs, hpairs, hsymbols, -⟩ := parse_postorder _ _ hparse
  refine ⟨hparse, hlisting, pairs, hpairs, hsymbols, ?_⟩
  obtain rfl := Option.some.inj hpairs
  rfl

end Reading
end Trivariate
