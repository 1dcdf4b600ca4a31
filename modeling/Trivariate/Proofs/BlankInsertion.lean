import Trivariate.Proofs.BracketMoves
import Trivariate.Proofs.StepPlaces

/-! A blank more in a text. Where it does not stand inside a token it moves what comes after it by one
place and changes nothing else, neither what a scan finds nor what a reader makes of it. -/

namespace Trivariate

def inserted (source : String) (q : Nat) (w : Char) : String :=
  String.ofList (source.toList.take q ++ w :: source.toList.drop q)

def Span.moved (q : Nat) (s : Span) : Span := if q ≤ s.start then ⟨s.start + 1, s.stop + 1⟩ else s

def Step.moved (q : Nat) (x : Step) : Step := { x with span := x.span.moved q }

/-- A position points to the character before it, counted from 0. -/
def movedPosition (q p : Nat) : Nat := if q < p then p + 1 else p

def ParseError.moved (q : Nat) : ParseError → ParseError
  | unknownToken text p => unknownToken text (movedPosition q p)
  | unpairedBracket bracket p => unpairedBracket bracket (movedPosition q p)
  | missingOperand o p expected available => missingOperand o (movedPosition q p) expected available
  | missingOperation p => missingOperation (movedPosition q p)
  | tooDeep limit p => tooDeep limit (movedPosition q p)

theorem Span.start_moved (q : Nat) (s : Span) :
    (s.moved q).start = if q ≤ s.start then s.start + 1 else s.start := by
  unfold moved
  split <;> rfl

theorem Span.position_moved (q : Nat) (s : Span) :
    (s.moved q).position = movedPosition q s.position := by
  rw [position, position, start_moved, movedPosition]
  split <;> split <;> omega

theorem Token.EndsBefore.insert {t : Token} {rest : List Char} (h : t.EndsBefore rest) {w : Char}
    (hw : Text.isBlank w = true) (n : Nat) (back : List Char) :
    t.EndsBefore (rest.take n ++ w :: back) := by
  cases hfront : rest.take n with
  | nil => exact fun d hd => Apart.of_isBlank hw back d hd t
  | cons c front =>
    cases rest with
    | nil =>
      rw [List.take_nil] at hfront
      cases hfront
    | cons d rest =>
      cases n with
      | zero => cases hfront
      | succ n =>
        obtain ⟨rfl, -⟩ := List.cons.inj hfront
        exact h

namespace Scan

theorem lexeme_insert {c w : Char} {rest : List Char} {n : Nat} (hw : Text.isBlank w = true)
    (hle : (lexeme c rest).2 ≤ n) (back : List Char) :
    lexeme c (rest.take n ++ w :: back) = lexeme c rest := by
  cases hfound : lexeme c rest with
  | mk found more =>
    rw [hfound] at hle
    cases found with
    | token t =>
      obtain ⟨hformed, hends⟩ := formed_of_lexeme hfound
      have hfront : rest.take n = rest.take more ++ (rest.drop more).take (n - more) := by
        rw [← List.take_add, Nat.add_sub_cancel' hle]
      have hlength : (rest.take more).length = more := by
        have hmore := lexeme_snd_le c rest
        rw [hfound] at hmore
        exact List.length_take_of_le hmore
      rw [hfront, List.append_assoc, lexeme_of_formed hformed (hends.insert hw _ _), hlength]
    | stray d =>
      obtain ⟨rfl, rfl, hstray⟩ := lexeme_stray hfound
      exact hstray _

theorem steps_after {q column : Nat} (h : q ≤ column) (taken : Nat) (cs : List Char) :
    steps (column + 1) taken cs = (steps column taken cs).map (Step.moved q) := by
  induction cs generalizing column taken with
  | nil => rfl
  | cons c cs ih =>
    have hrest := ih (Nat.le_succ_of_le h)
    cases taken with
    | succ more => exact hrest more
    | zero =>
      cases hblank : Text.isBlank c with
      | true =>
        rw [steps_blank hblank, steps_blank hblank]
        exact hrest 0
      | false =>
        rw [steps_lexeme hblank, steps_lexeme hblank, List.map_cons, hrest, Step.moved, Span.moved,
          if_pos h, Nat.add_right_comm (column + 1)]

theorem steps_insert {w : Char} (hw : Text.isBlank w = true) {column taken n : Nat} {cs : List Char}
    (hn : n ≤ cs.length) (htaken : taken ≤ n)
    (hplace : ∀ x ∈ steps column taken cs, ∀ t, x.lexeme = .token t →
      ¬ (x.span.start < column + n ∧ column + n < x.span.stop)) :
    steps column taken (cs.take n ++ w :: cs.drop n) =
      (steps column taken cs).map (Step.moved (column + n)) := by
  induction n generalizing column taken cs with
  | zero =>
    obtain rfl := Nat.le_zero.mp htaken
    rw [List.take_zero, List.drop_zero, List.nil_append, steps, if_pos hw]
    exact steps_after (Nat.le_refl _) 0 cs
  | succ n ih =>
    cases cs with
    | nil => cases hn
    | cons c cs =>
      have hn := Nat.le_of_succ_le_succ hn
      have hcolumn : column + (n + 1) = column + 1 + n := by omega
      rw [List.take_succ_cons, List.drop_succ_cons, List.cons_append]
      cases taken with
      | succ more =>
        rw [hcolumn] at hplace ⊢
        exact ih hn (Nat.le_of_succ_le_succ htaken) hplace
      | zero =>
        cases hblank : Text.isBlank c with
        | true =>
          rw [steps_blank hblank, hcolumn] at hplace
          rw [steps_blank hblank, steps_blank hblank, hcolumn]
          exact ih hn (Nat.zero_le n) hplace
        | false =>
          rw [steps_lexeme hblank] at hplace
          obtain ⟨hfirst, hplace⟩ := List.forall_mem_cons.mp hplace
          have hmore : (lexeme c cs).2 ≤ n := by
            cases hfound : (lexeme c cs).1 with
            | token t =>
              have hout := hfirst t hfound
              dsimp only at hout
              omega
            | stray d =>
              have hpair : lexeme c cs = (.stray d, (lexeme c cs).2) := Prod.ext hfound rfl
              obtain ⟨-, hnone, -⟩ := lexeme_stray hpair
              rw [hnone]
              exact Nat.zero_le n
          rw [hcolumn] at hplace
          rw [steps_lexeme hblank, steps_lexeme hblank, lexeme_insert hw hmore, List.map_cons, hcolumn,
            ih hn hmore hplace, Step.moved, Span.moved, if_neg (by dsimp only; omega)]

end Scan

theorem scan_inserted (source : String) {w : Char} {q : Nat} (hw : Text.isBlank w = true)
    (hq : q ≤ source.length) (hplace : ∀ x ∈ scan source, ∀ t, x.lexeme = .token t →
      ¬ (x.span.start < q ∧ q < x.span.stop)) :
    scan (inserted source q w) = (scan source).map (Step.moved q) := by
  have hlength : q ≤ source.toList.length := by rwa [String.length_toList]
  have hsteps : Scan.steps 0 0 (source.toList.take q ++ w :: source.toList.drop q) =
      (scan source).map (Step.moved (0 + q)) :=
    Scan.steps_insert hw hlength (Nat.zero_le q) (by rwa [Nat.zero_add])
  rw [scan, inserted, String.toList_ofList, hsteps, Nat.zero_add]

theorem positionAfter_inserted (source : String) {q : Nat} (hq : q ≤ source.length) (w : Char) :
    positionAfter (inserted source q w) = movedPosition q (positionAfter source) := by
  have hlength : (source.toList.take q ++ w :: source.toList.drop q).length = source.length + 1 := by
    rw [List.length_append, List.length_cons, List.length_take, List.length_drop, String.length_toList]
    omega
  rw [positionAfter, positionAfter, inserted, String.length_ofList, hlength, movedPosition,
    if_pos (Nat.lt_succ_of_le hq)]

namespace Reading

/-- A change of state, step and error that every step of a reader keeps is kept by a reading. -/
theorem bind_moved {σ : Type} {next : Reader σ} {result result' : σ → Except ParseError Expr}
    {m : σ → σ} {k : Step → Step} {r : ParseError → ParseError}
    (hnext : ∀ s x, advance next (m s) (k x) = ((advance next s x).map m).mapError r)
    (hresult : ∀ s, result' (m s) = (result s).mapError r) (s : σ) (xs : List Step) :
    ((xs.map k).foldlM (advance next) (m s)).bind result' =
      ((xs.foldlM (advance next) s).bind result).mapError r := by
  induction xs generalizing s with
  | nil => exact hresult s
  | cons x xs ih =>
    have hx := hnext s x
    rw [List.map_cons]
    cases hstep : advance next s x with
    | error e =>
      rw [hstep] at hx
      rw [foldlM_cons_of_error hx, foldlM_cons_of_error hstep]
      rfl
    | ok t =>
      rw [hstep] at hx
      rw [foldlM_cons_of_ok hx, foldlM_cons_of_ok hstep, ih]

theorem unknown_moved (q : Nat) (x : Step) : unknown (x.moved q) = (unknown x).moved q := by
  rw [unknown, Step.moved, Span.position_moved]
  rfl

def Pending.moved (q : Nat) (p : Pending) : Pending := { p with position := movedPosition q p.position }

def Group.moved (q : Nat) (g : Group) : Group :=
  { g with offset := if q ≤ g.offset then g.offset + 1 else g.offset }

theorem Group.position_moved (q : Nat) (g : Group) :
    (g.moved q).offset + 1 = movedPosition q (g.offset + 1) := by
  rw [moved, movedPosition]
  dsimp only
  split <;> split <;> omega

namespace Brackets

def moved (q : Nat) (s : Brackets) : Brackets :=
  { s with pending := s.pending.map (Pending.moved q), groups := s.groups.map (Group.moved q) }

theorem lend_moved (q loose n : Nat) (groups : List Group) :
    lend loose n (groups.map (Group.moved q)) =
      ((lend loose n groups).1.map (Group.moved q), (lend loose n groups).2) := by
  induction groups generalizing n with
  | nil =>
    rw [List.map_nil, lend_nil]
    rfl
  | cons g outer ih =>
    rw [List.map_cons, lend_cons, lend_cons]
    dsimp only [Group.moved]
    rw [ih]
    rfl

theorem push_moved (q : Nat) (s : Brackets) (a : Operand) : (s.moved q).push a = (s.push a).moved q := by
  obtain ⟨operands, pending, groups, loose⟩ := s
  cases groups <;> rfl

theorem closeGroup_moved (q limit position : Nat) (s : Brackets) :
    ((s.moved q).closeGroup limit (movedPosition q position)).map Prod.fst =
      (((s.closeGroup limit position).map Prod.fst).map (moved q)).mapError (ParseError.moved q) := by
  cases hgroups : s.groups with
  | nil =>
    have hgroups' : (s.moved q).groups = [] := by rw [moved, hgroups, List.map_nil]
    simp only [closeGroup, hgroups, hgroups']
    rfl
  | cons g outer =>
    have hgroups' : (s.moved q).groups = g.moved q :: outer.map (Group.moved q) := by
      rw [moved, hgroups, List.map_cons]
    cases hpending : s.pending with
    | nil =>
      have hpending' : (s.moved q).pending = [] := by rw [moved, hpending, List.map_nil]
      simp only [closeGroup, hgroups, hpending, hgroups', hpending']
      rfl
    | cons p waiting =>
      have hpending' : (s.moved q).pending = p.moved q :: waiting.map (Pending.moved q) := by
        rw [moved, hpending, List.map_cons]
      by_cases hle : p.op.arity.required g.count ≤ s.operands.length
      · by_cases hheld : g.count ≤ p.op.arity.required g.count
        · rw [closeGroup_node hgroups hpending hle hheld, closeGroup_node hgroups' hpending' hle hheld]
          dsimp only [moved, Group.moved, Pending.moved]
          rw [lend_moved]
          split
          next => rfl
          next => exact congrArg Except.ok (push_moved q ⟨_, _, _, _⟩ _)
        · have hlt := Nat.not_le.mp hheld
          rw [closeGroup_overfull hgroups hpending hle hlt, closeGroup_overfull hgroups' hpending' hle hlt]
          rfl
      · have hlt := Nat.not_le.mp hle
        rw [closeGroup_short hgroups hpending hlt, closeGroup_short hgroups' hpending' hlt]
        rfl

theorem advance_moved (set : Settings) (q : Nat) (s : Brackets) (x : Step) :
    advance (step set) (s.moved q) (x.moved q) =
      ((advance (step set) s x).map (moved q)).mapError (ParseError.moved q) := by
  have hlexeme : (x.moved q).lexeme = x.lexeme := rfl
  have hposition : (x.moved q).span.position = movedPosition q x.span.position := x.span.position_moved q
  have hstart : (x.moved q).span.start = _ := x.span.start_moved q
  unfold advance step
  rw [hlexeme]
  cases x.lexeme.role set.catalog with
  | operand e => exact congrArg Except.ok (push_moved q s _)
  | operation o =>
    dsimp only
    rw [hposition]
    rfl
  | opening =>
    dsimp only
    rw [hstart]
    rfl
  | closing =>
    dsimp only
    rw [hposition]
    exact closeGroup_moved q set.limit x.span.position s
  | unknown =>
    dsimp only
    rw [unknown_moved]
    rfl

theorem result_moved (q stop : Nat) (s : Brackets) :
    (s.moved q).result (movedPosition q stop) = (s.result stop).mapError (ParseError.moved q) := by
  obtain ⟨operands, pending, groups, loose⟩ := s
  unfold result moved
  dsimp only
  rw [List.getLast?_map]
  cases groups.getLast? with
  | some g =>
    dsimp only [Option.map_some]
    rw [Group.position_moved]
    rfl
  | none =>
    cases pending with
    | cons p waiting => rfl
    | nil =>
      match operands with
      | [] => rfl
      | [a] => rfl
      | a :: b :: operands => rfl

end Brackets

namespace Polish

theorem apply_moved (q limit position : Nat) (s : Stack) (o : Op) :
    (apply limit s o (movedPosition q position)).map Prod.fst =
      ((apply limit s o position).map Prod.fst).mapError (ParseError.moved q) := by
  unfold apply
  dsimp only
  split
  next =>
    split
    next => rfl
    next => rfl
  next => rfl

theorem advance_moved (set : Settings) (q : Nat) (s : Stack) (x : Step) :
    advance (step set) s (x.moved q) = (advance (step set) s x).mapError (ParseError.moved q) := by
  have hlexeme : (x.moved q).lexeme = x.lexeme := rfl
  have hposition : (x.moved q).span.position = movedPosition q x.span.position := x.span.position_moved q
  unfold advance step
  rw [hlexeme]
  cases x.lexeme.role set.catalog with
  | operand e => rfl
  | operation o =>
    cases o with
    | variadic o =>
      dsimp only
      rw [unknown_moved]
      rfl
    | unary o | binary o =>
      dsimp only
      rw [hposition]
      exact apply_moved q set.limit x.span.position s _
  | opening =>
    dsimp only
    rw [hposition]
    rfl
  | closing =>
    dsimp only
    rw [hposition]
    rfl
  | unknown =>
    dsimp only
    rw [unknown_moved]
    rfl

theorem result_moved (q stop : Nat) (s : Stack) :
    result s (movedPosition q stop) = (result s stop).mapError (ParseError.moved q) := by
  match s with
  | [] => rfl
  | [a] => rfl
  | a :: b :: s => rfl

end Polish

/-- A blank that is put between two tokens, or beside one, moves what is found behind it by one place,
the place of an error too, and is not noticed otherwise. -/
theorem read_inserted (source : String) {w : Char} {q : Nat} (hw : Text.isBlank w = true)
    (hq : q ≤ source.length) (hplace : ∀ x ∈ scan source, ∀ t, x.lexeme = .token t →
      ¬ (x.span.start < q ∧ q < x.span.stop)) :
    scan (inserted source q w) = (scan source).map (Step.moved q) ∧
    ∀ (form : Form) (set : Settings), (read form set (inserted source q w)).2 =
      (read form set source).2.mapError (ParseError.moved q) := by
  have hscan := scan_inserted source hw hq hplace
  refine ⟨hscan, fun form set => ?_⟩
  cases form with
  | bracketed =>
    rw [read, snd_readBracketed, snd_readBracketed, hscan, positionAfter_inserted source hq]
    exact bind_moved (Brackets.advance_moved set q) (Brackets.result_moved q _) {} (scan source)
  | polish =>
    rw [read, snd_readPolish, snd_readPolish, hscan, positionAfter_inserted source hq]
    refine bind_moved (m := id) (fun s x => ?_) (Polish.result_moved q _) [] (scan source)
    rw [Except.map_id]
    exact Polish.advance_moved set q s x

theorem read_inserted_between_touching :
    (read .bracketed ⟨.standard, 1⟩ (inserted "(2x-)" 2 '\u3000')).2 =
      .ok (.sub (.const 2) (.var .x)) ∧
    (read .bracketed ⟨.standard, 0⟩ (inserted "(2x-)" 2 '\u3000')).2 = .error (.tooDeep 0 6) ∧
    (read .polish ⟨.standard, 0⟩ (inserted "(2x-)" 2 '\u3000')).2 =
      .error (.unpairedBracket '(' 1) := by
  have hplace : ∀ x ∈ scan "(2x-)", ¬ (x.span.start < 2 ∧ 2 < x.span.stop) := by decide
  obtain ⟨-, hread⟩ := read_inserted "(2x-)" (w := '\u3000') (by decide) (by decide)
    fun x hx _ _ => hplace x hx
  rw [hread, hread, hread]
  decide +kernel

end Reading
end Trivariate
