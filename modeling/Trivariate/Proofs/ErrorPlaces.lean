import Trivariate.Proofs.OperandRecord
import Trivariate.Proofs.ReaderFailures
import Trivariate.Proofs.StepPlaces

/-! Where errors point. The position of every error lies in the text or just behind it, and what the
error names stands there, also where the reader met it long before it failed. -/

namespace Trivariate

def StandsAt (source : String) (position : Nat) (l : Lexeme) : Prop :=
  (∃ x ∈ scan source, x.lexeme = l ∧ x.span.position = position) ∧
    l.text.toList <+: source.toList.drop (position - 1)

section Places

variable {source : String} {x : Step} {position : Nat}

theorem standsAt_of_mem_scan (h : x ∈ scan source) : StandsAt source x.span.position x.lexeme := by
  refine ⟨⟨x, h, rfl, rfl⟩, ?_⟩
  rw [Scan.text_of_mem_scan h]
  exact List.take_prefix _ _

theorem StandsAt.bounds {l : Lexeme} (h : StandsAt source position l) :
    1 ≤ position ∧ position ≤ source.length := by
  obtain ⟨⟨x, hx, -, rfl⟩, -⟩ := h
  obtain ⟨hstart, hstop⟩ := Scan.span_of_mem_scan hx
  exact ⟨Nat.succ_pos _, hstart.trans_le hstop⟩

theorem StandsAt.getElem? {t : Token} {c : Char} (h : StandsAt source position (.token t))
    (ht : t.text.toList = [c]) : source.toList[position - 1]? = some c := by
  obtain ⟨rest, hrest⟩ : [c] <+: source.toList.drop (position - 1) := ht ▸ h.2
  have hfirst := congrArg (·[0]?) hrest
  rw [List.getElem?_drop, Nat.add_zero] at hfirst
  exact hfirst.symm

end Places

namespace Reading

def Form.TakesAll (set : Settings) (source : String) : Form → Prop
  | .bracketed => ∃ s, (run (Brackets.step set) {} (scan source)).2 = .ok s
  | .polish => ∃ s, (run (Polish.step set) [] (scan source)).2 = .ok s

def PointsAt (form : Form) (set : Settings) (source : String) : ParseError → Prop
  | .unknownToken text p => ∃ l, StandsAt source p l ∧ l.text = text
  | .unpairedBracket bracket p => source.toList[p - 1]? = some bracket
  | .missingOperand o p _ _ => ∃ t, StandsAt source p (.token t) ∧ t.text = o.symbol
  | .missingOperation p =>
    p = source.length + 1 ∧ form.TakesAll set source ∨
      form = .bracketed ∧ source.toList[p - 1]? = some ')'
  | .tooDeep limit p => limit = set.limit ∧
    match form with
    | .bracketed => source.toList[p - 1]? = some ')'
    | .polish => ∃ (t : Token) (o : Op), StandsAt source p (.token t) ∧ t.text = o.symbol

def Located (form : Form) (set : Settings) (source : String) (e : ParseError) : Prop :=
  1 ≤ e.position ∧ e.position ≤ source.length + 1 ∧ PointsAt form set source e

variable {form : Form} {set : Settings} {source : String} {x : Step}

theorem located_of_standsAt {l : Lexeme} {e : ParseError} (h : StandsAt source e.position l)
    (he : PointsAt form set source e) : Located form set source e :=
  ⟨h.bounds.1, Nat.le_succ_of_le h.bounds.2, he⟩

theorem located_unknown (h : x ∈ scan source) : Located form set source (unknown x) :=
  located_of_standsAt (standsAt_of_mem_scan h) ⟨_, standsAt_of_mem_scan h, rfl⟩

theorem standsAt_of_role (h : x ∈ scan source) {o : Op}
    (hrole : x.lexeme.role set.catalog = .operation o) :
    StandsAt source x.span.position (.token o.token) := by
  have hlexeme := (kinds_operation (Scan.shape_of_mem_scan source x h) hrole).1
  exact hlexeme ▸ standsAt_of_mem_scan h

namespace Brackets

structure Placed (source : String) (s : Brackets) : Prop where
  pending : ∀ p ∈ s.pending, StandsAt source p.position (.token p.op.token)
  groups : ∀ offset ∈ s.groups.map Group.offset, StandsAt source (offset + 1) (.token .opening)

theorem Move.placed {s s' : Brackets} {events : List Event} (h : Move set s x s' events)
    (hx : x ∈ scan source) (hs : s.Placed source) : s'.Placed source := by
  cases h with
  | operand => exact ⟨by rw [pending_push]; exact hs.pending, by rw [map_offset_push]; exact hs.groups⟩
  | operation hrole =>
    exact ⟨List.forall_mem_cons.mpr ⟨standsAt_of_role hx hrole, hs.pending⟩, hs.groups⟩
  | opening hlexeme =>
    exact ⟨hs.pending, List.forall_mem_cons.mpr ⟨hlexeme ▸ standsAt_of_mem_scan hx, hs.groups⟩⟩
  | @closing g outer p waiting n a _ hgroups hpending =>
    constructor
    · rw [pending_push]
      exact fun q hq => hs.pending q (hpending ▸ List.mem_cons_of_mem _ hq)
    · have houter := hs.groups
      rw [hgroups, List.map_cons] at houter
      rw [map_offset_push]
      dsimp only
      rw [map_offset_lend]
      exact (List.forall_mem_cons.mp houter).2

theorem placed_of_run {s : Brackets} {xs : List Step} (hxs : xs <+: scan source)
    (h : xs.foldlM (advance (step set)) {} = .ok s) : s.Placed source := by
  refine invariant_of_run (P := fun _ t _ => t.Placed source)
    ⟨List.forall_mem_nil _, List.forall_mem_nil _⟩ ?_ h
  intro read y t _ t' events hread ht hy
  have hmem : y ∈ scan source :=
    (hread.trans hxs).subset (List.mem_append_right _ (List.mem_singleton_self y))
  exact (move_of_step hy).placed hmem ht

theorem located_of_refuses {s : Brackets} {e : ParseError} (hx : x ∈ scan source)
    (hs : s.Placed source) (h : Refuses set s x e) : Located .bracketed set source e := by
  have hstands := standsAt_of_mem_scan hx
  have hbracket : x.lexeme = .token .closing →
      source.toList[x.span.position - 1]? = some ')' := fun hlexeme =>
    StandsAt.getElem? (hlexeme ▸ hstands) rfl
  cases h with
  | unknown => exact located_unknown hx
  | unpaired hlexeme => exact located_of_standsAt hstands (hbracket hlexeme)
  | idle hlexeme => exact located_of_standsAt hstands (.inr ⟨rfl, hbracket hlexeme⟩)
  | short _ _ hpending =>
    have hsymbol := hs.pending _ (hpending ▸ List.mem_cons_self ..)
    exact located_of_standsAt hsymbol ⟨_, hsymbol, Op.text_token _⟩
  | overfull hlexeme => exact located_of_standsAt hstands (.inr ⟨rfl, hbracket hlexeme⟩)
  | deep hlexeme => exact located_of_standsAt hstands ⟨rfl, hbracket hlexeme⟩

theorem located_of_lacks {s : Brackets} {e : ParseError}
    (hrun : (scan source).foldlM (advance (step set)) {} = .ok s) (hs : s.Placed source)
    (h : s.Lacks (positionAfter source) e) : Located .bracketed set source e := by
  cases h with
  | unclosed hgroups =>
    have hopening := hs.groups _ (List.mem_map_of_mem (List.mem_of_getLast? hgroups))
    exact located_of_standsAt hopening (hopening.getElem? rfl)
  | waiting _ hpending =>
    have hsymbol := hs.pending _ (hpending ▸ List.mem_cons_self ..)
    exact located_of_standsAt hsymbol ⟨_, hsymbol, Op.text_token _⟩
  | uncombined =>
    exact ⟨Nat.succ_pos _, Nat.le_refl _, .inl ⟨rfl, s, (snd_run _ _ _).trans hrun⟩⟩

end Brackets

theorem Polish.located_of_refuses {s : Polish.Stack} {e : ParseError} (hx : x ∈ scan source)
    (h : Polish.Refuses set s x e) : Located .polish set source e := by
  have hstands := standsAt_of_mem_scan hx
  cases h with
  | unknown => exact located_unknown hx
  | variadic => exact located_unknown hx
  | opening hlexeme =>
    exact located_of_standsAt hstands (StandsAt.getElem? (hlexeme ▸ hstands) rfl)
  | closing hlexeme =>
    exact located_of_standsAt hstands (StandsAt.getElem? (hlexeme ▸ hstands) rfl)
  | short hrole =>
    have hsymbol := standsAt_of_role hx hrole
    exact located_of_standsAt hsymbol ⟨_, hsymbol, Op.text_token _⟩
  | deep hrole =>
    have hsymbol := standsAt_of_role hx hrole
    exact located_of_standsAt hsymbol ⟨rfl, _, _, hsymbol, Op.text_token _⟩

theorem read_error_points (form : Form) (set : Settings) (source : String) {e : ParseError}
    (h : (read form set source).2 = .error e) :
    1 ≤ e.position ∧ e.position ≤ source.length + 1 ∧ PointsAt form set source e := by
  cases form with
  | bracketed =>
    rcases Brackets.refuses_or_lacks h with ⟨front, x, back, s, hscan, hrun, hx⟩ | ⟨s, hrun, hs⟩
    · have hfront : front <+: scan source := ⟨x :: back, hscan.symm⟩
      have hmem : x ∈ scan source := hscan ▸ List.mem_append_right _ (List.mem_cons_self ..)
      exact Brackets.located_of_refuses hmem (Brackets.placed_of_run hfront hrun) hx
    · exact Brackets.located_of_lacks hrun (Brackets.placed_of_run List.prefix_rfl hrun) hs
  | polish =>
    rcases Polish.refuses_or_missingOperation h with
      ⟨front, x, back, s, hscan, -, hx⟩ | ⟨s, hrun, rfl, -⟩
    · have hmem : x ∈ scan source := hscan ▸ List.mem_append_right _ (List.mem_cons_self ..)
      exact Polish.located_of_refuses hmem hx
    · exact ⟨Nat.succ_pos _, Nat.le_refl _, .inl ⟨rfl, s, (snd_run _ _ _).trans hrun⟩⟩

/-- The symbol is known to lack an operand only at the bracket behind it. -/
theorem read_error_points_to_waiting_symbol :
    (read .bracketed ⟨.standard, 1⟩ "\u3000(- x)").2 = .error (.missingOperand (.binary .sub) 3 2 1) ∧
    ∃ t, StandsAt "\u3000(- x)" 3 (.token t) ∧ t.text = "-" := by
  have hread : (read .bracketed ⟨.standard, 1⟩ "\u3000(- x)").2 =
      .error (.missingOperand (.binary .sub) 3 2 1) := by decide +kernel
  obtain ⟨-, -, hsymbol⟩ := read_error_points .bracketed ⟨.standard, 1⟩ "\u3000(- x)" hread
  exact ⟨hread, hsymbol⟩

end Reading
end Trivariate
