import Trivariate.Proofs.ReaderRuns

/-! Reading bracketed text: from any state the tokens of an expression leave that state with the
expression as one more operand, wherever in a group its symbol stands, as long as the limit on the
depth allows it. -/

namespace Trivariate

namespace Reading

namespace Brackets

def inside (s : Brackets) (offset : Nat) (held : List Operand) : Brackets :=
  { s with
    operands := held.reverse ++ s.operands
    groups := ⟨offset, held.length⟩ :: s.groups }

def pushAll (s : Brackets) (as : List Operand) : Brackets := as.foldl push s

theorem pushAll_inside (s : Brackets) (offset : Nat) (held as : List Operand) :
    (s.inside offset held).pushAll as = s.inside offset (held ++ as) := by
  induction as generalizing held with
  | nil => rw [List.append_nil, pushAll, List.foldl_nil]
  | cons a as ih =>
    have hpush : (s.inside offset held).push a = s.inside offset (held ++ [a]) := by
      simp [inside, push]
    have hrest := ih (held ++ [a])
    rw [List.append_assoc, List.singleton_append] at hrest
    rw [pushAll, List.foldl_cons, hpush]
    exact hrest

theorem closeGroup_inside (limit position offset : Nat) (s : Brackets) (p : Pending)
    {held : List Operand} (h : p.op.accepts held.length = true) :
    ({ s with pending := p :: s.pending }.inside offset held).closeGroup limit position =
      if limit < (Operand.node p.op held h).depth then .error (.tooDeep limit position)
      else .ok (s.push (Operand.node p.op held h),
        [.closing p.op held.length, .operand (Operand.node p.op held h).expr]) := by
  have hrequired : p.op.arity.required held.length = held.length := Arity.required_of_accepts h
  have hle : p.op.arity.required held.length ≤ (held.reverse ++ s.operands).length := by
    rw [hrequired, List.length_append, List.length_reverse]
    omega
  have hnewest : Operand.newest held.length (held.reverse ++ s.operands) = held := by
    rw [Operand.newest, List.take_left' List.length_reverse, List.reverse_reverse]
  have hdrop : (held.reverse ++ s.operands).drop held.length = s.operands :=
    List.drop_left' List.length_reverse
  unfold closeGroup inside
  simp only [dif_pos hle]
  rw [if_neg (by omega)]
  simp only [hrequired, Operand.node_congr hnewest, hdrop, Nat.sub_self, lend]

section Advance

variable {set : Settings} {x : Step}

theorem advance_operand {e : Expr} (h : x.lexeme.role set.catalog = .operand e) (s : Brackets) :
    advance (step set) s x = .ok (s.push (.leaf e)) := by
  rw [advance, step, h]
  rfl

theorem advance_operation {o : Op} (h : x.lexeme.role set.catalog = .operation o) (s : Brackets) :
    advance (step set) s x = .ok { s with pending := ⟨o, x.span.position⟩ :: s.pending } := by
  rw [advance, step, h]
  rfl

theorem advance_opening (h : x.lexeme = .token .opening) (s : Brackets) :
    advance (step set) s x = .ok (s.inside x.span.start []) := by
  rw [advance, step, h]
  rfl

theorem advance_closing (h : x.lexeme = .token .closing) (s : Brackets) :
    advance (step set) s x = (s.closeGroup set.limit x.span.position).map Prod.fst := by
  rw [advance, step, h]
  rfl

end Advance

end Brackets

/-- Steps that read some expressions lead from one state to another, but where one of the
expressions nests operations too deep they fail for that. -/
def Leads (set : Settings) (xs : List Step) (es : List Expr) (s s' : Brackets) : Prop :=
  ((∀ e ∈ es, e.depth ≤ set.limit) → xs.foldlM (advance (Brackets.step set)) s = .ok s') ∧
  ((∃ e ∈ es, set.limit < e.depth) →
    ∃ p, xs.foldlM (advance (Brackets.step set)) s = .error (.tooDeep set.limit p))

namespace Leads

variable {set : Settings} {s s' s'' : Brackets}

theorem nil : Leads set [] [] s s :=
  ⟨fun _ => rfl, fun ⟨_, he, _⟩ => absurd he List.not_mem_nil⟩

theorem single {x : Step} (h : advance (Brackets.step set) s x = .ok s') : Leads set [x] [] s s' := by
  refine ⟨fun _ => ?_, fun ⟨_, he, _⟩ => absurd he List.not_mem_nil⟩
  rw [foldlM_cons_of_ok h]
  rfl

theorem trans {xs ys : List Step} {es fs : List Expr} (h : Leads set xs es s s')
    (h' : Leads set ys fs s' s'') : Leads set (xs ++ ys) (es ++ fs) s s'' := by
  obtain ⟨hok, hdeep⟩ := h
  obtain ⟨hok', hdeep'⟩ := h'
  -- the first steps fail on their own or hand their state over to the others
  by_cases hes : ∀ e ∈ es, e.depth ≤ set.limit
  · unfold Leads
    rw [foldlM_append_of_ok (hok hes)]
    constructor
    · intro hall
      exact hok' fun e he => hall e (List.mem_append_right _ he)
    · rintro ⟨e, he, hlt⟩
      rcases List.mem_append.mp he with he | he
      · exact absurd (hes e he) (Nat.not_le.mpr hlt)
      · exact hdeep' ⟨e, he, hlt⟩
  · have hex : ∃ e ∈ es, set.limit < e.depth := by simpa using hes
    obtain ⟨p, hp⟩ := hdeep hex
    unfold Leads
    rw [foldlM_append_of_error hp]
    constructor
    · intro hall
      exact absurd (fun e he => hall e (List.mem_append_left _ he)) hes
    · exact fun _ => ⟨p, rfl⟩

theorem congr {xs : List Step} {es fs : List Expr} (h : Leads set xs es s s')
    (hfs : (∀ e ∈ es, e.depth ≤ set.limit) ↔ ∀ e ∈ fs, e.depth ≤ set.limit) :
    Leads set xs fs s s' := by
  refine ⟨fun hall => h.1 (hfs.mpr hall), ?_⟩
  rintro ⟨e, he, hlt⟩
  have hsome : ¬ ∀ e ∈ es, e.depth ≤ set.limit := fun hall =>
    absurd (hfs.mp hall e he) (Nat.not_le.mpr hlt)
  exact h.2 (by simpa using hsome)

theorem last {x : Step} {e : Expr} (hx : advance (Brackets.step set) s x =
      if set.limit < e.depth then .error (.tooDeep set.limit x.span.position) else .ok s') :
    Leads set [x] [e] s s' := by
  unfold Leads
  rw [List.foldlM_cons, hx]
  constructor
  · intro hall
    rw [if_neg (Nat.not_lt.mpr (hall e (List.mem_singleton_self e)))]
    rfl
  · rintro ⟨e', he', hlt⟩
    rw [List.mem_singleton.mp he'] at hlt
    rw [if_pos hlt]
    exact ⟨x.span.position, rfl⟩

theorem close {xs : List Step} {x : Step} {e : Expr} (h : Leads set xs e.operands s s')
    (hx : advance (Brackets.step set) s' x =
      if set.limit < e.depth then .error (.tooDeep set.limit x.span.position) else .ok s'') :
    Leads set (xs ++ [x]) [e] s s'' := by
  refine (h.trans (last hx)).congr ?_
  constructor
  · intro hall
    exact List.forall_mem_singleton.mpr (hall e (List.mem_append_right _ (List.mem_singleton_self e)))
  · intro hall a ha
    have hroot : e.depth ≤ set.limit := hall e (List.mem_singleton_self e)
    rcases List.mem_append.mp ha with ha | ha
    · exact (Expr.depth_lt_of_mem_operands ha).le.trans hroot
    · exact List.mem_singleton.mp ha ▸ hroot

end Leads

/-- The tokens bring the expressions as new operands, in their order and whatever the state. -/
def Reads (set : Settings) (ts : List Token) (es : List Expr) : Prop :=
  ∀ (xs : List Step), xs.map Step.lexeme = ts.map Lexeme.token → ∀ s : Brackets,
    Leads set xs es s (s.pushAll (es.map Operand.of))

namespace Reads

variable {set : Settings}

theorem nil : Reads set [] [] := by
  intro xs hxs s
  obtain rfl : xs = [] := by simpa using hxs
  exact Leads.nil

theorem leaf {t : Token} {e : Expr} (ht : t.role set.catalog = .operand e) (he : e.op? = none) :
    Reads set [t] [e] := by
  have hdepth : e.depth = 0 := Expr.depth_leaf he
  intro xs hxs s
  obtain ⟨x, rfl, hx⟩ : ∃ x, xs = [x] ∧ x.lexeme = .token t := by
    simpa [List.map_eq_singleton_iff] using hxs
  have hrole : x.lexeme.role set.catalog = .operand e := by rw [hx, Lexeme.role, ht]
  have hpush := Brackets.advance_operand hrole s
  rw [Operand.leaf, ← hdepth] at hpush
  have hlimit : ¬ set.limit < e.depth := by
    rw [hdepth]
    exact Nat.not_lt_zero _
  exact Leads.last (hpush.trans (if_neg hlimit).symm)

theorem append {ts us : List Token} {es fs : List Expr} (h : Reads set ts es)
    (h' : Reads set us fs) : Reads set (ts ++ us) (es ++ fs) := by
  intro zs hzs s
  obtain ⟨xs, ys, rfl, hxs, hys⟩ := List.map_eq_append_iff.mp (hzs.trans List.map_append)
  have hboth := (h xs hxs s).trans (h' ys hys _)
  rw [Brackets.pushAll, Brackets.pushAll, ← List.foldl_append, ← List.map_append] at hboth
  exact hboth

theorem flatten {f : Expr → List Token} {es : List Expr} (h : ∀ e ∈ es, Reads set (f e) [e]) :
    Reads set (es.map f).flatten es := by
  induction es with
  | nil => exact nil
  | cons e es ih =>
    rw [List.map_cons, List.flatten_cons]
    exact (h e (List.mem_cons_self ..)).append (ih fun a ha => h a (List.mem_cons_of_mem _ ha))

theorem inside {ts : List Token} {es : List Expr} (h : Reads set ts es) {xs : List Step}
    (hxs : xs.map Step.lexeme = ts.map Lexeme.token) (s : Brackets) (offset : Nat) (fs : List Expr) :
    Leads set xs es (s.inside offset (fs.map Operand.of))
      (s.inside offset ((fs ++ es).map Operand.of)) := by
  have hread := h xs hxs (s.inside offset (fs.map Operand.of))
  rw [Brackets.pushAll_inside, ← List.map_append] at hread
  exact hread

theorem node {o : Op} {e : Expr} {es fs : List Expr} {ts us : List Token}
    (hc : o ∈ set.catalog.ops) (ho : e.op? = some o) (he : e.operands = es ++ fs)
    (h : Reads set ts es) (h' : Reads set us fs) :
    Reads set (.opening :: (ts ++ o.token :: us) ++ [.closing]) [e] := by
  intro zs hzs s
  obtain ⟨front, back, rfl, hfront, hback⟩ := List.map_eq_append_iff.mp (hzs.trans List.map_append)
  obtain ⟨last, rfl, hlast⟩ := List.map_eq_singleton_iff.mp hback
  obtain ⟨first, rest, rfl, hfirst, hrest⟩ := List.map_eq_cons_iff.mp hfront
  obtain ⟨xs, tail, rfl, hxs, htail⟩ := List.map_eq_append_iff.mp (hrest.trans List.map_append)
  obtain ⟨x, ys, rfl, hx, hys⟩ := List.map_eq_cons_iff.mp htail
  have hrole : x.lexeme.role set.catalog = .operation o := by
    rw [hx, Lexeme.role, Token.role_token hc]
  have hopen : Leads set [first] [] s (s.inside first.span.start []) :=
    Leads.single (Brackets.advance_opening hfirst s)
  have hbefore := h.inside hxs s first.span.start []
  have hsymbol := Leads.single (Brackets.advance_operation hrole
    (s.inside first.span.start (es.map Operand.of)))
  have hafter := h'.inside hys { s with pending := ⟨o, x.span.position⟩ :: s.pending }
    first.span.start es
  have hbody := hopen.trans (hbefore.trans (hsymbol.trans hafter))
  rw [List.nil_append, List.nil_append, ← he] at hbody
  have haccepts : o.accepts (e.operands.map Operand.of).length = true := by
    rw [List.length_map]
    exact Expr.accepts_operands ho
  -- the group holds just the operands of `e` now, and `o` is the newest operation that waits
  have hclose := Brackets.closeGroup_inside set.limit last.span.position first.span.start s
    ⟨o, x.span.position⟩ haccepts
  rw [Operand.node_of ho haccepts, Operand.depth_of] at hclose
  refine hbody.close ?_
  rw [Brackets.advance_closing hlast, hclose]
  by_cases hlt : set.limit < e.depth
  · rw [if_pos hlt, if_pos hlt]
    rfl
  · rw [if_neg hlt, if_neg hlt]
    rfl

theorem tokens {style : Style} (hs : style.form = .bracketed) {e : Expr} (ho : e.Over set.catalog)
    (hf : e.Finite) : Reads set (e.tokens style) [e] := by
  induction e using Expr.induct_node with
  | const v => exact leaf (Token.role_number (literal?_text hf.const)) rfl
  | var v => exact leaf (Token.role_name_var set.catalog v) rfl
  | node o e hop ih =>
    have hargs : Reads set (e.operands.map (Expr.tokens style)).flatten e.operands :=
      flatten fun a ha => ih a ha (ho.operand ha) (hf.operand ha)
    rw [Expr.tokens_node style hop]
    cases style with
    | leading => exact nil.node (ho.op hop) hop rfl hargs
    | trailing => exact hargs.node (ho.op hop) hop (List.append_nil _).symm nil
    | polish => cases hs

end Reads
end Reading

/-- A bracketed text reads back to its expression, constants bit for bit, exactly as far as the limit
on the depth lets it. -/
theorem parse_text (c : Catalog) (limit : Nat) {style : Style} (hs : style.form = .bracketed) {e : Expr}
    (ho : e.Over c) (hf : e.Finite) :
    (e.depth ≤ limit → parse ⟨c, limit⟩ (e.text style) = .ok e) ∧
    (limit < e.depth → ∃ p, parse ⟨c, limit⟩ (e.text style) = .error (.tooDeep limit p)) := by
  have htokens : (scan (e.text style)).map Step.lexeme = (e.tokens style).map Lexeme.token :=
    Expr.lexemes_text style hf
  have hparse : parse ⟨c, limit⟩ (e.text style) = _ := Reading.snd_readBracketed _ _
  have hreads : Reading.Reads ⟨c, limit⟩ (e.tokens style) [e] := Reading.Reads.tokens hs ho hf
  obtain ⟨hok, hdeep⟩ := hreads (scan (e.text style)) htokens {}
  rw [hparse]
  constructor
  · intro hle
    rw [hok (List.forall_mem_singleton.mpr hle)]
    rfl
  · intro hlt
    obtain ⟨p, hp⟩ := hdeep ⟨e, List.mem_singleton_self e, hlt⟩
    exact ⟨p, by rw [hp]; rfl⟩

def Expr.negativeZeroSample : Expr := .sub (.const (-0.0)) (.sum [.avg [], .const (-1.5)])

theorem parse_text_negative_zero :
    parse ⟨.standard, 3⟩ (Expr.negativeZeroSample.text .leading) = .ok Expr.negativeZeroSample ∧
    ∃ p, parse ⟨.standard, 2⟩ (Expr.negativeZeroSample.text .trailing) = .error (.tooDeep 2 p) :=
  ⟨(parse_text .standard 3 rfl (by decide) (by decide +kernel)).1 (by decide),
    (parse_text .standard 2 rfl (by decide) (by decide +kernel)).2 (by decide)⟩

end Trivariate
