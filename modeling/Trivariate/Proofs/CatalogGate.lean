import Trivariate.Proofs.OperandRecord

/-! What catalogs are for. A reader minds its catalog only through what the lexemes stand for, and
two catalogs differ over nothing but the symbols of some operations. So a text that is read under one
of them is read as the same expression under the other, or up to its first symbol from outside it. -/

namespace Trivariate

theorem Op.ofSymbol?_eq_some_iff {s : String} {o : Op} : ofSymbol? s = some o ↔ o.symbol = s := by
  constructor
  · intro h
    simpa using List.find?_some h
  · rintro rfl
    exact ofSymbol?_symbol o

theorem Var.ofName?_of_ofSymbol? {s : String} {o : Op} (h : Op.ofSymbol? s = some o) :
    ofName? s = none := by
  obtain rfl := Op.ofSymbol?_eq_some_iff.mp h
  rcases o with o | o | o <;> cases o <;> rfl

theorem Catalog.lookup?_eq (c : Catalog) (s : String) :
    c.lookup? s = (Op.ofSymbol? s).filter (· ∈ c.ops) := by
  refine Option.ext fun o => ?_
  simp only [lookup?_eq_some_iff, Option.filter_eq_some_iff, Op.ofSymbol?_eq_some_iff, decide_eq_true_eq]
  exact and_comm

namespace Role

theorem ofWord_eq_of_ofSymbol? {word : String} {o : Op} (h : Op.ofSymbol? word = some o) (c : Catalog) :
    ofWord c word = if o ∈ c.ops then operation o else unknown := by
  rw [ofWord, Var.ofName?_of_ofSymbol? h, Catalog.lookup?_eq, h]
  by_cases ho : o ∈ c.ops <;> simp [Option.filter, ho]

theorem ofWord_congr {word : String} (h : Op.ofSymbol? word = none) (c c' : Catalog) :
    ofWord c word = ofWord c' word := by
  rw [ofWord, ofWord, Catalog.lookup?_eq, Catalog.lookup?_eq, h]
  rfl

end Role

namespace Step

def word? (x : Step) : Option String :=
  match x.lexeme with
  | .token (.symbol c) => some c.toString
  | .token (.name s) => some s
  | _ => none

def operation? (x : Step) : Option Op := x.word?.bind Op.ofSymbol?

def foreignTo (c : Catalog) (x : Step) : Bool := x.operation?.any (· ∉ c.ops)

variable {x : Step} {c c' : Catalog} {o : Op}

theorem foreignTo_iff : x.foreignTo c = true ↔ ∃ o, x.operation? = some o ∧ o ∉ c.ops := by
  simp only [foreignTo, Option.any_eq_true, decide_eq_true_eq]

theorem foreignTo_eq_false_iff : x.foreignTo c = false ↔ ∀ o ∈ x.operation?, o ∈ c.ops := by
  rw [← Bool.not_eq_true, foreignTo_iff]
  simp

theorem token_of_word? {word : String} (h : x.word? = some word) :
    ∃ t : Token, x.lexeme = .token t ∧ t.text = word ∧ ∀ c, t.role c = Role.ofWord c word := by
  unfold word? at h
  split at h
  next hx => exact ⟨_, hx, Option.some.inj h, fun c => congrArg (Role.ofWord c) (Option.some.inj h)⟩
  next hx => exact ⟨_, hx, Option.some.inj h, fun c => congrArg (Role.ofWord c) (Option.some.inj h)⟩
  next => cases h

theorem isSymbol_of_word? {word : String} (h : x.word? = some word) (hvar : Var.ofName? word = none) :
    x.isSymbol = true := by
  unfold word? at h
  split at h
  next hx => rw [isSymbol, hx]
  next hx =>
    obtain rfl := Option.some.inj h
    rw [isSymbol, hx]
    exact Option.isNone_iff_eq_none.mpr hvar
  next => cases h

theorem role_congr_of_word? (h : x.word? = none) (c c' : Catalog) :
    x.lexeme.role c = x.lexeme.role c' := by
  unfold word? at h
  cases hx : x.lexeme with
  | stray d => rfl
  | token t =>
    rw [hx] at h
    cases t with
    | symbol | name => cases h
    | number | opening | closing => rfl

theorem lexeme_of_operation? (hshape : ∀ t, x.lexeme = .token t → t.Shape)
    (h : x.operation? = some o) : x.lexeme = .token o.token := by
  obtain ⟨word, hword, ho⟩ := Option.bind_eq_some_iff.mp h
  obtain ⟨t, ht, rfl, -⟩ := token_of_word? hword
  have htext := (Op.text_token o).trans (Op.ofSymbol?_eq_some_iff.mp ho)
  rw [ht, (hshape t ht).eq_of_text o.shape_token htext.symm]

theorem operation?_of_lexeme (h : x.lexeme = .token o.token) : x.operation? = some o := by
  rw [operation?, word?, h]
  rcases o with o | o | o <;> cases o <;> rfl

theorem role_of_operation? (h : x.operation? = some o) (c : Catalog) :
    x.lexeme.role c = if o ∈ c.ops then .operation o else .unknown := by
  obtain ⟨word, hword, ho⟩ := Option.bind_eq_some_iff.mp h
  obtain ⟨t, ht, -, hrole⟩ := token_of_word? hword
  rw [ht, Lexeme.role, hrole, Role.ofWord_eq_of_ofSymbol? ho]

theorem role_congr (h : x.operation? = none) (c c' : Catalog) : x.lexeme.role c = x.lexeme.role c' := by
  cases hword : x.word? with
  | none => exact role_congr_of_word? hword c c'
  | some word =>
    obtain ⟨t, ht, -, hrole⟩ := token_of_word? hword
    rw [operation?, hword] at h
    rw [ht, Lexeme.role, Lexeme.role, hrole, hrole, Role.ofWord_congr h c c']

theorem role_of_foreign (h : x.foreignTo c = true) : x.lexeme.role c = .unknown := by
  obtain ⟨o, ho, hforeign⟩ := foreignTo_iff.mp h
  rw [role_of_operation? ho, if_neg hforeign]

theorem role_of_known (h : x.foreignTo c' = false) (hrole : x.lexeme.role c ≠ .unknown) :
    x.lexeme.role c' = x.lexeme.role c := by
  cases hx : x.operation? with
  | none => exact role_congr hx c' c
  | some o =>
    have hc' : o ∈ c'.ops := foreignTo_eq_false_iff.mp h o hx
    rw [role_of_operation? hx] at hrole
    have hc : o ∈ c.ops := by
      by_contra hc
      exact hrole (if_neg hc)
    rw [role_of_operation? hx, role_of_operation? hx, if_pos hc', if_pos hc]

end Step

namespace Reading

variable {σ : Type} {c c' : Catalog} {limit : Nat} {source : String}

/-- A reader that depends on the catalog only through what a lexeme stands for, and refuses one that
stands for nothing. -/
structure ByRoles (next : Settings → Reader σ) : Prop where
  congr : ∀ {c c' : Catalog} {x : Step}, x.lexeme.role c' = x.lexeme.role c →
    ∀ limit s, next ⟨c', limit⟩ s x = next ⟨c, limit⟩ s x
  refuses : ∀ (set : Settings) {x : Step}, x.lexeme.role set.catalog = .unknown →
    ∀ s, next set s x = .error (unknown x)

theorem Brackets.byRoles : ByRoles Brackets.step where
  congr h limit s := by
    unfold step
    rw [h]
  refuses set x h s := by rw [step, h]

theorem Polish.byRoles : ByRoles Polish.step where
  congr h limit s := by
    unfold step
    rw [h]
  refuses set x h s := by rw [step, h]

namespace ByRoles

variable {next : Settings → Reader σ} {result : σ → Except ParseError Expr} {s s' : σ} {e : Expr}

theorem known_step (hnext : ByRoles next) {x : Step} {events : List Event}
    (hx : x.foreignTo c' = false) (h : next ⟨c, limit⟩ s x = .ok (s', events)) :
    next ⟨c', limit⟩ s x = .ok (s', events) := by
  have hrole : x.lexeme.role c ≠ .unknown := by
    intro hunknown
    rw [hnext.refuses ⟨c, limit⟩ hunknown] at h
    cases h
  rw [hnext.congr (Step.role_of_known hx hrole), h]

theorem known_run (hnext : ByRoles next) {xs : List Step} (hxs : ∀ x ∈ xs, x.foreignTo c' = false)
    (h : xs.foldlM (advance (next ⟨c, limit⟩)) s = .ok s') :
    xs.foldlM (advance (next ⟨c', limit⟩)) s = .ok s' := by
  induction xs generalizing s with
  | nil => exact h
  | cons x xs ih =>
    obtain ⟨hx, hxs⟩ := List.forall_mem_cons.mp hxs
    obtain ⟨t, events, hstep, h⟩ := foldlM_cons_eq_ok_iff.mp h
    exact foldlM_cons_eq_ok_iff.mpr ⟨t, events, hnext.known_step hx hstep, ih hxs h⟩

theorem foreign_run (hnext : ByRoles next) {front back : List Step} {x : Step}
    (hfront : ∀ y ∈ front, y.foreignTo c' = false) (hx : x.foreignTo c' = true)
    (h : (front ++ x :: back).foldlM (advance (next ⟨c, limit⟩)) s = .ok s') :
    (front ++ x :: back).foldlM (advance (next ⟨c', limit⟩)) s = .error (unknown x) := by
  obtain ⟨t, ht, -⟩ := foldlM_append_eq_ok_iff.mp h
  have hrefused : advance (next ⟨c', limit⟩) t x = .error (unknown x) := by
    rw [advance, hnext.refuses ⟨c', limit⟩ (Step.role_of_foreign hx)]
    rfl
  rw [foldlM_append_of_ok (hnext.known_run hfront ht), foldlM_cons_of_error hrefused]

theorem reading (hnext : ByRoles next) {xs : List Step}
    (h : (xs.foldlM (advance (next ⟨c, limit⟩)) s).bind result = .ok e) (c' : Catalog) :
    (xs.foldlM (advance (next ⟨c', limit⟩)) s).bind result =
      match xs.find? (Step.foreignTo c') with
      | none => .ok e
      | some x => .error (unknown x) := by
  cases hrun : xs.foldlM (advance (next ⟨c, limit⟩)) s with
  | error e' =>
    rw [hrun] at h
    cases h
  | ok t =>
    rw [hrun] at h
    cases hfirst : xs.find? (Step.foreignTo c') with
    | none =>
      have hknown : ∀ x ∈ xs, x.foreignTo c' = false := by simpa using hfirst
      rw [hnext.known_run hknown hrun]
      exact h
    | some x =>
      obtain ⟨hforeign, front, back, rfl, hfront⟩ := List.find?_eq_some_iff_append.mp hfirst
      rw [hnext.foreign_run (by simpa using hfront) hforeign hrun]
      rfl

end ByRoles

theorem read_foreign {form : Form} {e : Expr} (h : (read form ⟨c, limit⟩ source).2 = .ok e)
    (c' : Catalog) : (read form ⟨c', limit⟩ source).2 =
      match (scan source).find? (Step.foreignTo c') with
      | none => .ok e
      | some x => .error (unknown x) := by
  cases form with
  | bracketed =>
    rw [read, snd_readBracketed] at h ⊢
    exact Brackets.byRoles.reading h c'
  | polish =>
    rw [read, snd_readPolish] at h ⊢
    exact Polish.byRoles.reading h c'

section Operations

variable {form : Form} {set : Settings} {e : Expr}

theorem Labels.operation?_eq {a : Expr} {x : Step} (h : Labels a x) : x.operation? = a.op? := by
  obtain ⟨t, hlexeme, ht⟩ := h
  cases ho : a.op? with
  | some o =>
    obtain rfl := (Expr.labeledBy_of_op? ho t).mp ht
    exact Step.operation?_of_lexeme hlexeme
  | none =>
    cases a with
    | const v =>
      obtain ⟨s, rfl, -⟩ := ht
      rw [Step.operation?, Step.word?, hlexeme]
      rfl
    | var v =>
      obtain rfl := ht
      rw [Step.operation?, Step.word?, hlexeme]
      cases v <;> rfl
    | unary | binary | variadic => cases ho

theorem filterMap_operation?_of_labels {as : List Expr} {xs : List Step}
    (h : List.Forall₂ Labels as xs) : xs.filterMap Step.operation? = as.filterMap Expr.op? := by
  induction h with
  | nil => rfl
  | cons hx _ ih => rw [List.filterMap_cons, List.filterMap_cons, hx.operation?_eq, ih]

theorem filterMap_op?_nodes (as : List Expr) :
    (as.filter (!·.isLeaf)).filterMap Expr.op? = as.filterMap Expr.op? := by
  rw [List.filterMap_filter]
  refine congrArg (List.filterMap · as) (funext fun a => ?_)
  cases h : a.op? <;> simp [Expr.isLeaf, h]

theorem filterMap_operation?_symbols (xs : List Step) :
    (xs.filter Step.isSymbol).filterMap Step.operation? = xs.filterMap Step.operation? := by
  rw [List.filterMap_filter]
  refine congrArg (List.filterMap · xs) (funext fun x => ?_)
  cases h : x.operation? with
  | none => exact ite_self none
  | some o =>
    obtain ⟨word, hword, ho⟩ := Option.bind_eq_some_iff.mp h
    exact if_pos (Step.isSymbol_of_word? hword (Var.ofName?_of_ofSymbol? ho))

theorem operations_of_read (h : (read form set source).2 = .ok e) :
    ((scan source).filterMap Step.operation?).Perm (e.postorder.filterMap Expr.op?) := by
  cases form with
  | polish =>
    rw [filterMap_operation?_of_labels (Polish.read_iff.mp h).1]
  | bracketed =>
    obtain ⟨s, hrun, -, hpending, a, hoperands, rfl⟩ := Brackets.exists_run_of_parse h
    have hlisting := map_snd_pushed hrun
    rw [hoperands, List.reverse_singleton, List.flatMap_singleton] at hlisting
    obtain ⟨pairs, hpairs, hnodes⟩ := nodes_pushed (Scan.shape_of_mem_scan source) .nil hrun hpending
    obtain ⟨hsymbols, -⟩ := pairs_of_pairOff hpairs
    -- the nodes come in the order of their brackets, the symbols in their own
    have hlabels : List.Forall₂ Labels (a.expr.postorder.filter (!·.isLeaf)) (pairs.map Prod.fst) := by
      rw [← hlisting, List.filter_map, List.forall₂_map_left_iff, List.forall₂_map_right_iff]
      exact hnodes.imp fun _ _ hmade => hmade.2
    rw [← filterMap_operation?_symbols, ← filterMap_op?_nodes,
      ← filterMap_operation?_of_labels hlabels]
    exact (hsymbols.filterMap _).symm

theorem over_iff_of_read (h : (read form set source).2 = .ok e) (c' : Catalog) :
    e.Over c' ↔ ∀ x ∈ scan source, x.foreignTo c' = false := by
  have hall : (∀ o ∈ (scan source).filterMap Step.operation?, o ∈ c'.ops) ↔
      ∀ o ∈ e.postorder.filterMap Expr.op?, o ∈ c'.ops :=
    forall_congr' fun o => imp_congr_left (operations_of_read h).mem_iff
  rw [List.forall_mem_filterMap, List.forall_mem_filterMap] at hall
  simp only [Step.foreignTo_eq_false_iff]
  exact hall.symm

end Operations

/-- A text that is read under one catalog is read as the same expression under another, if that has
all operations of the expression, and fails under it at the first symbol that it lacks otherwise. -/
theorem read_catalog (form : Form) (c c' : Catalog) (limit : Nat) (source : String) {e : Expr}
    (h : (read form ⟨c, limit⟩ source).2 = .ok e) :
    (e.Over c' → (read form ⟨c', limit⟩ source).2 = .ok e) ∧
    (¬ e.Over c' → ∃ front x back o, scan source = front ++ x :: back ∧
      x.lexeme = .token o.token ∧ o ∉ c'.ops ∧
      (∀ y ∈ front, ∀ p : Op, y.lexeme = .token p.token → p ∈ c'.ops) ∧
      (read form ⟨c', limit⟩ source).2 = .error (.unknownToken o.symbol x.span.position)) := by
  have hread := read_foreign h c'
  rw [over_iff_of_read h]
  constructor
  · intro hknown
    rw [hread, List.find?_eq_none.mpr (by simpa using hknown)]
  · intro hforeign
    cases hfirst : (scan source).find? (Step.foreignTo c') with
    | none => exact absurd (by simpa using hfirst) hforeign
    | some x =>
      rw [hfirst] at hread
      replace hread : _ = Except.error (unknown x) := hread
      obtain ⟨hx, front, back, hscan, hfront⟩ := List.find?_eq_some_iff_append.mp hfirst
      obtain ⟨o, hox, ho⟩ := Step.foreignTo_iff.mp hx
      have hlexeme := Step.lexeme_of_operation?
        (Scan.shape_of_mem_scan source x (List.mem_of_find?_eq_some hfirst)) hox
      refine ⟨front, x, back, o, hscan, hlexeme, ho, ?_, ?_⟩
      · intro y hy p hp
        have hknown : y.foreignTo c' = false := by simpa using hfront y hy
        exact Step.foreignTo_eq_false_iff.mp hknown p (Step.operation?_of_lexeme hp)
      · rw [hread, unknown, hlexeme, Lexeme.text, Op.text_token]

theorem read_catalog_arithmetic_and_sum :
    (read .polish ⟨.transcendental, 2⟩ "x -1+ negate").2 =
      .ok (.negate (.add (.var .x) (.const (-1)))) ∧
    (read .bracketed ⟨.standard, 2⟩ "- sum x (y) ()").2 = .ok (.sub (.var .x) (.sum [.var .y])) ∧
    ∃ o p, o ∉ Catalog.transcendental.ops ∧
      (read .bracketed ⟨.transcendental, 2⟩ "- sum x (y) ()").2 = .error (.unknownToken o.symbol p) := by
  have hsum : (read .bracketed ⟨.standard, 2⟩ "- sum x (y) ()").2 =
      .ok (.sub (.var .x) (.sum [.var .y])) := by decide +kernel
  obtain ⟨-, x, -, o, -, -, ho, -, hforeign⟩ :=
    (read_catalog .bracketed .standard .transcendental 2 "- sum x (y) ()" hsum).2 (by decide)
  refine ⟨?_, hsum, o, x.span.position, ho, hforeign⟩
  exact (read_catalog .polish .standard .transcendental 2 "x -1+ negate" (by decide +kernel)).1
    (by decide)

end Reading
end Trivariate
