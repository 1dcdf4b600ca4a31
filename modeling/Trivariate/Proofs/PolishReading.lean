import Trivariate.Proofs.ReaderRuns

/-! Reading reverse Polish text. The operands on the stack, listed in postorder, are the tokens read
so far: every step adds one node to that listing, and a text is read if and only if it is the
listing of an expression that the catalog and the limit admit. -/

namespace Trivariate

def Expr.ListedBy (e : Expr) (ts : List Token) : Prop := List.Forall₂ LabeledBy e.postorder ts

theorem Expr.listedBy_tokens {e : Expr} (h : e.Finite) : e.ListedBy (e.tokens .polish) := by
  unfold ListedBy
  induction e using induct_node with
  | const v => exact .cons ⟨_, rfl, literal?_text h.const⟩ .nil
  | var v => exact .cons rfl .nil
  | node o e ho ih =>
    rw [postorder_eq, tokens_node .polish ho, List.flatMap]
    refine List.rel_append (List.rel_flatten ?_) (.cons ((labeledBy_of_op? ho _).mpr rfl) .nil)
    rw [List.forall₂_map_left_iff, List.forall₂_map_right_iff, List.forall₂_same]
    exact fun a ha => ih a ha (h.operand ha)

namespace Reading

def Admits (set : Settings) (a : Expr) : Prop :=
  (∀ o ∈ a.op?, o ∈ set.catalog.ops ∧ o.arity = .fixed a.operands.length) ∧ a.depth ≤ set.limit

theorem forall₂_append_left {α β : Type} {R : α → β → Prop} {as bs : List α} {cs : List β}
    (h : List.Forall₂ R (as ++ bs) cs) :
    ∃ us vs, cs = us ++ vs ∧ List.Forall₂ R as us ∧ List.Forall₂ R bs vs := by
  have htake := List.forall₂_take as.length h
  have hdrop := List.forall₂_drop as.length h
  rw [List.take_left] at htake
  rw [List.drop_left] at hdrop
  exact ⟨_, _, (List.take_append_drop as.length cs).symm, htake, hdrop⟩

def Labels (a : Expr) (x : Step) : Prop := ∃ t, x.lexeme = .token t ∧ a.LabeledBy t

theorem forall_admits_iff {set : Settings} {e : Expr} :
    (∀ a ∈ e.postorder, Admits set a) ↔ e.Over set.catalog ∧ e.Fixed ∧ e.depth ≤ set.limit := by
  constructor
  · intro h
    exact ⟨fun a ha o ho => ((h a ha).1 o ho).1, fun a ha o ho => ((h a ha).1 o ho).2,
      (h e e.mem_postorder_self).2⟩
  · rintro ⟨hover, hfixed, hdepth⟩ a ha
    exact ⟨fun o ho => ⟨hover a ha o ho, hfixed a ha o ho⟩,
      (Expr.depth_le_of_mem_postorder ha).trans hdepth⟩

namespace Polish

def stack (es : List Expr) : Stack := (es.map Operand.of).reverse

theorem length_stack (es : List Expr) : (stack es).length = es.length := by
  rw [stack, List.length_reverse, List.length_map]

theorem stack_append (es fs : List Expr) :
    stack (es ++ fs) = (fs.map Operand.of).reverse ++ stack es := by
  rw [stack, List.map_append, List.reverse_append, stack]

theorem apply_stack {o : Op} {a : Expr} (ho : a.op? = some o)
    (hfixed : o.arity = .fixed a.operands.length) (limit : Nat) (below : List Expr) (position : Nat) :
    apply limit (stack (below ++ a.operands)) o position =
      if limit < a.depth then .error (.tooDeep limit position) else .ok (stack (below ++ [a]), []) := by
  have hrequired : o.arity.required 0 = (a.operands.map Operand.of).reverse.length := by
    rw [hfixed, List.length_reverse, List.length_map]
    rfl
  have hle : o.arity.required 0 ≤ (stack (below ++ a.operands)).length := by
    rw [hrequired, stack_append, List.length_append]
    exact Nat.le_add_right _ _
  have hnewest : Operand.newest (o.arity.required 0) (stack (below ++ a.operands)) =
      a.operands.map Operand.of := by
    rw [Operand.newest, stack_append, List.take_left' hrequired.symm, List.reverse_reverse]
  have hdrop : (stack (below ++ a.operands)).drop (o.arity.required 0) = stack below := by
    rw [stack_append, List.drop_left' hrequired.symm]
  have haccepts : o.accepts (a.operands.map Operand.of).length = true := by
    rw [List.length_map]
    exact Expr.accepts_operands ho
  have hnode := Operand.node_of ho haccepts
  unfold apply
  simp only [dif_pos hle, Operand.node_congr hnewest, hnode, hdrop, Operand.depth_of]
  rw [stack_append]
  rfl

theorem exists_node_of_le {o : Op} {n : Nat} (hfixed : o.arity = .fixed n) {es : List Expr}
    (hle : n ≤ es.length) :
    ∃ (below : List Expr) (a : Expr), es = below ++ a.operands ∧ a.op? = some o := by
  have hlength : (es.drop (es.length - n)).length = n := by
    rw [List.length_drop, Nat.sub_sub_self hle]
  have haccepts : o.accepts (es.drop (es.length - n)).length = true := by
    rw [hlength, Op.accepts, hfixed]
    exact beq_self_eq_true n
  refine ⟨es.take (es.length - n), .node o _ haccepts, ?_, Expr.op?_node haccepts⟩
  rw [Expr.operands_node, List.take_append_drop]

theorem node_of_apply {o : Op} {n limit position : Nat} {es : List Expr} {out : Stack × List Event}
    (hfixed : o.arity = .fixed n) (h : apply limit (stack es) o position = .ok out) :
    ∃ (below : List Expr) (a : Expr), es = below ++ a.operands ∧ a.op? = some o ∧
      a.depth ≤ limit ∧ out = (stack (below ++ [a]), []) := by
  have hle : n ≤ es.length := by
    by_contra hlt
    have hshort : ¬ o.arity.required 0 ≤ (stack es).length := by
      rw [hfixed, length_stack]
      exact hlt
    unfold apply at h
    simp only [dif_neg hshort, reduceCtorEq] at h
  obtain ⟨below, a, rfl, ho⟩ := exists_node_of_le hfixed hle
  rw [apply_stack ho (Expr.arity_of_fixed ho hfixed)] at h
  split at h
  next => cases h
  next hdepth => exact ⟨below, a, rfl, ho, Nat.not_lt.mp hdepth, (Except.ok.inj h).symm⟩

section Step

variable {set : Settings} {x : Step}

theorem advance_operand {e : Expr} (h : x.lexeme.role set.catalog = .operand e) (s : Stack) :
    advance (step set) s x = .ok (.leaf e :: s) := by
  rw [advance, step, h]
  rfl

theorem advance_operation {o : Op} {n : Nat} (h : x.lexeme.role set.catalog = .operation o)
    (hfixed : o.arity = .fixed n) (s : Stack) :
    advance (step set) s x = (apply set.limit s o x.span.position).map Prod.fst := by
  rw [advance, step, h]
  rcases o with o | o | o
  · rfl
  · rfl
  · cases hfixed

theorem advance_of_labels {a : Expr} (hx : Labels a x)
    (ha : ∀ o ∈ a.op?, o ∈ set.catalog.ops ∧ o.arity = .fixed a.operands.length) (below : List Expr) :
    advance (step set) (stack (below ++ a.operands)) x =
      if set.limit < a.depth then .error (.tooDeep set.limit x.span.position)
      else .ok (stack (below ++ [a])) := by
  obtain ⟨t, hlexeme, ht⟩ := hx
  cases ho : a.op? with
  | none =>
    have hrole : x.lexeme.role set.catalog = .operand a := by
      rw [hlexeme, Lexeme.role, Token.role_of_labeledBy ho ht]
    have hdepth : ¬ set.limit < a.depth := by
      rw [Expr.depth_leaf ho]
      exact Nat.not_lt_zero _
    rw [if_neg hdepth, advance_operand hrole, Expr.operands_leaf ho, List.append_nil, stack_append,
      Operand.leaf, ← Expr.depth_leaf ho]
    rfl
  | some o =>
    obtain ⟨hc, hfixed⟩ := ha o ho
    obtain rfl := (Expr.labeledBy_of_op? ho t).mp ht
    have hrole : x.lexeme.role set.catalog = .operation o := by
      rw [hlexeme, Lexeme.role, Token.role_token hc]
    rw [advance_operation hrole hfixed, apply_stack ho hfixed]
    split <;> rfl

section Inversion

variable {t : Token} {es : List Expr} {s : Stack}

theorem labels_of_advance_operand {e : Expr} (hlexeme : x.lexeme = .token t) (ht : t.Shape)
    (hrole : t.role set.catalog = .operand e) (h : advance (step set) (stack es) x = .ok s) :
    ∃ below a, es = below ++ a.operands ∧ Labels a x ∧ Admits set a ∧ s = stack (below ++ [a]) := by
  obtain ⟨he, hlabeled⟩ := Token.labeledBy_of_role ht hrole
  have hlabels : Labels e x := ⟨t, hlexeme, hlabeled⟩
  have hadmits : Admits set e := by
    constructor
    · simp [he]
    · rw [Expr.depth_leaf he]
      exact Nat.zero_le _
  have hes : es = es ++ e.operands := by rw [Expr.operands_leaf he, List.append_nil]
  have hstep := (advance_of_labels hlabels hadmits.1 es).trans (if_neg (Nat.not_lt.mpr hadmits.2))
  rw [← hes, h] at hstep
  exact ⟨es, e, hes, hlabels, hadmits, Except.ok.inj hstep⟩

theorem labels_of_advance_operation {o : Op} (hlexeme : x.lexeme = .token t) (ht : t.Shape)
    (hrole : t.role set.catalog = .operation o) (h : advance (step set) (stack es) x = .ok s) :
    ∃ below a, es = below ++ a.operands ∧ Labels a x ∧ Admits set a ∧ s = stack (below ++ [a]) := by
  have hrole' : x.lexeme.role set.catalog = .operation o := by rw [hlexeme, Lexeme.role, hrole]
  obtain ⟨hc, rfl⟩ := Token.eq_token_of_role ht hrole
  cases hfixed : o.arity with
  | variadic =>
    rcases o with o | o | o
    · cases hfixed
    · cases hfixed
    · rw [advance, step, hrole'] at h
      cases h
  | fixed n =>
    rw [advance_operation hrole' hfixed] at h
    cases happly : apply set.limit (stack es) o x.span.position with
    | error e =>
      rw [happly] at h
      cases h
    | ok out =>
      obtain ⟨below, a, rfl, ho, hdepth, rfl⟩ := node_of_apply hfixed happly
      rw [happly] at h
      have hlabels : Labels a x := ⟨_, hlexeme, (Expr.labeledBy_of_op? ho _).mpr rfl⟩
      have hnode : ∀ p ∈ a.op?, p ∈ set.catalog.ops ∧ p.arity = .fixed a.operands.length := by
        intro p hp
        obtain rfl : o = p := Option.some.inj (ho.symm.trans hp)
        exact ⟨hc, Expr.arity_of_fixed ho hfixed⟩
      exact ⟨below, a, rfl, hlabels, ⟨hnode, hdepth⟩, (Except.ok.inj h).symm⟩

theorem labels_of_advance (hshape : ∀ t, x.lexeme = .token t → t.Shape)
    (h : advance (step set) (stack es) x = .ok s) :
    ∃ below a, es = below ++ a.operands ∧ Labels a x ∧ Admits set a ∧ s = stack (below ++ [a]) := by
  cases hlexeme : x.lexeme with
  | stray c =>
    rw [advance, step, hlexeme] at h
    cases h
  | token t =>
    cases hrole : t.role set.catalog with
    | operand e => exact labels_of_advance_operand hlexeme (hshape t hlexeme) hrole h
    | operation o => exact labels_of_advance_operation hlexeme (hshape t hlexeme) hrole h
    | opening | closing | unknown =>
      rw [advance, step, hlexeme, Lexeme.role, hrole] at h
      cases h

end Inversion

end Step

section Run

variable {set : Settings}

theorem run_of_listings {es : List Expr} (h : ∀ a ∈ es, ∀ us, List.Forall₂ Labels a.postorder us →
      ∀ below, us.foldlM (advance (step set)) (stack below) = .ok (stack (below ++ [a])))
    {xs : List Step} (hl : List.Forall₂ Labels (es.flatMap Expr.postorder) xs) (below : List Expr) :
    xs.foldlM (advance (step set)) (stack below) = .ok (stack (below ++ es)) := by
  induction es generalizing xs below with
  | nil =>
    rw [List.forall₂_nil_left_iff.mp hl, List.append_nil]
    rfl
  | cons a es ih =>
    obtain ⟨us, vs, rfl, hus, hvs⟩ := forall₂_append_left hl
    have hfirst := h a (List.mem_cons_self ..) us hus below
    have hrest := ih (fun b hb => h b (List.mem_cons_of_mem _ hb)) hvs (below ++ [a])
    rw [foldlM_append_of_ok hfirst, hrest, List.append_assoc]
    rfl

theorem run_of_listing {e : Expr} {xs : List Step} (hl : List.Forall₂ Labels e.postorder xs)
    (hall : ∀ a ∈ e.postorder, Admits set a) (below : List Expr) :
    xs.foldlM (advance (step set)) (stack below) = .ok (stack (below ++ [e])) := by
  induction e using Expr.induct_operands generalizing xs below with
  | node e ih =>
    obtain ⟨hroot, hparts⟩ := Expr.forall_mem_postorder.mp hall
    rw [Expr.postorder_eq] at hl
    obtain ⟨ys, zs, rfl, hys, hzs⟩ := forall₂_append_left hl
    obtain ⟨x, _, hx, hnil, rfl⟩ := List.forall₂_cons_left_iff.mp hzs
    obtain rfl := List.forall₂_nil_left_iff.mp hnil
    have hoperands := run_of_listings (fun a ha us hus => ih a ha hus (hparts a ha)) hys below
    have hnode := (advance_of_labels hx hroot.1 below).trans (if_neg (Nat.not_lt.mpr hroot.2))
    rw [foldlM_append_of_ok hoperands, foldlM_cons_of_ok hnode]
    rfl

/-- Each step puts the node that it labels in the place of the operands of that node. -/
inductive Builds : List Expr → List Step → List Expr → List Expr → Prop
  | nil (es : List Expr) : Builds es [] [] es
  | cons {below es as : List Expr} {a : Expr} {x : Step} {xs : List Step} (hx : Labels a x)
      (hrest : Builds (below ++ [a]) xs as es) : Builds (below ++ a.operands) (x :: xs) (a :: as) es

theorem Builds.forall₂_labels {es as es' : List Expr} {xs : List Step} (h : Builds es xs as es') :
    List.Forall₂ Labels as xs := by
  induction h with
  | nil => exact .nil
  | cons hx _ ih => exact .cons hx ih

theorem Builds.flatMap_postorder {es as es' : List Expr} {xs : List Step} (h : Builds es xs as es') :
    es'.flatMap Expr.postorder = es.flatMap Expr.postorder ++ as := by
  induction h with
  | nil => exact (List.append_nil _).symm
  | @cons below es as a x xs _ _ ih =>
    -- what a step takes off the stack is listed before the node that it puts there
    rw [ih, List.flatMap_append, List.flatMap_append, List.flatMap_singleton, Expr.postorder_eq a]
    simp only [List.append_assoc, List.singleton_append]

theorem builds_of_run {xs : List Step} (hshape : ∀ x ∈ xs, ∀ t, x.lexeme = .token t → t.Shape)
    {es : List Expr} {s : Stack} (h : xs.foldlM (advance (step set)) (stack es) = .ok s) :
    ∃ es' as, s = stack es' ∧ Builds es xs as es' ∧ ∀ a ∈ as, Admits set a := by
  induction xs generalizing es with
  | nil => exact ⟨es, [], (Except.ok.inj h).symm, .nil es, List.forall_mem_nil _⟩
  | cons x xs ih =>
    obtain ⟨hx, hxs⟩ := List.forall_mem_cons.mp hshape
    cases hstep : advance (step set) (stack es) x with
    | error e =>
      rw [foldlM_cons_of_error hstep] at h
      cases h
    | ok s' =>
      rw [foldlM_cons_of_ok hstep] at h
      obtain ⟨below, a, rfl, hlabels, hadmits, rfl⟩ := labels_of_advance hx hstep
      obtain ⟨es', as, hs, hbuilds, hall⟩ := ih hxs h
      exact ⟨es', a :: as, hs, .cons hlabels hbuilds, List.forall_mem_cons.mpr ⟨hadmits, hall⟩⟩

end Run

end Polish

theorem mapM_eq_ok_iff {α β ε : Type} {f : α → Except ε β} {xs : List α} {ys : List β} :
    xs.mapM f = .ok ys ↔ List.Forall₂ (fun x y => f x = .ok y) xs ys := by
  induction xs generalizing ys with
  | nil =>
    rw [List.mapM_nil, List.forall₂_nil_left_iff]
    exact ⟨fun h => (Except.ok.inj h).symm, fun h => h ▸ rfl⟩
  | cons x xs ih =>
    rw [List.mapM_cons, List.forall₂_cons_left_iff]
    simp only [← ih]
    cases f x with
    | error e =>
      constructor
      · rintro ⟨⟩
      · rintro ⟨_, _, ⟨⟩, _⟩
    | ok y =>
      cases xs.mapM f with
      | error e =>
        constructor
        · rintro ⟨⟩
        · rintro ⟨_, _, _, ⟨⟩, _⟩
      | ok zs =>
        constructor
        · intro h
          exact ⟨y, zs, rfl, rfl, (Except.ok.inj h).symm⟩
        · rintro ⟨_, _, hy, hzs, rfl⟩
          rw [← Except.ok.inj hy, ← Except.ok.inj hzs]
          rfl

theorem tokens_eq_ok_iff {source : String} {l : List (Token × Span)} :
    tokens source = .ok l ↔ scan source = l.map fun p => ⟨.token p.1, p.2⟩ := by
  have hmap : List.Forall₂ (fun (x : Step) (p : Token × Span) => x = ⟨.token p.1, p.2⟩)
      (scan source) l ↔ scan source = l.map fun p => ⟨.token p.1, p.2⟩ := by
    rw [← List.forall₂_map_right_iff, List.forall₂_eq_eq_eq]
  rw [tokens, mapM_eq_ok_iff, ← hmap]
  constructor
  · intro h
    refine h.imp fun x p hx => ?_
    obtain ⟨t | c, span⟩ := x
    · obtain rfl := Except.ok.inj hx
      rfl
    · cases hx
  · intro h
    refine h.imp fun x p hx => ?_
    subst hx
    rfl

theorem labels_of_lexemes {as : List Expr} {xs : List Step} {ts : List Token}
    (hxs : xs.map Step.lexeme = ts.map Lexeme.token) (h : List.Forall₂ Expr.LabeledBy as ts) :
    List.Forall₂ Labels as xs := by
  have hlexemes : List.Forall₂ (fun (a : Expr) u => ∃ t, u = Lexeme.token t ∧ a.LabeledBy t) as
      (ts.map Lexeme.token) :=
    List.forall₂_map_right_iff.mpr (h.imp fun a t ha => ⟨t, rfl, ha⟩)
  rw [← hxs, List.forall₂_map_right_iff] at hlexemes
  exact hlexemes

theorem forall₂_labels_iff {as : List Expr} {xs : List Step} :
    List.Forall₂ Labels as xs ↔ ∃ l : List (Token × Span),
      xs = l.map (fun p => ⟨.token p.1, p.2⟩) ∧ List.Forall₂ Expr.LabeledBy as (l.map Prod.fst) := by
  constructor
  · intro h
    induction h with
    | nil => exact ⟨[], rfl, .nil⟩
    | @cons a x as xs hx _ ih =>
      obtain ⟨t, ht, ha⟩ := hx
      obtain ⟨l, rfl, hl⟩ := ih
      refine ⟨(t, x.span) :: l, ?_, .cons ha hl⟩
      rw [List.map_cons, ← ht]
  · rintro ⟨l, rfl, h⟩
    refine labels_of_lexemes ?_ h
    simp only [List.map_map, Function.comp_def]

namespace Polish

theorem result_eq_ok_iff {es : List Expr} {stop : Nat} {e : Expr} :
    result (stack es) stop = .ok e ↔ es = [e] := by
  constructor
  · intro h
    unfold result at h
    split at h
    next a hs =>
      have hsingle : es.map Operand.of = [a] := List.reverse_eq_iff.mp hs
      obtain ⟨b, rfl, rfl⟩ := List.map_eq_singleton_iff.mp hsingle
      rw [← Except.ok.inj h, Operand.expr_of]
    next => cases h
  · rintro rfl
    rfl

theorem read_iff {set : Settings} {source : String} {e : Expr} :
    (readPolish set source).2 = .ok e ↔
      List.Forall₂ Labels e.postorder (scan source) ∧ ∀ a ∈ e.postorder, Admits set a := by
  have hshape := Scan.shape_of_mem_scan source
  have hempty : ([] : Stack) = stack [] := rfl
  rw [snd_readPolish, hempty]
  constructor
  · intro h
    cases hrun : (scan source).foldlM (advance (step set)) (stack []) with
    | error e' =>
      rw [hrun] at h
      cases h
    | ok s =>
      obtain ⟨es, as, rfl, hbuilds, hall⟩ := builds_of_run hshape hrun
      rw [hrun] at h
      obtain rfl : es = [e] := result_eq_ok_iff.mp h
      have hpostorder : e.postorder = as := by simpa using hbuilds.flatMap_postorder
      rw [hpostorder]
      exact ⟨hbuilds.forall₂_labels, hall⟩
  · rintro ⟨hl, hall⟩
    have hresult : result (stack [e]) (positionAfter source) = .ok e := result_eq_ok_iff.mpr rfl
    rw [run_of_listing hl hall []]
    exact hresult

end Polish
end Reading

/-- Reverse Polish text is read as an expression if and only if the catalog and the limit admit the
expression and the tokens of the text list it. So the written form of such an expression with finite
constants reads back to it. -/
theorem parsePolish_iff (c : Catalog) (limit : Nat) :
    (∀ source e, parsePolish ⟨c, limit⟩ source = .ok e ↔
      ∃ l, Reading.tokens source = .ok l ∧ e.Over c ∧ e.Fixed ∧ e.depth ≤ limit ∧
        e.ListedBy (l.map Prod.fst)) ∧
    ∀ e : Expr, e.Over c → e.Fixed → e.depth ≤ limit → e.Finite →
      parsePolish ⟨c, limit⟩ (e.text .polish) = .ok e := by
  constructor
  · intro source e
    unfold parsePolish
    rw [Reading.Polish.read_iff, Reading.forall_admits_iff, Reading.forall₂_labels_iff]
    simp only [← Reading.tokens_eq_ok_iff]
    constructor
    · rintro ⟨⟨l, hl, hlisted⟩, hover, hfixed, hdepth⟩
      exact ⟨l, hl, hover, hfixed, hdepth, hlisted⟩
    · rintro ⟨l, hl, hover, hfixed, hdepth, hlisted⟩
      exact ⟨⟨l, hl, hlisted⟩, hover, hfixed, hdepth⟩
  · intro e hover hfixed hdepth hfinite
    have hlexemes : (scan (e.text .polish)).map Step.lexeme = (e.tokens .polish).map Lexeme.token :=
      Expr.lexemes_text .polish hfinite
    exact Reading.Polish.read_iff.mpr
      ⟨Reading.labels_of_lexemes hlexemes (Expr.listedBy_tokens hfinite),
        Reading.forall_admits_iff.mpr ⟨hover, hfixed, hdepth⟩⟩

def Expr.gluedMinusSample : Expr := .atan2 (.add (.var .x) (.const (-1))) (.const 2.5)

theorem parsePolish_glued_minus :
    parsePolish ⟨.transcendental, 2⟩ "x-1+02.50 atan2" = .ok Expr.gluedMinusSample ∧
    parsePolish ⟨.transcendental, 2⟩ (Expr.gluedMinusSample.text .polish) =
      .ok Expr.gluedMinusSample := by
  obtain ⟨hread, hback⟩ := parsePolish_iff .transcendental 2
  constructor
  · refine (hread _ _).mpr ⟨[(.name "x", ⟨0, 1⟩), (.number "-1", ⟨1, 3⟩), (.symbol '+', ⟨3, 4⟩),
      (.number "02.50", ⟨4, 9⟩), (.name "atan2", ⟨10, 15⟩)], ?_, by decide, by decide, by decide, ?_⟩
    · exact Reading.tokens_eq_ok_iff.mpr (by decide +kernel)
    · exact .cons rfl (.cons ⟨_, rfl, by decide +kernel⟩ (.cons rfl
        (.cons ⟨_, rfl, by decide +kernel⟩ (.cons rfl .nil))))
  · exact hback _ (by decide) (by decide) (by decide) (by decide +kernel)

end Trivariate
