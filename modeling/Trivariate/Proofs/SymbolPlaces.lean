import Trivariate.Proofs.BracketedReading

/-! The layouts of an expression in bracketed text: at every node the symbol stands before, behind or
among the operands, and white space parts the items of a group. Each of them reads back. -/

namespace Trivariate

def Text.Blank (cs : List Char) : Prop := ∀ c ∈ cs, Text.isBlank c = true

inductive Parted : List (List Char) → List Char → Prop
  | single (item : List Char) : Parted [item] item
  | cons {item gap rest : List Char} {items : List (List Char)} (hblank : Text.Blank gap)
      (hgap : gap ≠ []) (hrest : Parted items rest) : Parted (item :: items) (item ++ gap ++ rest)

/-- A leaf is laid out as its written form. A node is laid out as a group that holds the layouts of
its operands in order and, at any place among them, its symbol. -/
inductive Layout : Expr → List Char → Prop
  | const (v : Float) : Layout (.const v) (Binary64.text v).toList
  | var (v : Var) : Layout (.var v) v.name.toList
  | node {o : Op} {e : Expr} {before after : List Expr} {front back : List (List Char)}
      {lead body trail : List Char} (hop : e.op? = some o) (hoperands : e.operands = before ++ after)
      (hbefore : List.Forall₂ Layout before front) (hafter : List.Forall₂ Layout after back)
      (hlead : Text.Blank lead) (hbody : Parted (front ++ o.symbol.toList :: back) body)
      (htrail : Text.Blank trail) : Layout e ('(' :: (lead ++ body ++ trail) ++ [')'])

namespace Spells

variable {cs gap : List Char} {ts : List Token}

theorem blanks (hgap : Text.Blank gap) (h : Spells cs ts) : Spells (gap ++ cs) ts := by
  induction gap with
  | nil => exact h
  | cons c gap ih =>
    obtain ⟨hc, hgap⟩ := List.forall_mem_cons.mp hgap
    exact (ih hgap).blank hc

theorem append_blanks (h : Spells cs ts) (hgap : Text.Blank gap) : Spells (cs ++ gap) ts := by
  have hapart : Apart gap := by
    cases gap with
    | nil => exact fun _ hd => nomatch hd
    | cons c gap => exact Apart.of_isBlank (hgap c (List.mem_cons_self ..)) gap
  have hboth := h.append (nil.blanks hgap) (by rwa [List.append_nil])
  rwa [List.append_nil, List.append_nil] at hboth

theorem group (h : Spells cs ts) : Spells ('(' :: cs ++ [')']) (.opening :: ts ++ [.closing]) := by
  have hclose : Spells (Token.closing.text.toList ++ []) [.closing] := nil.bracket (.inr rfl)
  have hopen := (h.append hclose (Apart.cons rfl rfl _)).bracket (.inl rfl)
  simpa [Token.text] using hopen

theorem parted {items : List (List Char)} {body : List Char} {tss : List (List Token)}
    (hbody : Parted items body) (h : List.Forall₂ Spells items tss) : Spells body tss.flatten := by
  induction hbody generalizing tss with
  | single item =>
    obtain ⟨ts, _, hts, hnil, rfl⟩ := List.forall₂_cons_left_iff.mp h
    obtain rfl := List.forall₂_nil_left_iff.mp hnil
    simpa using hts
  | @cons item gap rest items hblank hgap _ ih =>
    obtain ⟨ts, tss, hts, htss, rfl⟩ := List.forall₂_cons_left_iff.mp h
    obtain ⟨c, gap, rfl⟩ := List.exists_cons_of_ne_nil hgap
    have hapart : Apart (c :: gap ++ rest) :=
      Apart.of_isBlank (hblank c (List.mem_cons_self ..)) (gap ++ rest)
    rw [List.append_assoc, List.flatten_cons]
    exact hts.append ((ih htss).blanks hblank) hapart

end Spells

namespace Reading

variable {set : Settings}

theorem exists_tokens_of_layouts {es : List Expr} {css : List (List Char)}
    (h : ∀ a ∈ es, ∀ cs, Layout a cs → ∃ ts, Spells cs ts ∧ Reads set ts [a])
    (hlayouts : List.Forall₂ Layout es css) :
    ∃ tss, List.Forall₂ Spells css tss ∧ Reads set tss.flatten es := by
  induction hlayouts with
  | nil => exact ⟨[], .nil, Reads.nil⟩
  | @cons a cs es css ha _ ih =>
    obtain ⟨hfirst, hrest⟩ := List.forall_mem_cons.mp h
    obtain ⟨ts, hts, hread⟩ := hfirst cs ha
    obtain ⟨tss, htss, hreads⟩ := ih hrest
    exact ⟨ts :: tss, .cons hts htss, hread.append hreads⟩

theorem exists_tokens_of_layout {e : Expr} (ho : e.Over set.catalog) (hf : e.Finite)
    {cs : List Char} (h : Layout e cs) : ∃ ts, Spells cs ts ∧ Reads set ts [e] := by
  induction e using Expr.induct_node generalizing cs with
  | const v =>
    cases h with
    | const =>
      have hword : Spells (Binary64.text v).toList [.number (Binary64.text v)] := by
        simpa only [Token.text] using Spells.token (Binary64.shape_token hf.const)
      exact ⟨_, hword, Reads.leaf (Token.role_number (literal?_text hf.const)) rfl⟩
    | node hop => cases hop
  | var v =>
    cases h with
    | var =>
      have hword : Spells v.name.toList [.name v.name] := by
        simpa only [Token.text] using Spells.token v.shape_token
      exact ⟨_, hword, Reads.leaf (Token.role_name_var set.catalog v) rfl⟩
    | node hop => cases hop
  | node o e he ih =>
    cases h with
    | const | var => cases he
    | @node p _ before after front back lead body trail hop hoperands hbefore hafter hlead hbody
        htrail =>
      obtain rfl : o = p := Option.some.inj (he.symm.trans hop)
      have hparts : ∀ a ∈ before ++ after, ∀ cs, Layout a cs →
          ∃ ts, Spells cs ts ∧ Reads set ts [a] := by
        intro a ha cs hcs
        rw [← hoperands] at ha
        exact ih a ha (ho.operand ha) (hf.operand ha) hcs
      obtain ⟨hparts, hparts'⟩ := List.forall_mem_append.mp hparts
      obtain ⟨tss, htss, hreads⟩ := exists_tokens_of_layouts hparts hbefore
      obtain ⟨uss, huss, hreads'⟩ := exists_tokens_of_layouts hparts' hafter
      have hsymbol : Spells o.symbol.toList [o.token] := by
        simpa using Spells.token o.shape_token
      have hitems := Spells.parted hbody (List.rel_append htss (.cons hsymbol huss))
      rw [List.flatten_append, List.flatten_cons, List.singleton_append] at hitems
      have hgroup := ((hitems.blanks hlead).append_blanks htrail).group
      exact ⟨_, hgroup, Reads.node (ho.op hop) hop hoperands hreads hreads'⟩

end Reading

/-- Whatever place the symbol of each node has among its operands, the text reads back to its
expression if the limit allows the depth. -/
theorem parse_layout (c : Catalog) (limit : Nat) {e : Expr} (ho : e.Over c) (hf : e.Finite)
    (hdepth : e.depth ≤ limit) {lead cs trail : List Char} (hlead : Text.Blank lead)
    (hlayout : Layout e cs) (htrail : Text.Blank trail) :
    parse ⟨c, limit⟩ (String.ofList (lead ++ cs ++ trail)) = .ok e := by
  obtain ⟨ts, hspells, hreads⟩ : ∃ ts, Spells cs ts ∧ Reading.Reads ⟨c, limit⟩ ts [e] :=
    Reading.exists_tokens_of_layout ho hf hlayout
  have hlexemes : (scan (String.ofList (lead ++ cs ++ trail))).map Step.lexeme =
      ts.map Lexeme.token := by
    have hall := (hspells.blanks hlead).append_blanks htrail [] (by simp [Apart])
    simpa [scan, Scan.lexemes, Scan.steps] using hall
  have hparse : parse ⟨c, limit⟩ (String.ofList (lead ++ cs ++ trail)) = _ :=
    Reading.snd_readBracketed _ _
  rw [hparse, (hreads _ hlexemes {}).1 (List.forall_mem_singleton.mpr hdepth)]
  rfl

theorem parse_layout_mixed :
    parse ⟨.standard, 2⟩ " ( (x y sum)\n- -0 )" =
      .ok (.sub (.sum [.var .x, .var .y]) (.const (-0.0))) := by
  have hspace : Text.Blank [' '] := List.forall_mem_singleton.mpr rfl
  have hbreak : Text.Blank ['\n'] := List.forall_mem_singleton.mpr rfl
  have hnone : Text.Blank [] := List.forall_mem_nil _
  have hsum : Layout (.sum [.var .x, .var .y]) _ :=
    .node rfl (List.append_nil _).symm (.cons (.var .x) (.cons (.var .y) .nil)) .nil hnone
      (.cons hspace (by decide) (.cons hspace (by decide) (.single _))) hnone
  have hsub : Layout (.sub (.sum [.var .x, .var .y]) (.const (-0.0))) _ :=
    .node rfl (List.singleton_append).symm (.cons hsum .nil) (.cons (.const _) .nil) hspace
      (.cons hbreak (by decide) (.cons hspace (by decide) (.single _))) hspace
  have hread := parse_layout .standard 2 (by decide) (by decide +kernel) (by decide) hspace hsub hnone
  refine Eq.trans (congrArg _ ?_) hread
  decide +kernel

end Trivariate
