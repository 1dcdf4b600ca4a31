import Trivariate.Proofs.ExprSpelling

/-! Two expressions with the same text are the same. A text is read from the end at which a group has
its symbol, so that the symbol comes before the operands, and each operand is seen to end at a bracket
or a space; without brackets the symbol says how many operands there are. -/

namespace Trivariate

namespace Text

def isSeparator (c : Char) : Bool := c == ' ' || c == '(' || c == ')'

structure Word (cs : List Char) : Prop where
  nonempty : cs ≠ []
  inner : ∀ c ∈ cs, isSeparator c = false

theorem Word.ofAll {cs : List Char} (hne : cs.isEmpty = false)
    (h : (cs.all fun c => !isSeparator c) = true) : Word cs where
  nonempty := List.isEmpty_eq_false_iff.mp hne
  inner c hc := by simpa using List.all_eq_true.mp h c hc

/-- A word ends before such a text. -/
def Parted (cs : List Char) : Prop := ∀ c ∈ cs.head?, isSeparator c = true

theorem Parted.append {a b : List Char} (ha : ∀ c ∈ a, isSeparator c = true) (hb : Parted b) :
    Parted (a ++ b) := by
  cases a with
  | nil => exact hb
  | cons c a =>
    intro d hd
    obtain rfl : c = d := by simpa using hd
    exact ha c (List.mem_cons_self ..)

theorem Word.append_inj {p q w v r s : List Char} (hw : Word w) (hv : Word v)
    (hp : ∀ c ∈ p, isSeparator c = true) (hq : ∀ c ∈ q, isSeparator c = true) (hr : Parted r)
    (hs : Parted s) (h : p ++ (w ++ r) = q ++ (v ++ s)) : p = q ∧ w = v ∧ r = s := by
  have hstart : ∀ {w r : List Char}, Word w → ∀ c ∈ (w ++ r).head?, isSeparator c = false := by
    intro w r hw c hc
    rw [List.head?_append_of_ne_nil _ hw.nonempty] at hc
    exact hw.inner c (List.mem_of_mem_head? hc)
  have hstop : ∀ {r : List Char}, Parted r → ∀ c ∈ r.head?, (!isSeparator c) = false :=
    fun hr c hc => by rw [hr c hc]; rfl
  have hinner : ∀ {w : List Char}, Word w → ∀ c ∈ w, (!isSeparator c) = true :=
    fun hw c hc => by rw [hw.inner c hc]; rfl
  have hlead := congrArg (List.takeWhile isSeparator) h
  rw [Scan.takeWhile_append_of_stop hp (hstart hw), Scan.takeWhile_append_of_stop hq (hstart hv)]
    at hlead
  subst hlead
  have hrest := List.append_cancel_left h
  have hword := congrArg (List.takeWhile fun c => !isSeparator c) hrest
  rw [Scan.takeWhile_append_of_stop (hinner hw) (hstop hr),
    Scan.takeWhile_append_of_stop (hinner hv) (hstop hs)] at hword
  subst hword
  exact ⟨rfl, rfl, List.append_cancel_left hrest⟩

section Spaced

variable {α : Type} {code : α → List Char} {as bs : List α} {r s : List Char}

def Splits (code : α → List Char) (a b : α) : Prop :=
  ∀ r s, Parted r → Parted s → code a ++ r = code b ++ s → a = b ∧ r = s

def spaced (code : α → List Char) : List α → List Char
  | [] => [' ']
  | items => items.flatMap fun a => ' ' :: code a

theorem spaced_of_ne_nil (h : as ≠ []) : spaced code as = as.flatMap fun a => ' ' :: code a := by
  cases as with
  | nil => exact absurd rfl h
  | cons a as => rfl

theorem spaced_map {β : Type} (f : β → α) (l : List β) :
    spaced code (l.map f) = spaced (fun b => code (f b)) l := by
  cases l with
  | nil => rfl
  | cons b l => simp [spaced, List.flatMap_map]

theorem parted_spaced (code : α → List Char) (as : List α) (r : List Char) :
    Parted (spaced code as ++ r) := by
  cases as <;> simp [Parted, spaced, isSeparator]

theorem parted_flatMap (as : List α) (hr : Parted r) :
    Parted (as.flatMap (fun a => ' ' :: code a) ++ r) := by
  cases as with
  | nil => exact hr
  | cons a as =>
    intro c hc
    obtain rfl : ' ' = c := by simpa using hc
    rfl

theorem flatMap_append_inj (hab : ∀ a ∈ as, ∀ b ∈ bs, Splits code a b) (hr : Parted r)
    (hs : Parted s) (hend : as.length = bs.length ∨ ' ' ∉ r.head? ∧ ' ' ∉ s.head?)
    (h : as.flatMap (fun a => ' ' :: code a) ++ r = bs.flatMap (fun b => ' ' :: code b) ++ s) :
    as = bs ∧ r = s := by
  induction as generalizing bs with
  | nil =>
    cases bs with
    | nil => exact ⟨rfl, h⟩
    | cons b bs =>
      obtain rfl : r = _ := h
      simp at hend
  | cons a as ih =>
    cases bs with
    | nil =>
      obtain rfl : _ = s := h
      simp at hend
    | cons b bs =>
      rw [List.flatMap_cons, List.flatMap_cons, List.cons_append, List.cons_append, List.cons_append,
        List.cons_append, List.append_assoc, List.append_assoc] at h
      obtain ⟨rfl, hlater⟩ := hab a (List.mem_cons_self ..) b (List.mem_cons_self ..) _ _
        (parted_flatMap as hr) (parted_flatMap bs hs) (List.cons.inj h).2
      have habs : ∀ a ∈ as, ∀ b ∈ bs, Splits code a b := fun a ha b hb =>
        hab a (List.mem_cons_of_mem _ ha) b (List.mem_cons_of_mem _ hb)
      obtain ⟨rfl, hrest⟩ := ih habs (hend.imp_left Nat.succ.inj) hlater
      exact ⟨rfl, hrest⟩

/-- No item starts with the character, which may therefore end a list of them. -/
structure Closes (code : α → List Char) (c : Char) : Prop where
  ne_space : c ≠ ' '
  start : ∀ a, ∃ d cs, code a = d :: cs ∧ d ≠ c

theorem Closes.spaced_nil_ne {c : Char} (hc : Closes code c) (b : α) (bs : List α)
    (r t : List Char) : spaced code [] ++ ([c] ++ r) ≠ spaced code (b :: bs) ++ t := by
  obtain ⟨d, cs, hcode, hd⟩ := hc.start b
  intro h
  simp only [spaced, List.flatMap_cons, hcode, List.cons_append, List.nil_append,
    List.cons.injEq, true_and] at h
  exact hd h.1.symm

theorem spaced_append_inj {closing : List Char} (hab : ∀ a ∈ as, ∀ b ∈ bs, Splits code a b)
    (hclosing : ∀ c ∈ closing, isSeparator c = true) (hr : Parted r) (hs : Parted s)
    (hend : as.length = bs.length ∨ ∃ c, closing = [c] ∧ Closes code c)
    (h : spaced code as ++ (closing ++ r) = spaced code bs ++ (closing ++ s)) : as = bs ∧ r = s := by
  cases as with
  | nil =>
    cases bs with
    | nil => exact ⟨rfl, List.append_cancel_left (List.append_cancel_left h)⟩
    | cons b bs =>
      rcases hend with hlen | ⟨c, rfl, hc⟩
      · cases hlen
      · exact absurd h (hc.spaced_nil_ne b bs _ _)
  | cons a as =>
    cases bs with
    | nil =>
      rcases hend with hlen | ⟨c, rfl, hc⟩
      · cases hlen
      · exact absurd h.symm (hc.spaced_nil_ne a as _ _)
    | cons b bs =>
      have hspace : (a :: as).length = (b :: bs).length ∨
          ' ' ∉ (closing ++ r).head? ∧ ' ' ∉ (closing ++ s).head? := by
        refine hend.imp_right ?_
        rintro ⟨c, rfl, hc⟩
        simpa using hc.ne_space
      obtain ⟨heq, hrest⟩ :=
        flatMap_append_inj hab (hr.append hclosing) (hs.append hclosing) hspace h
      exact ⟨heq, List.append_cancel_left hrest⟩

end Spaced
end Text

namespace Style

/-- A text or a list of operands, from the end at which a group has its symbol. -/
def facing {α : Type} : Style → List α → List α
  | leading, l => l
  | trailing, l => l.reverse
  | polish, l => l.reverse

def opening : Style → List Char
  | leading => ['(']
  | trailing => [')']
  | polish => []

def closing : Style → List Char
  | leading => [')']
  | trailing => ['(']
  | polish => []

section Facing

variable {α β : Type} (style : Style)

theorem facing_injective {l m : List α} (h : style.facing l = style.facing m) : l = m := by
  cases style with
  | leading => exact h
  | trailing => exact List.reverse_injective h
  | polish => exact List.reverse_injective h

theorem length_facing (l : List α) : (style.facing l).length = l.length := by
  cases style <;> simp [facing]

theorem mem_facing {l : List α} {a : α} : a ∈ style.facing l ↔ a ∈ l := by
  cases style <;> simp [facing]

theorem word_facing {cs : List Char} (h : Text.Word cs) : Text.Word (style.facing cs) where
  nonempty := by
    rw [← List.length_pos_iff, length_facing]
    exact List.length_pos_iff.mpr h.nonempty
  inner c hc := h.inner c (style.mem_facing.mp hc)

theorem facing_map (f : α → β) (l : List α) : style.facing (l.map f) = (style.facing l).map f := by
  cases style <;> simp [facing]

end Facing

theorem separator_of_mem_opening (style : Style) : ∀ c ∈ style.opening, Text.isSeparator c = true := by
  cases style <;> simp [opening, Text.isSeparator]

theorem separator_of_mem_closing (style : Style) : ∀ c ∈ style.closing, Text.isSeparator c = true := by
  cases style <;> simp [closing, Text.isSeparator]

theorem intercalate_cons (w : List Char) (ws : List (List Char)) :
    [' '].intercalate (w :: ws) = w ++ ws.flatMap (' ' :: ·) := by
  induction ws generalizing w with
  | nil => simp
  | cons v ws ih => simp [List.intercalate_cons_cons, ih]

theorem intercalate_concat (ws : List (List Char)) (w : List Char) :
    [' '].intercalate (ws ++ [w]) = ws.flatMap (· ++ [' ']) ++ w := by
  induction ws with
  | nil => simp
  | cons v ws ih =>
    have hne : ws ++ [w] ≠ [] := by simp
    obtain ⟨u, us, hu⟩ := List.exists_cons_of_ne_nil hne
    rw [List.cons_append, hu, List.intercalate_cons_cons, ← hu, ih]
    simp

theorem facing_layout (style : Style) (o : Op) {texts : List String}
    (h : style = .polish → texts ≠ []) :
    style.facing (style.layout o texts).toList =
      style.opening ++ (style.facing o.symbol.toList ++
        (Text.spaced (fun t => style.facing t.toList) (style.facing texts) ++ style.closing)) := by
  have hlast : texts ≠ [] → (" ".intercalate (texts ++ [o.symbol])).toList.reverse =
      o.symbol.toList.reverse ++ Text.spaced (fun t => t.toList.reverse) texts.reverse := by
    intro hne
    rw [Text.spaced_of_ne_nil (by simpa using hne), String.toList_intercalate, List.map_append,
      List.map_singleton]
    refine (congrArg List.reverse (intercalate_concat _ _)).trans ?_
    simp [List.reverse_flatMap, List.flatMap_map, Function.comp_def]
  cases style with
  | leading =>
    cases texts with
    | nil => simp [layout, facing, opening, closing, Text.spaced]
    | cons t texts =>
      simp [layout, facing, opening, closing, Text.spaced, intercalate_cons, List.flatMap_map]
  | trailing =>
    cases texts with
    | nil => simp [layout, facing, opening, closing, Text.spaced]
    | cons t texts =>
      simp only [layout, facing, String.toList_append, List.reverse_append,
        hlast (List.cons_ne_nil t texts), List.append_assoc]
      rfl
  | polish =>
    rw [layout]
    refine (hlast (h rfl)).trans ?_
    simp [opening, closing, facing]

end Style

theorem Binary64.word_text (x : Float) : Text.Word (text x).toList := by
  rcases eq_or_isFinite x with rfl | rfl | rfl | hx
  · exact .ofAll rfl rfl
  · exact .ofAll rfl rfl
  · exact .ofAll rfl rfl
  · have hdigit : ∀ c ∈ (Decimal.shortest (magnitude x)).chars, Text.isSeparator c = false := by
      intro c hc
      have hrange := Scan.toNat_of_inNumber (Decimal.inNumber_of_mem_chars hc)
      by_contra hsep
      simp only [Text.isSeparator, Bool.not_eq_false, Bool.or_eq_true, beq_iff_eq] at hsep
      rcases hsep with (rfl | rfl) | rfl <;> exact absurd hrange (by decide)
    rw [toList_text hx]
    split
    · exact ⟨List.cons_ne_nil _ _, List.forall_mem_cons.mpr ⟨rfl, hdigit⟩⟩
    · exact ⟨Decimal.chars_ne_nil _, hdigit⟩

theorem Op.word_symbol (o : Op) : Text.Word o.symbol.toList := by
  rcases o with o | o | o <;> cases o <;> exact .ofAll rfl rfl

theorem Var.word_name (v : Var) : Text.Word v.name.toList := by
  cases v <;> exact .ofAll rfl rfl

namespace Expr

def label : Expr → String
  | const v => Binary64.text v
  | var v => v.name
  | unary o _ => o.symbol
  | binary o _ _ => o.symbol
  | variadic o _ => o.symbol

theorem label_node {o : Op} {e : Expr} (h : e.op? = some o) : e.label = o.symbol := by
  cases e <;> simp only [op?, reduceCtorEq, Option.some.injEq] at h <;> subst h <;> rfl

theorem ofText?_symbol (o : Op) : Binary64.ofText? o.symbol = none := by
  rcases o with o | o | o <;> cases o <;> rfl

theorem ofText?_name (v : Var) : Binary64.ofText? v.name = none := by
  cases v <;> rfl

theorem word_label (e : Expr) : Text.Word e.label.toList := by
  cases e with
  | const v => exact Binary64.word_text v
  | var v => exact v.word_name
  | unary o a => exact Op.word_symbol (.unary o)
  | binary o a b => exact Op.word_symbol (.binary o)
  | variadic o args => exact Op.word_symbol (.variadic o)

theorem label_ne_symbol {e : Expr} (h : e.op? = none) (o : Op) : e.label ≠ o.symbol := by
  cases e with
  | const v => exact Binary64.text_ne (ofText?_symbol o) v
  | var v => rcases o with o | o | o <;> cases o <;> cases v <;> decide
  | unary | binary | variadic => cases h

theorem eq_of_label {a b : Expr} (ha : a.op? = none) (hb : b.op? = none) (h : a.label = b.label) :
    a = b := by
  cases a with
  | const v =>
    cases b with
    | const w => exact congrArg const (Binary64.text_injective h)
    | var w => exact absurd h (Binary64.text_ne (ofText?_name w) v)
    | unary | binary | variadic => cases hb
  | var v =>
    cases b with
    | const w => exact absurd h.symm (Binary64.text_ne (ofText?_name v) w)
    | var w => exact congrArg var (Var.name_injective h)
    | unary | binary | variadic => cases hb
  | unary | binary | variadic => cases ha

theorem eq_or_op?_of_label {a b : Expr} (h : a.label = b.label) :
    a = b ∨ ∃ o, a.op? = some o ∧ b.op? = some o := by
  cases ha : a.op? with
  | none =>
    cases hb : b.op? with
    | none => exact .inl (eq_of_label ha hb h)
    | some o => exact absurd (h.trans (label_node hb)) (label_ne_symbol ha o)
  | some o =>
    rw [label_node ha] at h
    cases hb : b.op? with
    | none => exact absurd h.symm (label_ne_symbol hb o)
    | some p =>
      rw [label_node hb] at h
      exact .inr ⟨o, rfl, congrArg some (Op.symbol_injective h).symm⟩

def code (style : Style) (e : Expr) : List Char := style.facing (e.text style).toList

def lead (style : Style) (e : Expr) : List Char := if e.op?.isSome then style.opening else []

def rest (style : Style) (e : Expr) : List Char :=
  if e.op?.isSome then Text.spaced (code style) (style.facing e.operands) ++ style.closing else []

section Code

variable {style : Style} {a b e : Expr} {o : Op} {r s : List Char}

theorem operands_ne_nil (h : e.Fixed) (ho : e.op? = some o) : e.operands ≠ [] := by
  have harity := h e e.mem_postorder_self o ho
  intro hnil
  rw [hnil] at harity
  rcases o with o | o | o <;> simp [Op.arity] at harity

theorem code_eq (h : style = .polish → e.Fixed) :
    e.code style = e.lead style ++ (style.facing e.label.toList ++ e.rest style) := by
  cases ho : e.op? with
  | none =>
    have htext : e.text style = e.label := by cases e <;> first | rfl | cases ho
    simp [code, lead, rest, ho, htext]
  | some o =>
    have hne : style = .polish → e.operands.map (text style) ≠ [] := fun hp => by
      simpa using operands_ne_nil (h hp) ho
    rw [code, text_node style ho, style.facing_layout o hne, style.facing_map, Text.spaced_map, lead,
      rest, label_node ho, ho]
    rfl

theorem separator_of_mem_lead : ∀ c ∈ e.lead style, Text.isSeparator c = true := by
  unfold lead
  split
  · exact style.separator_of_mem_opening
  · exact fun c hc => absurd hc List.not_mem_nil

theorem parted_rest (hr : Text.Parted r) : Text.Parted (e.rest style ++ r) := by
  unfold rest
  split
  · rw [List.append_assoc]
    exact Text.parted_spaced _ _ _
  · exact hr

theorem start_code (h : style ≠ .polish) (e : Expr) :
    ∃ d cs, e.code style = d :: cs ∧ (d ∈ style.opening ∨ Text.isSeparator d = false) := by
  rw [code_eq fun hp => absurd hp h, lead]
  cases e.op? with
  | none =>
    have hword := style.word_facing e.word_label
    obtain ⟨d, w, hw⟩ := List.exists_cons_of_ne_nil hword.nonempty
    refine ⟨d, w ++ e.rest style, by simp [hw], .inr (hword.inner d ?_)⟩
    rw [hw]
    exact List.mem_cons_self ..
  | some o =>
    cases style with
    | leading => exact ⟨_, _, rfl, .inl (List.mem_singleton_self _)⟩
    | trailing => exact ⟨_, _, rfl, .inl (List.mem_singleton_self _)⟩
    | polish => exact absurd rfl h

theorem exists_closes (h : style ≠ .polish) :
    ∃ c, style.closing = [c] ∧ Text.Closes (code style) c := by
  have hclose : ∃ c, style.closing = [c] ∧ c ≠ ' ' ∧ c ∉ style.opening := by
    cases style with
    | leading => exact ⟨')', rfl, by decide, by decide⟩
    | trailing => exact ⟨'(', rfl, by decide, by decide⟩
    | polish => exact absurd rfl h
  obtain ⟨c, hc, hspace, hopening⟩ := hclose
  refine ⟨c, hc, hspace, fun e => ?_⟩
  obtain ⟨d, cs, hcode, hd⟩ := start_code h e
  refine ⟨d, cs, hcode, ?_⟩
  rintro rfl
  have hseparator : Text.isSeparator d = true :=
    style.separator_of_mem_closing d (hc ▸ List.mem_singleton_self d)
  rcases hd with hd | hd
  · exact hopening hd
  · rw [hseparator] at hd
    cases hd

theorem code_append_inj (ha : style = .polish → a.Fixed) (hb : style = .polish → b.Fixed)
    (hr : Text.Parted r) (hs : Text.Parted s) (h : a.code style ++ r = b.code style ++ s) :
    a = b ∧ r = s := by
  induction a using induct_operands generalizing b r s with
  | node a ih =>
    rw [code_eq ha, code_eq hb, List.append_assoc, List.append_assoc, List.append_assoc,
      List.append_assoc] at h
    obtain ⟨-, hword, hrest⟩ := Text.Word.append_inj (style.word_facing a.word_label)
      (style.word_facing b.word_label) separator_of_mem_lead separator_of_mem_lead (parted_rest hr)
      (parted_rest hs) h
    have hlabel : a.label = b.label := String.toList_injective (style.facing_injective hword)
    rcases eq_or_op?_of_label hlabel with rfl | ⟨o, hoa, hob⟩
    · exact ⟨rfl, List.append_cancel_left hrest⟩
    · have hsplits : ∀ c ∈ style.facing a.operands, ∀ d ∈ style.facing b.operands,
          Text.Splits (code style) c d := by
        intro c hc d hd r s hr hs h
        rw [Style.mem_facing] at hc hd
        exact ih c hc (fun hp => (ha hp).operand hc) (fun hp => (hb hp).operand hd) hr hs h
      have hend : (style.facing a.operands).length = (style.facing b.operands).length ∨
          ∃ c, style.closing = [c] ∧ Text.Closes (code style) c := by
        by_cases hp : style = .polish
        · refine .inl ?_
          have hcount := ha hp a a.mem_postorder_self o hoa
          rw [hb hp b b.mem_postorder_self o hob, Arity.fixed.injEq] at hcount
          rw [Style.length_facing, Style.length_facing, hcount]
        · exact .inr (exists_closes hp)
      simp only [rest, hoa, hob, Option.isSome_some, if_true, List.append_assoc] at hrest
      obtain ⟨hoperands, hrest⟩ := Text.spaced_append_inj hsplits style.separator_of_mem_closing
        hr hs hend hrest
      exact ⟨eq_of_op?_of_operands hoa hob (style.facing_injective hoperands), hrest⟩

end Code

/-- The text of an expression identifies it. Without brackets this takes operations that say how many
operands they have. -/
theorem eq_of_text_eq (style : Style) {a b : Expr} (hfixed : style = .polish → a.Fixed ∧ b.Fixed)
    (h : a.text style = b.text style) : a = b := by
  have hcode : a.code style ++ [] = b.code style ++ [] := by rw [code, h, code]
  have hempty : Text.Parted [] := by simp [Text.Parted]
  exact (code_append_inj (fun hp => (hfixed hp).1) (fun hp => (hfixed hp).2) hempty hempty hcode).1

theorem eq_of_text_eq_nan :
    let a := atan2 (const (0 / 0)) (sub (var .x) (const (-1)))
    let b := atan2 (const (1 / 0 - 1 / 0)) (sub (var .x) (const (-1)))
    (a.Fixed ∧ b.Fixed) ∧ a.text .polish = b.text .polish ∧ a = b :=
  ⟨by decide, rfl, eq_of_text_eq .polish (fun _ => by decide) rfl⟩

example : (sum [var .x, sum [var .y]]).text .polish = (sum [sum [var .x, var .y]]).text .polish := rfl

end Expr
end Trivariate
