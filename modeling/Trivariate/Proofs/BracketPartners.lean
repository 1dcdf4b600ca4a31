import Trivariate.Proofs.GroupScope
import Trivariate.Proofs.ReaderFailures

/-! Brackets without partners. The reader of bracketed text complains of the first closing bracket
that has none, of the leftmost opening one if all closing ones are paired, and never of another. -/

namespace Trivariate.Reading

/-- Two brackets are partners if all brackets between them are paired among themselves. -/
def Partners (xs : List Step) (x y : Step) : Prop :=
  x.lexeme = .token .opening ∧ y.lexeme = .token .closing ∧
    ∃ front mid back, xs = front ++ x :: (mid ++ y :: back) ∧ Balanced mid

def HasPartner (xs : List Step) (z : Step) : Prop := ∃ w, Partners xs w z ∨ Partners xs z w

structure FirstUnpaired (bracket : Token) (xs : List Step) (z : Step) : Prop where
  mem : z ∈ xs
  lexeme : z.lexeme = .token bracket
  unpaired : ¬ HasPartner xs z
  first : ∀ w ∈ xs, w.lexeme = .token bracket → w.span.start < z.span.start → HasPartner xs w

section Pairing

variable {xs front back : List Step} {x y z : Step}

theorem Partners.within (h : Partners xs x y) (front back : List Step) :
    Partners (front ++ xs ++ back) x y := by
  obtain ⟨hx, hy, left, mid, right, rfl, hmid⟩ := h
  exact ⟨hx, hy, front ++ left, mid, right ++ back, by simp, hmid⟩

theorem HasPartner.within (h : HasPartner xs z) (front back : List Step) :
    HasPartner (front ++ xs ++ back) z := by
  obtain ⟨w, h | h⟩ := h
  · exact ⟨w, .inl (h.within front back)⟩
  · exact ⟨w, .inr (h.within front back)⟩

theorem HasPartner.append (h : HasPartner xs z) (back : List Step) : HasPartner (xs ++ back) z :=
  h.within [] back

theorem Balanced.hasPartner (h : Balanced xs) (hz : z ∈ xs)
    (hbracket : z.lexeme = .token .opening ∨ z.lexeme = .token .closing) : HasPartner xs z := by
  induction h with
  | nil => exact absurd hz List.not_mem_nil
  | single hopening hclosing =>
    obtain rfl := List.mem_singleton.mp hz
    exact absurd hbracket (not_or.mpr ⟨hopening, hclosing⟩)
  | @append xs ys _ _ ihxs ihys =>
    rcases List.mem_append.mp hz with hz | hz
    · exact (ihxs hz).append ys
    · simpa using (ihys hz).within xs []
  | @group x y xs hx hxs hy ih =>
    have hpartners : Partners (x :: (xs ++ [y])) x y := ⟨hx, hy, [], xs, [], rfl, hxs⟩
    rcases List.mem_cons.mp hz with rfl | hz
    · exact ⟨y, .inr hpartners⟩
    rcases List.mem_append.mp hz with hz | hz
    · exact (ih hz).within [x] [y]
    · obtain rfl := List.mem_singleton.mp hz
      exact ⟨x, .inl hpartners⟩

theorem Unclosed.hasPartner {n : Nat} (h : Unclosed n xs) (hz : z ∈ xs)
    (hclosing : z.lexeme = .token .closing) : HasPartner xs z := by
  induction h with
  | balanced h => exact h.hasPartner hz (.inr hclosing)
  | @opening n front mid x _ hx hmid ih =>
    rcases List.mem_append.mp hz with hz | hz
    · exact (ih hz).append _
    rcases List.mem_cons.mp hz with rfl | hz
    · cases hx.symm.trans hclosing
    · simpa using (hmid.hasPartner hz (.inr hclosing)).within (front ++ [x]) []

theorem Unclosed.hasPartner_next {n : Nat} (h : Unclosed (n + 1) front) (hy : y.lexeme = .token .closing)
    (back : List Step) : HasPartner (front ++ y :: back) y := by
  cases h with
  | @opening _ left mid x _ hx hmid =>
    exact ⟨x, .inl ⟨hx, hy, left, mid, back, by rw [List.append_assoc, List.cons_append], hmid⟩⟩

theorem Unclosed.exists_leftmost {n : Nat} (h : Unclosed (n + 1) xs) :
    ∃ front x back, xs = front ++ x :: back ∧ Balanced front ∧ x.lexeme = .token .opening ∧
      Unclosed n back := by
  induction n generalizing xs with
  | zero =>
    cases h with
    | opening hfront hx hmid =>
      cases hfront with
      | balanced hfront => exact ⟨_, _, _, rfl, hfront, hx, .balanced hmid⟩
  | succ n ih =>
    cases h with
    | opening hfront hx hmid =>
      obtain ⟨front, w, back, rfl, hbalanced, hw, hback⟩ := ih hfront
      exact ⟨front, w, _, by rw [List.append_assoc, List.cons_append], hbalanced, hw, hback.opening hx hmid⟩

def nesting (n : Nat) (x : Step) : Option Nat :=
  match x.lexeme with
  | .token .opening => some (n + 1)
  | .token .closing => n.ppred
  | _ => some n

theorem nesting_opening (h : x.lexeme = .token .opening) (n : Nat) (xs : List Step) :
    (x :: xs).foldlM nesting n = xs.foldlM nesting (n + 1) := by
  rw [List.foldlM_cons, nesting, h]
  rfl

theorem nesting_closing (h : x.lexeme = .token .closing) (n : Nat) (xs : List Step) :
    (x :: xs).foldlM nesting n = n.ppred.bind fun m => xs.foldlM nesting m := by
  rw [List.foldlM_cons, nesting, h]
  rfl

theorem nesting_other (hopening : x.lexeme ≠ .token .opening) (hclosing : x.lexeme ≠ .token .closing)
    (n : Nat) (xs : List Step) : (x :: xs).foldlM nesting n = xs.foldlM nesting n := by
  have hstep : nesting n x = some n := by
    unfold nesting
    split
    next h => exact absurd h hopening
    next h => exact absurd h hclosing
    next => rfl
  rw [List.foldlM_cons, hstep]
  rfl

theorem nesting_append {n m : Nat} (h : xs.foldlM nesting n = some m) (ys : List Step) :
    (xs ++ ys).foldlM nesting n = ys.foldlM nesting m := by
  rw [List.foldlM_append, h]
  rfl

theorem Balanced.nesting (h : Balanced xs) (n : Nat) : xs.foldlM nesting n = some n := by
  induction h generalizing n with
  | nil => rfl
  | single hopening hclosing =>
    rw [nesting_other hopening hclosing]
    rfl
  | append _ _ ihxs ihys => rw [nesting_append (ihxs n), ihys n]
  | group hx _ hy ih =>
    rw [nesting_opening hx, nesting_append (ih (n + 1)), nesting_closing hy]
    rfl

theorem Unclosed.nesting {k : Nat} (h : Unclosed k xs) (n : Nat) :
    xs.foldlM nesting n = some (n + k) := by
  induction h with
  | balanced h => exact h.nesting n
  | opening _ hx hmid ih => rw [nesting_append ih, nesting_opening hx, hmid.nesting, Nat.add_assoc]

theorem Balanced.not_open (h : Balanced (front ++ x :: back)) (hx : x.lexeme = .token .opening) :
    ¬ Balanced back := by
  intro hback
  have hnesting := h.nesting 0
  rw [List.foldlM_append] at hnesting
  obtain ⟨n, -, hn⟩ := Option.bind_eq_some_iff.mp hnesting
  rw [nesting_opening hx, hback.nesting] at hn
  cases hn

theorem Unclosed.not_closed {n : Nat} (h : Unclosed n (front ++ y :: back))
    (hy : y.lexeme = .token .closing) : ¬ Balanced front := by
  intro hfront
  have hnesting := h.nesting 0
  rw [nesting_append (hfront.nesting 0), nesting_closing hy] at hnesting
  cases hnesting

end Pairing

section Places

variable {front back : List Step} {z : Step}
  (hxs : (front ++ z :: back).Pairwise (·.span.start < ·.span.start))
include hxs

theorem split_unique {front' back' : List Step} (h : front ++ z :: back = front' ++ z :: back') :
    front = front' ∧ back = back' := by
  obtain ⟨-, hback, hbefore⟩ := List.pairwise_append.mp hxs
  have hfront : z ∉ front := fun hz => Nat.lt_irrefl _ (hbefore z hz z (List.mem_cons_self ..))
  have hrest : z ∉ back := fun hz => Nat.lt_irrefl _ (List.rel_of_pairwise_cons hback hz)
  obtain ⟨hfronts, -, hbacks⟩ := (List.append_cons_inj_of_notMem hfront hrest).mp h
  exact ⟨hfronts, hbacks⟩

theorem mem_front {w : Step} (hw : w ∈ front ++ z :: back) (hlt : w.span.start < z.span.start) :
    w ∈ front := by
  obtain ⟨-, hback, -⟩ := List.pairwise_append.mp hxs
  rcases List.mem_append.mp hw with hw | hw
  · exact hw
  rcases List.mem_cons.mp hw with rfl | hw
  · exact absurd hlt (Nat.lt_irrefl _)
  · exact absurd (List.rel_of_pairwise_cons hback hw) (Nat.lt_asymm hlt)

theorem firstUnpaired_closing (hfront : Balanced front) (hz : z.lexeme = .token .closing) :
    FirstUnpaired .closing (front ++ z :: back) z where
  mem := List.mem_append_right _ (List.mem_cons_self ..)
  lexeme := hz
  unpaired := by
    rintro ⟨w, ⟨hw, -, left, mid, right, hsplit, hmid⟩ | ⟨hopening, -⟩⟩
    · rw [← List.cons_append, ← List.append_assoc] at hsplit
      obtain ⟨rfl, -⟩ := split_unique hxs hsplit
      exact hfront.not_open hw hmid
    · cases hz.symm.trans hopening
  first := by
    intro w hw hclosing hlt
    exact (hfront.hasPartner (mem_front hxs hw hlt) (.inr hclosing)).append _

theorem firstUnpaired_opening {n : Nat} (hfront : Balanced front) (hz : z.lexeme = .token .opening)
    (hback : Unclosed n back) : FirstUnpaired .opening (front ++ z :: back) z where
  mem := List.mem_append_right _ (List.mem_cons_self ..)
  lexeme := hz
  unpaired := by
    rintro ⟨w, ⟨-, hclosing, -⟩ | ⟨-, hw, left, mid, right, hsplit, hmid⟩⟩
    · cases hz.symm.trans hclosing
    · obtain ⟨-, rfl⟩ := split_unique hxs hsplit
      exact hback.not_closed hw hmid
  first := by
    intro w hw hopening hlt
    exact (hfront.hasPartner (mem_front hxs hw hlt) (.inl hopening)).append _

end Places

section Runs

variable {set : Settings} {s s' : Brackets} {xs : List Step}

theorem offsets_suffix {n : Nat} (h : Unclosed n xs)
    (hrun : xs.foldlM (advance (Brackets.step set)) s = .ok s') :
    s.groups.map Group.offset <:+ s'.groups.map Group.offset := by
  induction h generalizing s' with
  | balanced h => rw [map_offset_of_balanced h hrun]
  | @opening n front mid x _ hx hmid ih =>
    obtain ⟨t, hfront, hrest⟩ := foldlM_append_eq_ok_iff.mp hrun
    rw [foldlM_cons_of_ok (Brackets.advance_opening hx t)] at hrest
    rw [map_offset_of_balanced hmid hrest]
    exact (ih hfront).trans (List.suffix_cons _ _)

theorem exists_firstUnpaired_opening (hxs : xs.Pairwise (·.span.start < ·.span.start))
    (hrun : xs.foldlM (advance (Brackets.step set)) {} = .ok s) {g : Group}
    (hg : s.groups.getLast? = some g) :
    ∃ x, FirstUnpaired .opening xs x ∧ x.span.start = g.offset := by
  have hunclosed := unclosed_of_run hrun
  obtain ⟨n, hn⟩ : ∃ n, s.groups.length = n + 1 :=
    Nat.exists_eq_succ_of_ne_zero fun hzero => by simp [List.length_eq_zero_iff.mp hzero] at hg
  rw [hn] at hunclosed
  obtain ⟨front, x, back, rfl, hfront, hx, hback⟩ := hunclosed.exists_leftmost
  refine ⟨x, firstUnpaired_opening hxs hfront hx hback, ?_⟩
  obtain ⟨t, hleft, hright⟩ := foldlM_append_eq_ok_iff.mp hrun
  rw [foldlM_cons_of_ok (Brackets.advance_opening hx t)] at hright
  have hnone : t.groups.map Group.offset = [] := map_offset_of_balanced hfront hleft
  obtain ⟨new, hnew⟩ := offsets_suffix hback hright
  have hlast := congrArg List.getLast? hnew
  rw [List.getLast?_map, hg, Brackets.inside, List.map_cons, hnone, List.getLast?_concat] at hlast
  exact Option.some.inj hlast

end Runs

section Errors

variable {set : Settings} {s : Brackets} {x : Step} {e : ParseError}

theorem unpaired_or_of_refuses (h : Brackets.Refuses set s x e) :
    (∃ p, e = .unpairedBracket ')' p) ∨
      (∀ bracket p, e ≠ .unpairedBracket bracket p) ∧
        (x.lexeme = .token .closing → s.groups ≠ []) := by
  cases h with
  | unknown hrole =>
    refine .inr ⟨nofun, fun hx => ?_⟩
    rw [hx] at hrole
    cases hrole
  | unpaired => exact .inl ⟨_, rfl⟩
  | idle _ hgroups => exact .inr ⟨nofun, fun _ => hgroups⟩
  | short _ hgroups => exact .inr ⟨nofun, fun _ => by simp [hgroups]⟩
  | overfull _ hgroups => exact .inr ⟨nofun, fun _ => by simp [hgroups]⟩
  | deep _ hgroups => exact .inr ⟨nofun, fun _ => by simp [hgroups]⟩

theorem start_lt_of_refused {front back : List Step} {y : Step}
    (hxs : (front ++ x :: back).Pairwise (·.span.start < ·.span.start))
    (hrun : front.foldlM (advance (Brackets.step set)) {} = .ok s)
    (hgroups : x.lexeme = .token .closing → s.groups ≠ [])
    (hy : FirstUnpaired .closing (front ++ x :: back) y) : x.span.start < y.span.start := by
  have hunclosed := unclosed_of_run hrun
  rcases List.mem_append.mp hy.mem with hmem | hmem
  · exact absurd ((hunclosed.hasPartner hmem hy.lexeme).append _) hy.unpaired
  rcases List.mem_cons.mp hmem with rfl | hmem
  · -- the innermost group was opened by a partner of this bracket
    obtain ⟨n, hn⟩ := Nat.exists_eq_succ_of_ne_zero
      (mt List.length_eq_zero_iff.mp (hgroups hy.lexeme))
    rw [hn] at hunclosed
    exact absurd (hunclosed.hasPartner_next hy.lexeme back) hy.unpaired
  · exact List.rel_of_pairwise_cons (List.pairwise_append.mp hxs).2.1 hmem

end Errors

section Readings

variable {set : Settings} {source : String}

theorem firstUnpaired_closing_of_parse {p : Nat}
    (h : parse set source = .error (.unpairedBracket ')' p)) :
    ∃ y, FirstUnpaired .closing (scan source) y ∧ y.span.position = p := by
  have hsteps := Scan.pairwise_start_scan source
  rcases Brackets.refuses_or_lacks h with ⟨front, y, back, s, hscan, hrun, hy⟩ | ⟨s, -, hs⟩
  · cases hy with
    | unpaired hclosing hgroups =>
      have hunclosed := unclosed_of_run hrun
      rw [hgroups] at hunclosed
      cases hunclosed with
      | balanced hfront =>
        rw [hscan] at hsteps ⊢
        exact ⟨y, firstUnpaired_closing hsteps hfront hclosing, rfl⟩
  · cases hs

theorem firstUnpaired_opening_of_parse {p : Nat}
    (h : parse set source = .error (.unpairedBracket '(' p)) :
    (∀ y ∈ scan source, y.lexeme = .token .closing → HasPartner (scan source) y) ∧
      ∃ x, FirstUnpaired .opening (scan source) x ∧ x.span.position = p := by
  rcases Brackets.refuses_or_lacks h with ⟨front, x, back, s, -, -, hx⟩ | ⟨s, hrun, hs⟩
  · cases hx
  · cases hs with
    | unclosed hgroups =>
      obtain ⟨x, hx, hstart⟩ :=
        exists_firstUnpaired_opening (Scan.pairwise_start_scan source) hrun hgroups
      exact ⟨fun y hy => (unclosed_of_run hrun).hasPartner hy, x, hx, congrArg (· + 1) hstart⟩

theorem balanced_of_groups {xs : List Step} {s : Brackets}
    (hrun : xs.foldlM (advance (Brackets.step set)) {} = .ok s) (hgroups : s.groups = []) :
    Balanced xs := by
  have hunclosed := unclosed_of_run hrun
  rw [hgroups] at hunclosed
  cases hunclosed with
  | balanced h => exact h

theorem balanced_of_parse {e : Expr} (h : parse set source = .ok e) : Balanced (scan source) := by
  obtain ⟨s, hrun, hgroups, -⟩ := Brackets.exists_run_of_parse h
  exact balanced_of_groups hrun hgroups

end Readings

/-- The errors of unpaired brackets are those of ordinary bracket matching, and a text whose brackets
do not match has one of them unless a token in front of the first closing bracket without a partner
is refused for another reason. -/
theorem unpaired_brackets (set : Settings) (source : String) :
    (∀ p, parse set source = .error (.unpairedBracket ')' p) →
      ∃ y, FirstUnpaired .closing (scan source) y ∧ y.span.position = p) ∧
    (∀ p, parse set source = .error (.unpairedBracket '(' p) →
      (∀ y ∈ scan source, y.lexeme = .token .closing → HasPartner (scan source) y) ∧
        ∃ x, FirstUnpaired .opening (scan source) x ∧ x.span.position = p) ∧
    (∀ e, parse set source = .ok e → Balanced (scan source)) ∧
    (¬ Balanced (scan source) → ∃ e, parse set source = .error e ∧
      ((∃ p, e = .unpairedBracket ')' p ∨ e = .unpairedBracket '(' p) ∨
        (∀ bracket p, e ≠ .unpairedBracket bracket p) ∧
          ∃ front x back s, scan source = front ++ x :: back ∧
            front.foldlM (advance (Brackets.step set)) {} = .ok s ∧
            Brackets.step set s x = .error e ∧
            ∀ y, FirstUnpaired .closing (scan source) y → x.span.start < y.span.start)) := by
  refine ⟨fun _ => firstUnpaired_closing_of_parse, fun _ => firstUnpaired_opening_of_parse,
    fun _ => balanced_of_parse, fun hbalanced => ?_⟩
  have hsteps := Scan.pairwise_start_scan source
  have hread : parse set source = _ := snd_readBracketed set source
  cases hparse : parse set source with
  | ok e => exact absurd (balanced_of_parse hparse) hbalanced
  | error e =>
    refine ⟨e, rfl, ?_⟩
    rw [hparse] at hread
    rcases exists_of_reading_eq_error hread.symm with ⟨front, x, back, s, hscan, hrun, hx⟩ | ⟨s, hrun, hs⟩
    · rcases unpaired_or_of_refuses (Brackets.refuses_of_step hx) with ⟨p, hp⟩ | ⟨hother, hgroups⟩
      · exact .inl ⟨p, .inl hp⟩
      · refine .inr ⟨hother, front, x, back, s, hscan, hrun, hx, fun y hy => ?_⟩
        rw [hscan] at hsteps hy
        exact start_lt_of_refused hsteps hrun hgroups hy
    · cases Brackets.lacks_of_result hs with
      | unclosed => exact .inl ⟨_, .inr rfl⟩
      | waiting hgroups => exact absurd (balanced_of_groups hrun hgroups) hbalanced
      | uncombined hgroups => exact absurd (balanced_of_groups hrun hgroups) hbalanced

theorem unpaired_brackets_kinds :
    (∃ y, FirstUnpaired .closing (scan "(negate x)) (") y ∧ y.span.position = 11) ∧
    (∃ x, FirstUnpaired .opening (scan "(negate x) ((y") x ∧ x.span.position = 12) ∧
    Balanced (scan "x (+ y)") ∧
    ¬ Balanced (scan "(x))") ∧ parse ⟨.standard, 1⟩ "(x))" = .error (.missingOperation 3) ∧
      ∃ front x back, scan "(x))" = front ++ x :: back ∧
        ∀ y, FirstUnpaired .closing (scan "(x))") y → x.span.start < y.span.start := by
  have hbalanced : ¬ Balanced (scan "(x))") := by
    intro h
    cases h.nesting 0
  have hparse : parse ⟨.standard, 1⟩ "(x))" = .error (.missingOperation 3) := by decide +kernel
  obtain ⟨-, -, -, hother⟩ := unpaired_brackets ⟨.standard, 1⟩ "(x))"
  obtain ⟨e, he, hkind⟩ := hother hbalanced
  obtain rfl := Except.error.inj (hparse.symm.trans he)
  refine ⟨(unpaired_brackets ⟨.standard, 1⟩ _).1 11 (by decide +kernel),
    ((unpaired_brackets ⟨.standard, 1⟩ _).2.1 12 (by decide +kernel)).2,
    (unpaired_brackets ⟨.standard, 1⟩ "x (+ y)").2.2.1 (.add (.var .x) (.var .y)) (by decide +kernel),
    hbalanced, hparse, ?_⟩
  rcases hkind with ⟨p, hp | hp⟩ | ⟨-, front, x, back, -, hscan, -, -, hbefore⟩
  · cases hp
  · cases hp
  · exact ⟨front, x, back, hscan, hbefore⟩

end Trivariate.Reading
