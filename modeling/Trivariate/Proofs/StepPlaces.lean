import Mathlib.Data.String.Basic
import Trivariate.Proofs.Lexemes

/-! Where the steps of a scan stand in their text. They follow one another without overlap, each holds
just the characters of its span, and nothing but blanks is left between them. A scanner that is asked
for one step after another, and cuts its words out of the text by their bytes, comes by the same steps. -/

namespace Trivariate

namespace Span

def Covers (s : Span) (i : Nat) : Prop := s.start ≤ i ∧ i < s.stop

def chars (s : Span) (cs : List Char) : List Char := (cs.drop s.start).take (s.stop - s.start)

end Span

/-- How a token is made where the text goes on like this: names and numbers go on as far as they can,
and no minus touches a number. -/
def Token.Greedy (rest : List Char) : Token → Prop
  | name s => ∃ c part, s.toList = c :: part ∧ c.isLower = true ∧
      (∀ d ∈ part, Scan.inName d = true) ∧ ∀ d ∈ rest.head?, Scan.inName d = false
  | number s => ∃ sign part, s.toList = sign ++ part ∧ (sign = [] ∨ sign = ['-']) ∧ part ≠ [] ∧
      (∀ d ∈ part, Scan.inNumber d = true) ∧ ∀ d ∈ rest.head?, Scan.inNumber d = false
  | symbol c => c ∈ ['+', '-', '*', '/'] ∧ (c = '-' → ∀ d ∈ rest.head?, Scan.inNumber d = false)
  | opening => True
  | closing => True

theorem Token.Formed.greedy {c : Char} {part rest : List Char} {t : Token} (h : t.Formed c part)
    (he : t.EndsBefore rest) : t.Greedy rest := by
  cases h with
  | symbol hc =>
    refine ⟨hc, ?_⟩
    rintro rfl d hd
    simpa [absorbs] using he d hd
  | number hpart hfirst =>
    rcases hfirst with hc | ⟨rfl, hne⟩
    · exact ⟨[], c :: part, String.toList_ofList, .inl rfl, List.cons_ne_nil _ _,
        List.forall_mem_cons.mpr ⟨hc, hpart⟩, he⟩
    · exact ⟨['-'], part, String.toList_ofList, .inr rfl, hne, hpart, he⟩
  | name hpart hfirst => exact ⟨c, part, String.toList_ofList, hfirst, hpart, he⟩
  | opening => trivial
  | closing => trivial

namespace Scan

theorem lexeme_stray {c d : Char} {rest : List Char} {n : Nat} (h : lexeme c rest = (.stray d, n)) :
    d = c ∧ n = 0 ∧ ∀ rest', lexeme c rest' = (.stray c, 0) := by
  unfold lexeme at h
  split at h
  next => cases h
  next hlower =>
    split at h
    next => cases h
    next hnumber =>
      split at h
      next => cases h
      next hopening =>
        split at h
        next => cases h
        next hclosing =>
          split at h
          next => cases h
          next hsymbol =>
            cases h
            refine ⟨rfl, rfl, fun rest' => ?_⟩
            have hminus : (c == '-') = false := by
              rw [beq_eq_false_iff_ne]
              rintro rfl
              exact hsymbol (by decide)
            have hdigit : inNumber c = false := by
              rw [Bool.or_eq_true, not_or] at hnumber
              exact eq_false_of_ne_true hnumber.1
            rw [lexeme, if_neg hlower, if_neg (by simp [hminus, hdigit]), if_neg hopening,
              if_neg hclosing, if_neg hsymbol]

theorem toList_text_lexeme (c : Char) (rest : List Char) :
    (lexeme c rest).1.text.toList = c :: rest.take (lexeme c rest).2 := by
  cases hfound : lexeme c rest with
  | mk found more =>
    cases found with
    | token t => exact (formed_of_lexeme hfound).1.toList_text
    | stray d =>
      obtain ⟨rfl, rfl, -⟩ := lexeme_stray hfound
      simp [Lexeme.text, Char.toString]

theorem isBlank_of_mem_text {c d : Char} {rest : List Char} (hc : Text.isBlank c = false)
    (hd : d ∈ (lexeme c rest).1.text.toList) : Text.isBlank d = false := by
  by_contra hblank
  have hblank := eq_true_of_ne_false hblank
  rw [toList_text_lexeme] at hd
  rcases List.mem_cons.mp hd with rfl | hd
  · rw [hc] at hblank
    cases hblank
  · cases hfound : lexeme c rest with
    | mk found more =>
      rw [hfound] at hd
      cases found with
      | token t =>
        have hformed := (formed_of_lexeme hfound).1
        generalize rest.take more = part at hd hformed
        cases hformed with
        | symbol => cases hd
        | number hpart => simpa [inNumber_of_isBlank hblank] using hpart d hd
        | name hpart => simpa [inName_of_isBlank hblank] using hpart d hd
        | opening => cases hd
        | closing => cases hd
      | stray =>
        obtain ⟨-, rfl, -⟩ := lexeme_stray hfound
        cases hd

theorem exists_of_mem_steps {column taken : Nat} {cs : List Char} {x : Step}
    (h : x ∈ steps column taken cs) :
    ∃ front c rest, cs = front ++ c :: rest ∧ taken ≤ front.length ∧ Text.isBlank c = false ∧
      x = ⟨(lexeme c rest).1, column + front.length,
        column + front.length + 1 + (lexeme c rest).2⟩ := by
  induction cs generalizing column taken with
  | nil => exact absurd h List.not_mem_nil
  | cons c cs ih =>
    have hlater : ∀ {more}, x ∈ steps (column + 1) more cs →
        ∃ front d rest, c :: cs = front ++ d :: rest ∧ more + 1 ≤ front.length ∧
          Text.isBlank d = false ∧ x = ⟨(lexeme d rest).1, column + front.length,
            column + front.length + 1 + (lexeme d rest).2⟩ := by
      intro more hx
      obtain ⟨front, d, rest, rfl, hle, hd, rfl⟩ := ih hx
      refine ⟨c :: front, d, rest, rfl, Nat.succ_le_succ hle, hd, ?_⟩
      rw [List.length_cons, Nat.add_right_comm column 1, Nat.add_assoc column]
    unfold steps at h
    split at h
    next more => exact hlater h
    next =>
      split at h
      next =>
        obtain ⟨front, d, rest, hcs, -, hd, hx⟩ := hlater h
        exact ⟨front, d, rest, hcs, Nat.zero_le _, hd, hx⟩
      next hblank =>
        rcases List.mem_cons.mp h with rfl | h
        · exact ⟨[], c, cs, rfl, Nat.zero_le _, eq_false_of_ne_true hblank, rfl⟩
        · obtain ⟨front, d, rest, hcs, -, hd, hx⟩ := hlater h
          exact ⟨front, d, rest, hcs, Nat.zero_le _, hd, hx⟩

theorem le_start_of_mem_steps {column taken : Nat} {cs : List Char} {x : Step}
    (h : x ∈ steps column taken cs) : column + taken ≤ x.span.start := by
  obtain ⟨front, c, rest, -, hle, -, rfl⟩ := exists_of_mem_steps h
  exact Nat.add_le_add_left hle column

theorem pairwise_spans_steps (column taken : Nat) (cs : List Char) :
    (steps column taken cs).Pairwise fun x y => x.span.stop ≤ y.span.start := by
  induction cs generalizing column taken with
  | nil => exact .nil
  | cons c cs ih =>
    unfold steps
    split
    next => exact ih ..
    next =>
      split
      next => exact ih ..
      next => exact .cons (fun _ hx => le_start_of_mem_steps hx) (ih ..)

theorem exists_covers_of_steps {column taken i : Nat} {cs : List Char} {c : Char} (hle : taken ≤ i)
    (hi : cs[i]? = some c) (hc : Text.isBlank c = false) :
    ∃ x ∈ steps column taken cs, x.span.Covers (column + i) := by
  induction cs generalizing column taken i with
  | nil => cases hi
  | cons d cs ih =>
    have hlater : ∀ more, more + 1 ≤ i →
        ∃ x ∈ steps (column + 1) more cs, x.span.Covers (column + i) := by
      intro more hmore
      cases i with
      | zero => cases hmore
      | succ j =>
        rw [← Nat.add_assoc, Nat.add_right_comm]
        exact ih (Nat.le_of_succ_le_succ hmore) hi
    unfold steps
    split
    next more => exact hlater more hle
    next =>
      split
      next hblank =>
        refine hlater 0 (Nat.one_le_iff_ne_zero.mpr ?_)
        rintro rfl
        rw [Option.some.inj hi, hc] at hblank
        cases hblank
      next =>
        by_cases hin : i < 1 + (lexeme d cs).2
        · refine ⟨_, List.mem_cons_self .., Nat.le_add_right .., ?_⟩
          change column + i < column + 1 + (lexeme d cs).2
          omega
        · obtain ⟨x, hx, hcovers⟩ := hlater (lexeme d cs).2 (by omega)
          exact ⟨x, List.mem_cons_of_mem _ hx, hcovers⟩

section Places

variable {source : String} {x : Step}

theorem exists_of_mem_scan (h : x ∈ scan source) :
    ∃ front c rest, source.toList = front ++ c :: rest ∧ Text.isBlank c = false ∧
      x = ⟨(lexeme c rest).1, front.length, front.length + 1 + (lexeme c rest).2⟩ := by
  obtain ⟨front, c, rest, hsource, -, hc, rfl⟩ := exists_of_mem_steps h
  refine ⟨front, c, rest, hsource, hc, ?_⟩
  rw [Nat.zero_add]

theorem span_of_mem_scan (h : x ∈ scan source) :
    x.span.start < x.span.stop ∧ x.span.stop ≤ source.length := by
  obtain ⟨front, c, rest, hsource, -, rfl⟩ := exists_of_mem_scan h
  have hmore := lexeme_snd_le c rest
  have hlength := congrArg List.length hsource
  rw [String.length_toList, List.length_append, List.length_cons] at hlength
  dsimp only
  omega

theorem pairwise_start_scan (source : String) :
    (scan source).Pairwise (·.span.start < ·.span.start) :=
  (pairwise_spans_steps 0 0 source.toList).imp_of_mem fun hx _ hle =>
    Nat.lt_of_lt_of_le (span_of_mem_scan hx).1 hle

theorem text_of_mem_scan (h : x ∈ scan source) :
    x.lexeme.text.toList = x.span.chars source.toList := by
  obtain ⟨front, c, rest, hsource, -, rfl⟩ := exists_of_mem_scan h
  rw [Span.chars, hsource, List.drop_left, toList_text_lexeme, Nat.add_assoc, Nat.add_sub_cancel_left,
    Nat.add_comm 1, List.take_succ_cons]

theorem stop_of_stray (h : x ∈ scan source) {c : Char} (hx : x.lexeme = .stray c) :
    x.span.stop = x.span.start + 1 := by
  obtain ⟨front, d, rest, -, -, rfl⟩ := exists_of_mem_scan h
  have hfound : lexeme d rest = (.stray c, (lexeme d rest).2) := Prod.ext hx rfl
  obtain ⟨-, hmore, -⟩ := lexeme_stray hfound
  exact congrArg (front.length + 1 + ·) hmore

theorem greedy_of_mem_scan (h : x ∈ scan source) {t : Token} (hx : x.lexeme = .token t) :
    t.Greedy (source.toList.drop x.span.stop) := by
  obtain ⟨front, c, rest, hsource, -, rfl⟩ := exists_of_mem_scan h
  obtain ⟨hformed, hends⟩ := formed_of_lexeme (Prod.ext hx rfl)
  rw [hsource, Nat.add_assoc, List.drop_append, List.drop_of_length_le (Nat.le_add_right ..),
    List.nil_append, Nat.add_sub_cancel_left, Nat.add_comm 1, List.drop_succ_cons]
  exact hformed.greedy hends

theorem isBlank_eq_false_of_covers (h : x ∈ scan source) {i : Nat} (hcovers : x.span.Covers i)
    {c : Char} (hi : source.toList[i]? = some c) : Text.isBlank c = false := by
  obtain ⟨hstart, hstop⟩ := hcovers
  have hmem : c ∈ x.lexeme.text.toList := by
    rw [text_of_mem_scan h, Span.chars]
    refine List.mem_of_getElem? (i := i - x.span.start) ?_
    rw [List.getElem?_take_of_lt (by omega), List.getElem?_drop, Nat.add_sub_cancel' hstart]
    exact hi
  obtain ⟨front, d, rest, -, hd, rfl⟩ := exists_of_mem_scan h
  exact isBlank_of_mem_text hd hmem

theorem isBlank_iff_not_covers {i : Nat} {c : Char} (hi : source.toList[i]? = some c) :
    Text.isBlank c = true ↔ ∀ x ∈ scan source, ¬ x.span.Covers i := by
  constructor
  · intro hblank x hx hcovers
    rw [isBlank_eq_false_of_covers hx hcovers hi] at hblank
    cases hblank
  · intro hout
    by_contra hblank
    obtain ⟨x, hx, hcovers⟩ : ∃ x ∈ scan source, x.span.Covers (0 + i) :=
      exists_covers_of_steps (Nat.zero_le i) hi (eq_false_of_ne_true hblank)
    rw [Nat.zero_add] at hcovers
    exact hout x hx hcovers

end Places

structure Cursor where
  column : Nat
  offset : Nat
  rest : List Char

namespace Cursor

def position (k : Cursor) : Nat := k.column + 1

def behind (front rest : List Char) : Cursor := ⟨front.length, String.utf8Len front, rest⟩

def start (source : String) : Cursor := behind [] source.toList

def consume (p : Char → Bool) (column offset : Nat) : List Char → Cursor
  | [] => ⟨column, offset, []⟩
  | c :: rest =>
    if p c then consume p (column + 1) (offset + c.utf8Size) rest else ⟨column, offset, c :: rest⟩

def word (source : String) (kind : String → Token) (column offset : Nat) (k : Cursor) :
    Option Step × Cursor :=
  (some ⟨.token (kind (String.Pos.Raw.extract source ⟨offset⟩ ⟨k.offset⟩)), column, k.column⟩, k)

def single (c : Char) : Lexeme :=
  if c == '(' then .token .opening
  else if c == ')' then .token .closing
  else if c ∈ ['+', '-', '*', '/'] then .token (.symbol c)
  else .stray c

def seek (source : String) (column offset : Nat) : List Char → Option Step × Cursor
  | [] => (none, ⟨column, offset, []⟩)
  | c :: rest =>
    if Text.isBlank c then seek source (column + 1) (offset + c.utf8Size) rest
    else if c.isLower then
      word source .name column offset (consume inName (column + 1) (offset + c.utf8Size) rest)
    else if inNumber c || (c == '-' && rest.head?.any inNumber) then
      word source .number column offset (consume inNumber (column + 1) (offset + c.utf8Size) rest)
    else (some ⟨single c, column, column + 1⟩, ⟨column + 1, offset + c.utf8Size, rest⟩)

def next (source : String) (k : Cursor) : Option Step × Cursor :=
  seek source k.column k.offset k.rest

theorem consume_eq (p : Char → Bool) (column offset : Nat) (rest : List Char) :
    consume p column offset rest = ⟨column + (rest.takeWhile p).length,
      offset + String.utf8Len (rest.takeWhile p), rest.drop (rest.takeWhile p).length⟩ := by
  induction rest generalizing column offset with
  | nil => rfl
  | cons c rest ih =>
    unfold consume
    split
    next hc =>
      rw [ih, List.takeWhile_cons_of_pos hc, List.length_cons, String.utf8Len_cons, List.drop_succ_cons,
        Nat.add_right_comm column, Nat.add_assoc offset, Nat.add_comm c.utf8Size]
      rfl
    next hc => rw [List.takeWhile_cons_of_neg hc]; rfl

theorem word_consume {source : String} {front rest : List Char} {c : Char}
    (h : source.toList = front ++ c :: rest) (kind : String → Token) (p : Char → Bool) :
    word source kind front.length (String.utf8Len front)
        (consume p (front.length + 1) (String.utf8Len front + c.utf8Size) rest) =
      (some ⟨.token (kind (String.ofList (c :: rest.takeWhile p))), front.length,
          front.length + 1 + (rest.takeWhile p).length⟩,
        behind (front ++ c :: rest.takeWhile p) (rest.drop (rest.takeWhile p).length)) := by
  have hrest := List.take_append_drop (rest.takeWhile p).length rest
  rw [take_length_takeWhile] at hrest
  have hsource : source = String.ofList (front ++ c :: rest.takeWhile p ++
      rest.drop (rest.takeWhile p).length) := by
    rw [List.append_assoc, List.cons_append, hrest, ← h, String.ofList_toList]
  have hcut := String.extract_of_valid front (c :: rest.takeWhile p)
    (rest.drop (rest.takeWhile p).length)
  rw [← hsource, String.utf8Len_cons, Nat.add_comm _ c.utf8Size, ← Nat.add_assoc] at hcut
  have hend : behind (front ++ c :: rest.takeWhile p) (rest.drop (rest.takeWhile p).length) =
      consume p (front.length + 1) (String.utf8Len front + c.utf8Size) rest := by
    rw [consume_eq, behind, List.length_append, String.utf8Len_append, List.length_cons,
      String.utf8Len_cons, Nat.add_assoc, Nat.add_assoc, Nat.add_comm 1, Nat.add_comm c.utf8Size]
  rw [word, hend, consume_eq, hcut]

theorem seek_lexeme {source : String} {front rest : List Char} {c : Char}
    (h : source.toList = front ++ c :: rest) (hc : Text.isBlank c = false) :
    seek source front.length (String.utf8Len front) (c :: rest) =
      (some ⟨(lexeme c rest).1, front.length, front.length + 1 + (lexeme c rest).2⟩,
        behind (front ++ c :: rest.take (lexeme c rest).2) (rest.drop (lexeme c rest).2)) := by
  have hsingle : behind (front ++ [c]) rest =
      ⟨front.length + 1, String.utf8Len front + c.utf8Size, rest⟩ := by
    rw [behind, List.length_append, String.utf8Len_append, String.utf8Len_cons, String.utf8Len_nil,
      Nat.zero_add, List.length_singleton]
  rw [seek, if_neg (by simp [hc])]
  unfold lexeme
  split
  next => rw [word_consume h, take_length_takeWhile]
  next =>
    split
    next => rw [word_consume h, take_length_takeWhile]
    next =>
      unfold single
      rw [← hsingle]
      split
      next => rfl
      next =>
        split
        next => rfl
        next => split <;> rfl

theorem seek_eq {source : String} {front rest : List Char} (h : source.toList = front ++ rest) :
    (steps front.length 0 rest = [] ∧
      seek source front.length (String.utf8Len front) rest = (none, behind source.toList [])) ∨
    ∃ x front' rest', source.toList = front' ++ rest' ∧ x.span.stop = front'.length ∧
      steps front.length 0 rest = x :: steps front'.length 0 rest' ∧
      seek source front.length (String.utf8Len front) rest = (some x, behind front' rest') := by
  induction rest generalizing front with
  | nil =>
    rw [List.append_nil] at h
    exact .inl ⟨rfl, by rw [h]; rfl⟩
  | cons c rest ih =>
    by_cases hblank : Text.isBlank c = true
    · have hfront : source.toList = (front ++ [c]) ++ rest := by
        rw [h, List.append_assoc, List.singleton_append]
      have hnext := ih hfront
      rw [List.length_append, String.utf8Len_append, String.utf8Len_cons, String.utf8Len_nil,
        Nat.zero_add, List.length_singleton] at hnext
      rw [steps, seek, if_pos hblank, if_pos hblank]
      exact hnext
    · have hmore := lexeme_snd_le c rest
      have hlength : (front ++ c :: rest.take (lexeme c rest).2).length =
          front.length + 1 + (lexeme c rest).2 := by
        rw [List.length_append, List.length_cons, List.length_take, Nat.min_eq_left hmore]
        omega
      refine .inr ⟨_, _, _, ?_, hlength.symm, ?_, seek_lexeme h (eq_false_of_ne_true hblank)⟩
      · rw [h, List.append_assoc, List.cons_append, List.take_append_drop]
      · rw [steps, if_neg hblank, hlength, ← steps_drop _ _ _ hmore]

/-- One call after another, up to the first that finds no step: what they find, each with the cursor
after the call, and the cursor at the end. -/
inductive Calls (source : String) : Cursor → List (Step × Cursor) → Cursor → Prop
  | done {k last : Cursor} (h : k.next source = (none, last)) : Calls source k [] last
  | call {k k' last : Cursor} {x : Step} {found : List (Step × Cursor)}
      (h : k.next source = (some x, k')) (hrest : Calls source k' found last) :
      Calls source k ((x, k') :: found) last

theorem exists_calls {source : String} {front rest : List Char} (h : source.toList = front ++ rest) :
    ∃ found, Calls source (behind front rest) found (behind source.toList []) ∧
      found.map Prod.fst = steps front.length 0 rest ∧
      ∀ p ∈ found, p.2.column = p.1.span.stop ∧ p.2.rest = source.toList.drop p.1.span.stop := by
  generalize hxs : steps front.length 0 rest = xs
  induction xs generalizing front rest with
  | nil =>
    rcases seek_eq h with ⟨-, hseek⟩ | ⟨x, front', rest', -, -, hsteps, -⟩
    · exact ⟨[], .done hseek, rfl, List.forall_mem_nil _⟩
    · rw [hxs] at hsteps
      cases hsteps
  | cons x xs ih =>
    rcases seek_eq h with ⟨hsteps, -⟩ | ⟨x', front', rest', hsource, hstop, hsteps, hseek⟩
    · rw [hxs] at hsteps
      cases hsteps
    · rw [hxs] at hsteps
      obtain ⟨rfl, rfl⟩ := List.cons.inj hsteps
      obtain ⟨found, hcalls, hfound, hall⟩ := ih hsource rfl
      refine ⟨(x, behind front' rest') :: found, .call hseek hcalls, congrArg (x :: ·) hfound,
        List.forall_mem_cons.mpr ⟨⟨hstop.symm, ?_⟩, hall⟩⟩
      rw [hsource, hstop, List.drop_left]
      rfl

end Cursor
end Scan

/-- A scan loses nothing of its text. Calls for one step after another come to an end, and each leaves
the scanner just behind its step. The spans follow one another without overlap inside the text, hold
the characters of their lexemes, and leave out the blanks and nothing else. Names and numbers are as
long as they can be. -/
theorem scan_lossless (source : String) :
    (∃ found last, Scan.Cursor.Calls source (.start source) found last ∧
      found.map Prod.fst = scan source ∧
      (∀ p ∈ found, p.2.position = p.1.span.stop + 1 ∧
        p.2.rest = source.toList.drop p.1.span.stop) ∧
      last.position = source.length + 1 ∧ last.rest = []) ∧
    (scan source).Pairwise (fun x y => x.span.stop ≤ y.span.start) ∧
    (∀ x ∈ scan source, x.span.start < x.span.stop ∧ x.span.stop ≤ source.length ∧
      x.lexeme.text.toList = x.span.chars source.toList ∧
      (∀ c, x.lexeme = .stray c → x.span.stop = x.span.start + 1) ∧
      ∀ t, x.lexeme = .token t → t.Greedy (source.toList.drop x.span.stop)) ∧
    ∀ i c, source.toList[i]? = some c →
      (Text.isBlank c = true ↔ ∀ x ∈ scan source, ¬ x.span.Covers i) := by
  refine ⟨?_, Scan.pairwise_spans_steps .., ?_, fun i c hi => Scan.isBlank_iff_not_covers hi⟩
  · obtain ⟨found, hcalls, hfound, hall⟩ := Scan.Cursor.exists_calls (List.nil_append source.toList).symm
    refine ⟨found, _, hcalls, hfound, ?_, congrArg (· + 1) String.length_toList, rfl⟩
    exact fun p hp => ⟨congrArg (· + 1) (hall p hp).1, (hall p hp).2⟩
  · intro x hx
    obtain ⟨hstart, hstop⟩ := Scan.span_of_mem_scan hx
    exact ⟨hstart, hstop, Scan.text_of_mem_scan hx, fun _ => Scan.stop_of_stray hx,
      fun _ => Scan.greedy_of_mem_scan hx⟩

end Trivariate
