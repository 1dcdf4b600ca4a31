import Mathlib.Data.List.Forall2
import Trivariate.Proofs.TokenShape

/-! What a scan finds, apart from the places. A text spells tokens if a scan finds just these in it,
whatever comes next that does not run into them. -/

namespace Trivariate

namespace Scan

def lexemes (cs : List Char) : List Lexeme := (steps 0 0 cs).map Step.lexeme

theorem steps_blank {c : Char} (h : Text.isBlank c = true) (column : Nat) (rest : List Char) :
    steps column 0 (c :: rest) = steps (column + 1) 0 rest := by
  rw [steps, if_pos h]

theorem steps_lexeme {c : Char} (h : Text.isBlank c = false) (column : Nat) (rest : List Char) :
    steps column 0 (c :: rest) =
      ⟨(lexeme c rest).1, column, column + 1 + (lexeme c rest).2⟩ ::
        steps (column + 1) (lexeme c rest).2 rest := by
  rw [steps, if_neg (by simp [h])]

theorem map_lexeme_steps (column column' taken : Nat) (cs : List Char) :
    (steps column taken cs).map Step.lexeme = (steps column' taken cs).map Step.lexeme := by
  induction cs generalizing column column' taken with
  | nil => rfl
  | cons c rest ih =>
    cases taken with
    | succ more => exact ih _ _ more
    | zero =>
      cases hblank : Text.isBlank c with
      | true =>
        rw [steps_blank hblank, steps_blank hblank]
        exact ih _ _ 0
      | false =>
        rw [steps_lexeme hblank, steps_lexeme hblank, List.map_cons, List.map_cons,
          ih (column + 1) (column' + 1)]

theorem shape_of_mem_steps {column taken : Nat} {cs : List Char} {x : Step} {t : Token}
    (hx : x ∈ steps column taken cs) (ht : x.lexeme = .token t) : t.Shape := by
  induction cs generalizing column taken with
  | nil => simp [steps] at hx
  | cons c rest ih =>
    cases taken with
    | succ more => exact ih hx
    | zero =>
      rw [steps] at hx
      split at hx
      · exact ih hx
      · rcases List.mem_cons.mp hx with rfl | hx
        · exact ⟨c, _, (formed_of_lexeme (Prod.ext ht rfl)).1⟩
        · exact ih hx

theorem shape_of_mem_scan (source : String) :
    ∀ x ∈ scan source, ∀ t, x.lexeme = .token t → t.Shape :=
  fun _ hx _ ht => shape_of_mem_steps hx ht

theorem lexeme_snd_le (c : Char) (rest : List Char) : (lexeme c rest).2 ≤ rest.length := by
  unfold lexeme
  repeat' split
  all_goals first | exact (List.takeWhile_prefix _).length_le | exact Nat.zero_le _

theorem lexemes_blank {c : Char} (h : Text.isBlank c = true) (rest : List Char) :
    lexemes (c :: rest) = lexemes rest := by
  rw [lexemes, steps_blank h]
  exact map_lexeme_steps _ _ 0 rest

theorem lexemes_cons {c : Char} (h : Text.isBlank c = false) (rest : List Char) :
    lexemes (c :: rest) = (lexeme c rest).1 :: lexemes (rest.drop (lexeme c rest).2) := by
  rw [lexemes, steps_lexeme h, List.map_cons, steps_drop _ _ _ (lexeme_snd_le c rest)]
  exact congrArg _ (map_lexeme_steps _ _ 0 _)

theorem lexemes_token {t : Token} {rest : List Char} (ht : t.Shape) (he : t.EndsBefore rest) :
    lexemes (t.text.toList ++ rest) = .token t :: lexemes rest := by
  obtain ⟨c, part, h⟩ := ht
  rw [h.toList_text, List.cons_append, lexemes_cons (isBlank_of_formed h), lexeme_of_formed h he,
    List.drop_left]

end Scan

def Apart (rest : List Char) : Prop := ∀ d ∈ rest.head?, ∀ t : Token, t.absorbs d = false

theorem Apart.cons {c : Char} (hname : Scan.inName c = false) (hnumber : Scan.inNumber c = false)
    (rest : List Char) : Apart (c :: rest) := by
  intro d hd t
  obtain rfl : c = d := by simpa using hd
  cases t <;> simp [Token.absorbs, hname, hnumber]

theorem Apart.of_isBlank {c : Char} (h : Text.isBlank c = true) (rest : List Char) :
    Apart (c :: rest) :=
  Apart.cons (Scan.inName_of_isBlank h) (Scan.inNumber_of_isBlank h) rest

theorem Apart.append {a b : List Char} (ha : Apart a) (hb : Apart b) : Apart (a ++ b) := by
  cases a with
  | nil => exact hb
  | cons c a => exact ha

def Spells (cs : List Char) (ts : List Token) : Prop :=
  ∀ rest, Apart rest → Scan.lexemes (cs ++ rest) = ts.map Lexeme.token ++ Scan.lexemes rest

namespace Spells

theorem nil : Spells [] [] := fun _ _ => rfl

theorem token {t : Token} (ht : t.Shape) : Spells t.text.toList [t] := fun _ hrest =>
  Scan.lexemes_token ht fun d hd => hrest d hd t

theorem append {a b : List Char} {ts us : List Token} (ha : Spells a ts) (hb : Spells b us)
    (h : Apart b) : Spells (a ++ b) (ts ++ us) := by
  intro rest hrest
  rw [List.append_assoc, ha _ (h.append hrest), hb rest hrest, List.map_append, List.append_assoc]

theorem blank {c : Char} {cs : List Char} {ts : List Token} (hc : Text.isBlank c = true)
    (h : Spells cs ts) : Spells (c :: cs) ts := fun rest hrest =>
  (Scan.lexemes_blank hc _).trans (h rest hrest)

theorem bracket {t : Token} {cs : List Char} {ts : List Token} (ht : t = .opening ∨ t = .closing)
    (h : Spells cs ts) : Spells (t.text.toList ++ cs) (t :: ts) := by
  intro rest hrest
  have hshape : t.Shape := by
    rcases ht with rfl | rfl
    · exact ⟨_, _, .opening⟩
    · exact ⟨_, _, .closing⟩
  have hends : t.EndsBefore (cs ++ rest) := by rcases ht with rfl | rfl <;> exact fun _ _ => rfl
  rw [List.append_assoc, Scan.lexemes_token hshape hends, h rest hrest]
  rfl

theorem intercalate {css : List (List Char)} {tss : List (List Token)}
    (h : List.Forall₂ Spells css tss) : Spells ([' '].intercalate css) tss.flatten := by
  induction h with
  | nil => exact nil
  | @cons cs ts css tss hcs hrest ih =>
    cases css with
    | nil =>
      obtain rfl := List.forall₂_nil_left_iff.mp hrest
      simpa using hcs
    | cons cs' css =>
      rw [List.intercalate_cons_cons, List.append_assoc, List.flatten_cons]
      exact hcs.append (blank rfl ih) (Apart.cons rfl rfl _)

end Spells
end Trivariate
