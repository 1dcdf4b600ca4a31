import Trivariate.Expr.Text
import Trivariate.Proofs.ExprParts
import Trivariate.Proofs.Lexemes
import Trivariate.Proofs.NumberText

/-! The tokens of an expression in each style, which its written form spells. -/

namespace Trivariate

namespace Op

def token : Op → Token
  | binary .add => .symbol '+'
  | binary .sub => .symbol '-'
  | binary .mul => .symbol '*'
  | binary .div => .symbol '/'
  | o => .name o.symbol

@[simp] theorem text_token (o : Op) : o.token.text = o.symbol := by
  rcases o with o | o | o <;> cases o <;> rfl

theorem shape_name {s : String} {c : Char} {part : List Char} (hs : s = String.ofList (c :: part))
    (hfirst : c.isLower = true) (hpart : part.all Scan.inName = true) : (Token.name s).Shape :=
  hs ▸ ⟨c, part, .name (List.all_eq_true.mp hpart) hfirst⟩

theorem shape_token (o : Op) : o.token.Shape := by
  rcases o with o | o | o <;> cases o <;>
    first | exact shape_name rfl rfl rfl | exact ⟨_, _, .symbol (by decide)⟩

end Op

theorem Var.shape_token (v : Var) : (Token.name v.name).Shape := by
  cases v <;> exact Op.shape_name rfl rfl rfl

theorem Binary64.shape_token {x : Float} (h : isFinite x = true) : (Token.number (text x)).Shape := by
  generalize hchars : (Decimal.shortest (magnitude x)).chars = chars
  have hnumber : ∀ d ∈ chars, Scan.inNumber d = true := fun d hd =>
    Decimal.inNumber_of_mem_chars (hchars ▸ hd)
  have hne : chars ≠ [] := hchars ▸ Decimal.chars_ne_nil _
  have htext := toList_text h
  rw [hchars] at htext
  by_cases hn : isNegative x = true
  · rw [if_pos hn] at htext
    have hword : text x = String.ofList ('-' :: chars) := by rw [← htext, String.ofList_toList]
    rw [hword]
    exact ⟨_, _, .number hnumber (.inr ⟨rfl, hne⟩)⟩
  · rw [if_neg hn] at htext
    obtain ⟨c, part, rfl⟩ := List.exists_cons_of_ne_nil hne
    obtain ⟨hfirst, hpart⟩ := List.forall_mem_cons.mp hnumber
    have hword : text x = String.ofList (c :: part) := by rw [← htext, String.ofList_toList]
    rw [hword]
    exact ⟨_, _, .number hpart (.inl hfirst)⟩

namespace Style

def tokens : Style → Op → List (List Token) → List Token
  | leading, o, args => .opening :: (o.token :: args.flatten) ++ [.closing]
  | trailing, o, args => .opening :: (args.flatten ++ [o.token]) ++ [.closing]
  | polish, o, args => args.flatten ++ [o.token]

theorem spells_group {s : String} {ts : List Token} (h : Spells s.toList ts) :
    Spells ("(" ++ s ++ ")").toList (.opening :: ts ++ [.closing]) := by
  have hclose : Spells (Token.closing.text.toList ++ []) [.closing] :=
    Spells.nil.bracket (.inr rfl)
  have hopen := (h.append hclose (Apart.cons rfl rfl _)).bracket (.inl rfl)
  simpa [String.toList_append, Token.text] using hopen

theorem spells_layout (style : Style) (o : Op) {texts : List String} {tss : List (List Token)}
    (h : List.Forall₂ Spells (texts.map String.toList) tss) :
    Spells (style.layout o texts).toList (style.tokens o tss) := by
  have hsymbol : Spells o.symbol.toList [o.token] := by
    simpa using Spells.token o.shape_token
  have hlast : Spells (" ".intercalate (texts ++ [o.symbol])).toList (tss.flatten ++ [o.token]) := by
    have hall := Spells.intercalate (List.rel_append h (.cons hsymbol .nil))
    simpa [String.toList_intercalate] using hall
  cases style with
  | leading =>
    -- a group without operands ends in a space that spells nothing
    cases texts with
    | nil =>
      obtain rfl := List.forall₂_nil_left_iff.mp h
      have hspace : Spells (o.symbol ++ " ").toList [o.token] := by
        rw [String.toList_append]
        exact hsymbol.append (Spells.nil.blank rfl) (Apart.cons rfl rfl _)
      have hgroup := spells_group hspace
      simpa [layout, tokens, String.append_assoc] using hgroup
    | cons t texts =>
      have hall := Spells.intercalate (List.Forall₂.cons hsymbol h)
      have hitems : Spells (" ".intercalate (o.symbol :: t :: texts)).toList (o.token :: tss.flatten) := by
        simpa [String.toList_intercalate] using hall
      exact spells_group hitems
  | trailing =>
    cases texts with
    | nil =>
      obtain rfl := List.forall₂_nil_left_iff.mp h
      have hspace : Spells (" " ++ o.symbol).toList [o.token] := by
        rw [String.toList_append]
        exact hsymbol.blank rfl
      have hgroup := spells_group hspace
      simpa [layout, tokens, String.append_assoc] using hgroup
    | cons t texts => exact spells_group hlast
  | polish => exact hlast

end Style

namespace Expr

def tokens (style : Style) (e : Expr) : List Token :=
  e.interpret (.uniform (fun v => [.number (Binary64.text v)]) (fun v => [.name v.name]) style.tokens)

theorem tokens_node (style : Style) {o : Op} {e : Expr} (h : e.op? = some o) :
    e.tokens style = style.tokens o (e.operands.map (tokens style)) := interpret_node _ _ _ h

theorem text_node (style : Style) {o : Op} {e : Expr} (h : e.op? = some o) :
    e.text style = style.layout o (e.operands.map (text style)) := interpret_node _ _ _ h

theorem text_const (style : Style) (v : Float) : (const v).text style = Binary64.text v := rfl

theorem text_var (style : Style) (v : Var) : (var v).text style = v.name := rfl

theorem tokens_const (style : Style) (v : Float) :
    (const v).tokens style = [.number (Binary64.text v)] := rfl

theorem tokens_var (style : Style) (v : Var) : (var v).tokens style = [.name v.name] := rfl

theorem spells_text (style : Style) {e : Expr} (h : e.Finite) :
    Spells (e.text style).toList (e.tokens style) := by
  induction e using induct_node with
  | const v =>
    have hword := Spells.token (Binary64.shape_token h.const)
    simpa only [text_const, tokens_const, Token.text] using hword
  | var v =>
    have hword := Spells.token v.shape_token
    simpa only [text_var, tokens_var, Token.text] using hword
  | node o e ho ih =>
    rw [text_node style ho, tokens_node style ho]
    apply style.spells_layout
    rw [List.map_map, List.forall₂_map_left_iff, List.forall₂_map_right_iff, List.forall₂_same]
    exact fun a ha => ih a ha (h.operand ha)

theorem lexemes_text (style : Style) {e : Expr} (h : e.Finite) :
    Scan.lexemes (e.text style).toList = (e.tokens style).map Lexeme.token := by
  have hend := spells_text style h [] (by simp [Apart])
  simpa [Scan.lexemes, Scan.steps] using hend

end Expr
end Trivariate
