import Trivariate.Text.Blank
import Trivariate.Token.Basic

/-! Scanning a text. Names and numbers are as long as they can be, blanks part tokens and are
dropped, and a character that starts no token is a step of its own, after which the scan goes on. -/

namespace Trivariate

inductive Lexeme where
  | token (t : Token)
  | stray (c : Char)
  deriving DecidableEq, Repr

def Lexeme.text : Lexeme → String
  | token t => t.text
  | stray c => c.toString

structure Step where
  lexeme : Lexeme
  span : Span
  deriving DecidableEq, Repr

namespace Scan

def inName (c : Char) : Bool := c.isLower || c.isDigit

def inNumber (c : Char) : Bool := c.isDigit || c == '.'

/-- The lexeme that starts with `c`, and how many of the characters after `c` it takes. A minus
belongs to the number that it touches. -/
def lexeme (c : Char) (rest : List Char) : Lexeme × Nat :=
  if c.isLower then
    let part := rest.takeWhile inName
    (.token (.name (String.ofList (c :: part))), part.length)
  else if inNumber c || (c == '-' && rest.head?.any inNumber) then
    let part := rest.takeWhile inNumber
    (.token (.number (String.ofList (c :: part))), part.length)
  else if c == '(' then (.token .opening, 0)
  else if c == ')' then (.token .closing, 0)
  else if c ∈ ['+', '-', '*', '/'] then (.token (.symbol c), 0)
  else (.stray c, 0)

/-- Scans on from a column, past the first `taken` characters, which an earlier lexeme holds. -/
def steps (column taken : Nat) : List Char → List Step
  | [] => []
  | c :: rest =>
    match taken with
    | more + 1 => steps (column + 1) more rest
    | 0 =>
      if Text.isBlank c then steps (column + 1) 0 rest
      else
        let (found, more) := lexeme c rest
        ⟨found, column, column + 1 + more⟩ :: steps (column + 1) more rest

theorem steps_drop (column taken : Nat) (cs : List Char) (h : taken ≤ cs.length) :
    steps column taken cs = steps (column + taken) 0 (cs.drop taken) := by
  induction taken generalizing column cs with
  | zero => rfl
  | succ taken ih =>
    cases cs with
    | nil => simp at h
    | cons c rest =>
      rw [steps, List.drop_succ_cons, ih _ _ (by simpa using h)]
      congr 1
      omega

end Scan

def scan (source : String) : List Step := Scan.steps 0 0 source.toList

def positionAfter (source : String) : Nat := source.length + 1

end Trivariate
