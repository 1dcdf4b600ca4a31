import Trivariate.Binary64.Rounding

/-! Plain decimals: digits with at most one point among them and no exponent. -/

namespace Trivariate

/-- The number `digits / 10 ^ places`. -/
structure Decimal where
  digits : Nat
  places : Nat
  deriving DecidableEq, Repr

namespace Decimal

def magnitude (d : Decimal) : Nat := Binary64.nearest d.digits (Nat.pow 10 d.places)

def figures (d : Decimal) : List Char :=
  let written := Nat.toDigits 10 d.digits
  List.replicate (d.places + 1 - written.length) '0' ++ written

def chars (d : Decimal) : List Char :=
  if d.places = 0 then d.figures
  else
    let whole := d.figures.length - d.places
    d.figures.take whole ++ '.' :: d.figures.drop whole

/-- Digits with at most one point, which may come first or last, and at least one digit. -/
def ofChars? (cs : List Char) : Option Decimal :=
  let whole := cs.takeWhile Char.isDigit
  match cs.dropWhile Char.isDigit with
  | [] => if whole.isEmpty then none else some ⟨Nat.ofDigitChars 10 whole 0, 0⟩
  | point :: fraction =>
    if point = '.' && fraction.all Char.isDigit && !(whole ++ fraction).isEmpty then
      some ⟨Nat.ofDigitChars 10 (whole ++ fraction) 0, fraction.length⟩
    else none

end Decimal
end Trivariate
