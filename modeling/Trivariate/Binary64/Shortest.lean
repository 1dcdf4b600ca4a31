import Trivariate.Binary64.Decimal

/-! The text of a binary64 number: the decimal of fewest digits that reads back to it, and of those
the nearest. It is searched on ever finer decimal grids, where only the two points that enclose
the number can be answers. -/

namespace Trivariate

namespace Decimal

def ofMagnitude (m : Nat) : Decimal :=
  let raised := Binary64.exponent m - 1
  ⟨Binary64.significand m <<< (raised - 1074) * Nat.pow 5 (1074 - raised), 1074 - raised⟩

/-- The point `n` of the grid whose step is `10 ^ t` units of the last place of `d`. -/
def onGrid (d : Decimal) (t n : Nat) : Decimal := ⟨n * Nat.pow 10 (t - d.places), d.places - t⟩

/-- The answer on one grid: a tie goes to the upper point. -/
def hit? (m : Nat) (d : Decimal) (t : Nat) : Option Decimal :=
  let step := Nat.pow 10 t
  let below := d.onGrid t (d.digits / step)
  let above := d.onGrid t (d.digits / step + 1)
  if below.magnitude = m then
    if above.magnitude = m ∧ step ≤ 2 * (d.digits % step) then some above else some below
  else if above.magnitude = m then some above
  else none

def ceilingPlace (n : Nat) : Nat := n.log2 * 30103 / 100000 + 2

/-- The finest grid answers with the number itself. -/
def shortest (m : Nat) : Decimal :=
  if m = 0 then ⟨0, 0⟩
  else
    let d := ofMagnitude m
    ((List.range' 1 (ceilingPlace d.digits)).reverse.findSome? (hit? m d)).getD d

theorem magnitude_of_hit {m t : Nat} {d p : Decimal} (h : hit? m d t = some p) :
    p.magnitude = m := by
  unfold hit? at h
  grind

end Decimal

namespace Binary64

def text (x : Float) : String :=
  if isNaN x then "NaN"
  else
    let written := if isInfinite x then "inf".toList else (Decimal.shortest (magnitude x)).chars
    String.ofList (if isNegative x then '-' :: written else written)

def ofPlainText? (s : String) : Option Float :=
  match s.toList with
  | '-' :: cs => (Decimal.ofChars? cs).map fun d => ofMagnitude true d.magnitude
  | cs => (Decimal.ofChars? cs).map fun d => ofMagnitude false d.magnitude

def ofText? (s : String) : Option Float :=
  if s = "NaN" then some (0 / 0)
  else if s = "inf" then some (1 / 0)
  else if s = "-inf" then some (-1 / 0)
  else ofPlainText? s

end Binary64
end Trivariate
