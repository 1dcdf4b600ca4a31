import Trivariate.Binary64.Rounding

/-! Hyperbolic functions and angles, rounded once. A value is the sum of a series of nonnegative
terms, kept in steps far below the unit, and the whole sum goes to the nearest number. A program that
calls its platform's `sinh`, `cosh`, `atan` and `atan2`, whose precision is not specified, may get
results that differ from these in the last place. -/

namespace Trivariate.Binary64

/-- The steps of a sum in one; `2 ^ 128` of them make a unit. -/
@[irreducible] def stepsPerOne : Nat := 1 <<< 1202

def series (next : Nat → Nat → Nat) : (limit n term : Nat) → Nat
  | 0, _, term => term
  | limit + 1, n, term =>
    if term = 0 then 0 else term + series next limit (n + 1) (next n term)

/-- The terms `x ^ k / k!` whose degrees are `first`, `first + 2` and so on. -/
def powerSeries (first u start : Nat) : Nat :=
  series (fun n term =>
    let k := first + 2 * n
    term * (u * u) / (unitsPerOne * unitsPerOne * ((k + 1) * (k + 2)))) 2000 0 start

/-- Both hyperbolic functions leave the finite numbers before 711. -/
def overflows (u : Nat) : Bool := 711 * unitsPerOne ≤ u

def sinhMagnitude (m : Nat) : Nat :=
  let u := units m
  if overflows u then infinite
  else nearest (powerSeries 1 u (stepsPerOne * u / unitsPerOne)) stepsPerOne

def coshMagnitude (m : Nat) : Nat :=
  let u := units m
  if overflows u then infinite else nearest (powerSeries 0 u stepsPerOne) stepsPerOne

/-- The angle of slope `rise / run`, at most an eighth of a turn, by the series in
`rise² / (rise² + run²)`, whose terms at least halve. -/
def lowAngle (rise run : Nat) : Nat :=
  let square := rise * rise + run * run
  series (fun n term => term * (2 * n + 2) * (rise * rise) / ((2 * n + 3) * square)) 1300 0
    (stepsPerOne * (rise * run) / square)

def quarterTurn : Nat := 2 * lowAngle 1 1

def angle (rise run : Nat) : Nat :=
  if rise ≤ run then lowAngle rise run else quarterTurn - lowAngle run rise

/-- The sides of the triangle whose angle is sought: beside an infinite side a finite one vanishes. -/
def sides (y x : Nat) : Nat × Nat :=
  if y = infinite ∨ x = infinite then
    (if y = infinite then 1 else 0, if x = infinite then 1 else 0)
  else (units y, units x)

def angleMagnitude (y : Nat) (leftward : Bool) (x : Nat) : Nat :=
  let (rise, run) := sides y x
  let acute := angle rise run
  nearest (if leftward then 2 * quarterTurn - acute else acute) stepsPerOne

def sinh (x : Float) : Float :=
  if isNaN x then x else ofMagnitude (isNegative x) (sinhMagnitude (magnitude x))

def cosh (x : Float) : Float :=
  if isNaN x then x else ofMagnitude false (coshMagnitude (magnitude x))

def atan2 (y x : Float) : Float :=
  if isNaN y || isNaN x then 0 / 0
  else ofMagnitude (isNegative y) (angleMagnitude (magnitude y) (isNegative x) (magnitude x))

def atan (x : Float) : Float := atan2 x 1

end Trivariate.Binary64
