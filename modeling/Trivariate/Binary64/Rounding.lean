/-! Magnitudes of binary64 numbers and rounding of exact quotients to them. A magnitude is the
number made by the lower 63 bits of the encoding: an exponent field above a fraction of 52 bits. -/

namespace Trivariate.Binary64

def fractionSize : Nat := 1 <<< 52

def infinite : Nat := 2047 * fractionSize

def exponent (m : Nat) : Nat := m / fractionSize

def significand (m : Nat) : Nat :=
  if exponent m = 0 then m else fractionSize + m % fractionSize

/-- The unit in which magnitudes are measured is `2 ^ -1074`, the least number above zero. -/
@[irreducible] def unitsPerOne : Nat := 1 <<< 1074

def units (m : Nat) : Nat := significand m <<< (exponent m - 1)

/-- The integer nearest to a quotient; an exact half goes to the even neighbour. -/
def nearestNat (num den : Nat) : Nat :=
  let q := num / den
  let r := num % den
  if 2 * r < den || (2 * r == den && q % 2 == 0) then q else q + 1

def scale (num den : Nat) : Nat := (unitsPerOne * num / den).log2 - 52

/-- The magnitude nearest to a quotient. Its fraction and its exponent field are added and not
joined, so that a fraction rounded up to a whole power of two carries into the exponent. -/
def nearest (num den : Nat) : Nat :=
  let s := scale num den
  min (fractionSize * s + nearestNat (unitsPerOne * num) (den <<< s)) infinite

def signBit : Nat := 1 <<< 63

def magnitude (x : Float) : Nat := x.toBits.toNat % signBit

def isNegative (x : Float) : Bool := signBit ≤ x.toBits.toNat

def isFinite (x : Float) : Bool := magnitude x < infinite

def isInfinite (x : Float) : Bool := magnitude x == infinite

def isNaN (x : Float) : Bool := infinite < magnitude x

def ofMagnitude (negative : Bool) (m : Nat) : Float :=
  Float.ofBits (UInt64.ofNat (if negative then signBit + m else m))

end Trivariate.Binary64
