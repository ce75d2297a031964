/-!
# Rounding to binary floating point

`Binary64.nearestBits num den` is the bit pattern of the 64-bit binary floating-point number that
lies nearest to the fraction `num / den`; a fraction half-way between two such numbers goes to the
one with the even significand. The arithmetic is exact: the fraction is scaled by a power of two to
a quotient of 53 bits, or of fewer bits below the smallest normal number, and that quotient is
rounded once (`roundDiv`).
-/

namespace PipeQuery.Binary64

/-- The quotient `num / den` rounded to the nearest integer, a half to the even neighbour. -/
def roundDiv (num den : Nat) : Nat :=
  let quotient := num / den
  let remainder := num % den
  if 2 * remainder < den then quotient
  else if den < 2 * remainder then quotient + 1
  else quotient + quotient % 2

/-- The fraction `num / den` divided by `2 ^ exponent`, as numerator and denominator. -/
def scale (num den : Nat) (exponent : Int) : Nat × Nat :=
  if 0 ≤ exponent then (num, den * Nat.pow 2 exponent.toNat)
  else (num * Nat.pow 2 (-exponent).toNat, den)

/-- The number of values of a significand behind its leading bit. -/
def significands : Nat := 0x10000000000000

/-- The exponent of the last bit of a number with the least exponent. -/
def minExponent : Int := -1074

/-- The bits of positive infinity. -/
def infinity : Nat := 0x7ff0000000000000

/-- The bits of a value that is not a number. -/
def notANumber : Nat := 0x7ff8000000000000

/-- The weight of the sign bit. -/
def signBit : Nat := 0x8000000000000000

/-- The exponent of the last bit of the number nearest to the fraction `num / den`. -/
def lastBitExponent (num den : Nat) : Int :=
  -- scaled by this exponent the fraction lies between `2 ^ 51` and `2 ^ 53`
  let guess : Int := (num.log2 : Int) - den.log2 - 52
  let scaled := scale num den guess
  max minExponent (if scaled.1 / scaled.2 < significands then guess - 1 else guess)

/-- The bits of the floating-point number nearest to the fraction `num / den`; a fraction beyond
the largest number goes to infinity. -/
def nearestBits (num den : Nat) : Nat :=
  if num = 0 then 0
  else
    let exponent := lastBitExponent num den
    let scaled := scale num den exponent
    -- a quotient of 53 bits carries the lowest bit of the biased exponent itself
    min infinity ((exponent - minExponent).toNat * significands + roundDiv scaled.1 scaled.2)

example : nearestBits 3 2 = 0x3ff8000000000000 := by decide

example : nearestBits 9007199254740993 1 = nearestBits 9007199254740992 1 := by decide

end PipeQuery.Binary64
