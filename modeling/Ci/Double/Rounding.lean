-- The double nearest to a fraction. Ties go to the even significand. With it
-- come the double of an integer, and products and quotients of doubles.
import Ci.Double.Basic

namespace Ci

/-- The integer nearest to a fraction, the even one on a tie. -/
def roundHalfEven (num den : Nat) : Nat :=
  let quotient := num / den
  let twice := 2 * (num % den)
  if twice < den then quotient
  else if den < twice then quotient + 1
  else quotient + quotient % 2

namespace Double

/-- The greatest `e` with `2 ^ e ≤ num / den`, for a fraction above zero. -/
def binaryExponent (num den : Nat) : Int :=
  let e : Int := (num.log2 : Int) - den.log2
  let reaches := if 0 ≤ e then den <<< e.toNat ≤ num else den ≤ num <<< (-e).toNat
  if reaches then e else e - 1

/-- The double nearest to `± num / den`, infinite if the fraction is too large. The
significand gets 53 bits, or fewer where the exponent stops at its least value. -/
def ofFraction (negative : Bool) (num den : Nat) : Double :=
  if num = 0 then ofMagnitude negative 0
  else
    let q := max (binaryExponent num den - 52) (-1074)
    let m :=
      if 0 ≤ q then roundHalfEven num (den <<< q.toNat)
      else roundHalfEven (num <<< (-q).toNat) den
    ofMagnitude negative ((q + 1074).toNat <<< 52 + m)

/-- The double nearest to an integer. -/
def ofInt (n : Int) : Double := ofFraction (n < 0) n.natAbs 1

/-- A finite double without its sign, as numerator and denominator. -/
def fraction (x : Double) : Nat × Nat :=
  if 0 ≤ x.exponent then (x.significand <<< x.exponent.toNat, 1)
  else (x.significand, 1 <<< (-x.exponent).toNat)

/-- The double nearest to the product of two finite doubles. -/
def mul (x y : Double) : Double :=
  ofFraction (x.isNegative != y.isNegative) (x.fraction.1 * y.fraction.1)
    (x.fraction.2 * y.fraction.2)

/-- The double nearest to the quotient of two finite doubles, the second of which is not zero. -/
def div (x y : Double) : Double :=
  ofFraction (x.isNegative != y.isNegative) (x.fraction.1 * y.fraction.2)
    (x.fraction.2 * y.fraction.1)

end Double

end Ci
