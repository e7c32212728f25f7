-- Arithmetic on signed 64-bit words that stops at the ends of the domain
-- instead of wrapping around. The bounds of an interval are computed with it,
-- so a bound that overflows still bounds.

namespace Ci.Saturating

/-! ## The four operations and negation -/

/-- The opposite number, clamped: the opposite of the least word is the greatest word. -/
def neg (a : Int64) : Int64 := Int64.ofIntClamp (-a.toInt)

/-- The sum, clamped. -/
def add (a b : Int64) : Int64 := Int64.ofIntClamp (a.toInt + b.toInt)

/-- The difference, clamped. -/
def sub (a b : Int64) : Int64 := Int64.ofIntClamp (a.toInt - b.toInt)

/-- The product, clamped. -/
def mul (a b : Int64) : Int64 := Int64.ofIntClamp (a.toInt * b.toInt)

/-- The quotient cut toward zero, clamped. The divisor is not zero where this is used. -/
def div (a b : Int64) : Int64 := Int64.ofIntClamp (a.toInt.tdiv b.toInt)

/-! ## Shifts -/

/-- A shift amount that names one of the 64 bits. -/
def isBit (b : Int64) : Bool := 0 ≤ b && b ≤ 63

/-- Shift to the left, clamped. An amount that names no bit sends every word but zero to
the end of its sign. -/
def shiftLeft (a b : Int64) : Int64 :=
  if a = 0 ∨ b = 0 then a
  else if !isBit b then if a < 0 then Int64.minValue else Int64.maxValue
  else if a > Int64.maxValue >>> b then Int64.maxValue
  else if a < Int64.minValue >>> b then Int64.minValue
  else a <<< b

/-- Shift to the right, keeping the sign. An amount that names no bit shifts everything out. -/
def shiftRight (a b : Int64) : Int64 :=
  a >>> (if 0 ≤ b ∧ b < 63 then b else 63)

end Ci.Saturating
