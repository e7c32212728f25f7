-- The ten integer operators of the language and the exact value of each one.
-- An operator has no value where the exact result leaves the 64-bit domain,
-- where the divisor is zero, and where the shift amount names no bit.
import Ci.Number.Saturating

namespace Ci

/-- An integer operator. -/
inductive IntOp where
  | add
  | sub
  | mul
  | div
  | mod
  | and
  | or
  | xor
  | shiftLeft
  | shiftRight
deriving DecidableEq, Repr

namespace IntOp

/-- All the operators. -/
def all : List IntOp := [add, sub, mul, div, mod, and, or, xor, shiftLeft, shiftRight]

/-- A number as a word, if it lies in the domain of words. -/
def exact (n : Int) : Option Int64 :=
  if Int64.minValue.toInt ≤ n ∧ n ≤ Int64.maxValue.toInt then some (Int64.ofInt n) else none

/-- The quotient cut toward zero, if the divisor is not zero and the quotient is a word. -/
def quotient (a b : Int64) : Option Int64 :=
  if b = 0 then none else exact (a.toInt.tdiv b.toInt)

/-- The exact value of the operator on two words. A remainder exists where the quotient
does. A left shift must lose no bit. -/
def eval : IntOp → Int64 → Int64 → Option Int64
  | add, a, b => exact (a.toInt + b.toInt)
  | sub, a, b => exact (a.toInt - b.toInt)
  | mul, a, b => exact (a.toInt * b.toInt)
  | div, a, b => quotient a b
  | mod, a, b => (quotient a b).map fun _ => Int64.ofInt (a.toInt.tmod b.toInt)
  | and, a, b => some (a &&& b)
  | or, a, b => some (a ||| b)
  | xor, a, b => some (a ^^^ b)
  | shiftLeft, a, b =>
    if Saturating.isBit b && (a <<< b) >>> b == a then some (a <<< b) else none
  | shiftRight, a, b => if Saturating.isBit b then some (a >>> b) else none

end IntOp

end Ci
