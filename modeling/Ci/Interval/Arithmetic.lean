-- Interval arithmetic: bounds for the result of every integer operator. Bounds
-- saturate, so they stay bounds where the exact result leaves the domain.
import Ci.Interval.BitBounds
import Ci.Number.IntOp

namespace Ci

/-- A division whose divisor can only be zero. -/
inductive ZeroDivisor where
  | division
  | modulo
deriving DecidableEq, Repr

namespace Interval

/-! ## One operand -/

/-- Bounds of the opposite number. -/
def neg (i : Interval) : Interval := ⟨Saturating.neg i.max, Saturating.neg i.min⟩

/-- Bounds of the bitwise complement. -/
def complement (i : Interval) : Interval := ⟨~~~i.max, ~~~i.min⟩

/-- The interval moved by a distance. -/
def offset (i : Interval) (d : Int64) : Interval :=
  ⟨Saturating.add i.min d, Saturating.add i.max d⟩

/-! ## Sums and products -/

/-- Bounds of the sum. -/
def add (l r : Interval) : Interval := ⟨Saturating.add l.min r.min, Saturating.add l.max r.max⟩

/-- Bounds of the difference. -/
def sub (l r : Interval) : Interval := ⟨Saturating.sub l.min r.max, Saturating.sub l.max r.min⟩

/-- Bounds of the product: the extreme products are at the corners. -/
def mul (l r : Interval) : Interval :=
  hull [Saturating.mul l.min r.min, Saturating.mul l.min r.max,
    Saturating.mul l.max r.min, Saturating.mul l.max r.max]

/-! ## Quotients and remainders -/

/-- The divisors above zero, if there are any. -/
def positive (i : Interval) : Option Interval :=
  i.nonNegative.bind fun p => if 0 < p.max then some ⟨Max.max p.min 1, p.max⟩ else none

/-- The divisors other than zero, in parts of one sign. -/
def divisors (i : Interval) : List Interval := i.negative.toList ++ i.positive.toList

/-- The quotients at the corners of a dividend and of divisors of one sign. -/
def quotientCorners (l d : Interval) : List Int64 :=
  [Saturating.div l.min d.min, Saturating.div l.min d.max,
    Saturating.div l.max d.min, Saturating.div l.max d.max]

/-- Bounds of the quotient. Zero is never a divisor: the rest of the divisors give the
corners. -/
def div (l r : Interval) : Except ZeroDivisor Interval :=
  match r.divisors.flatMap l.quotientCorners with
  | [] => .error .division
  | corners => .ok (hull corners)

/-- The largest distance from zero that a remainder by one of these divisors can have. It is
negative if the only divisor is zero. -/
def remainderBound (r : Interval) : Int64 := ~~~(Min.min r.min (Saturating.neg r.max))

/-- Bounds of the remainder, which has the sign of the dividend. -/
def rem (l r : Interval) : Except ZeroDivisor Interval :=
  let bound := r.remainderBound
  if bound < 0 then .error .modulo
  else .ok ⟨if 0 ≤ l.min then 0 else Max.max l.min (-bound),
    if l.max < 0 then 0 else Min.min l.max bound⟩

/-! ## Shifts -/

/-- Every word of the interval is a shift amount that names a bit. -/
def areBits (i : Interval) : Bool := 0 ≤ i.min && i.max ≤ 63

/-- Bounds of the left shift. -/
def shiftLeft (l r : Interval) : Interval :=
  if r.areBits then
    ⟨Saturating.shiftLeft l.min (if l.min < 0 then r.max else r.min),
     Saturating.shiftLeft l.max (if l.max < 0 then r.min else r.max)⟩
  else full

/-- Bounds of the right shift. If an amount may name no bit, all the amounts are possible. -/
def shiftRight (l r : Interval) : Interval :=
  let r := if r.areBits then r else ⟨0, 63⟩
  ⟨Saturating.shiftRight l.min (if l.min < 0 then r.min else r.max),
   Saturating.shiftRight l.max (if l.max < 0 then r.max else r.min)⟩

/-! ## All operators -/

/-- Bounds of an operator, found from the bounds of the operands only. -/
def bound : IntOp → Interval → Interval → Except ZeroDivisor Interval
  | .add, l, r => .ok (l.add r)
  | .sub, l, r => .ok (l.sub r)
  | .mul, l, r => .ok (l.mul r)
  | .div, l, r => l.div r
  | .mod, l, r => l.rem r
  | .and, l, r => .ok (bitwise BitBounds.unsignedAnd l r)
  | .or, l, r => .ok (bitwise BitBounds.unsignedOr l r)
  | .xor, l, r => .ok (bitwise BitBounds.unsignedXor l r)
  | .shiftLeft, l, r => .ok (l.shiftLeft r)
  | .shiftRight, l, r => .ok (l.shiftRight r)

/-- The exact value of an operator on two collapsed intervals, if it has one. -/
def exactPoint (op : IntOp) (l r : Interval) : Option Int64 := do
  op.eval (← l.asPoint) (← r.asPoint)

/-- Bounds of an operator. Collapsed operands give the exact value where there is one. -/
def apply (op : IntOp) (l r : Interval) : Except ZeroDivisor Interval :=
  match exactPoint op l r with
  | some v => .ok (point v)
  | none => bound op l r

end Interval

end Ci
