-- Double-precision numbers, kept as their bit patterns: one bit of sign, eleven
-- of exponent, fifty-two of fraction. Two patterns are the same value of the
-- type exactly when all their bits are, so a literal is never changed by
-- carrying it around. Comparison as numbers is a separate matter.

namespace Ci

/-- A double-precision number by its bit pattern. -/
structure Double where
  bits : UInt64
deriving DecidableEq, Repr

namespace Double

/-! ## The parts of a pattern -/

/-- The weight of the sign bit, which is bit 63. -/
def signWeight : Nat := 0x8000000000000000

/-- The weight of the bit that stands before the 52 bits of a significand and is not written. -/
def hiddenBit : Nat := 0x10000000000000

/-- The pattern without its sign, as a number. Among the numbers that are not NaN its order
is the order of the magnitudes. -/
def magnitude (x : Double) : Nat := x.bits.toNat % signWeight

/-- The sign bit is set. -/
def isNegative (x : Double) : Bool := signWeight ≤ x.bits.toNat

/-- The magnitude of the infinities. The patterns above it are NaN. -/
def infinityMagnitude : Nat := 2047 * hiddenBit

/-- Not a number. -/
def isNaN (x : Double) : Bool := infinityMagnitude < x.magnitude

/-- One of the two infinities. -/
def isInfinite (x : Double) : Bool := x.magnitude == infinityMagnitude

/-- The double with a sign and a magnitude. A magnitude too large is that of infinity. -/
def ofMagnitude (negative : Bool) (m : Nat) : Double :=
  ⟨UInt64.ofNat ((if negative then signWeight else 0) + min m infinityMagnitude)⟩

/-- The integer `m` of a finite number `± m * 2 ^ q`. -/
def significand (x : Double) : Nat :=
  if x.magnitude < hiddenBit then x.magnitude else x.magnitude % hiddenBit + hiddenBit

/-- The exponent `q` of a finite number `± m * 2 ^ q`. -/
def exponent (x : Double) : Int :=
  if x.magnitude < hiddenBit then -1074 else (x.magnitude / hiddenBit : Nat) - 1075

/-! ## Sign and order -/

/-- The number with the other sign. -/
def neg (x : Double) : Double := ⟨x.bits ^^^ 0x8000000000000000⟩

/-- The place of a number in the order of numbers. Both zeros have the same place. -/
def rank (x : Double) : Int := if x.isNegative then -(x.magnitude : Int) else x.magnitude

/-- Both are numbers. -/
def comparable (x y : Double) : Bool := !x.isNaN && !y.isNaN

/-- Equal as numbers. NaN equals nothing, and the two zeros are equal. -/
def numEq (x y : Double) : Bool := comparable x y && x.rank == y.rank

/-- Less as numbers. -/
def lt (x y : Double) : Bool := comparable x y && decide (x.rank < y.rank)

/-- Less or equal as numbers. -/
def le (x y : Double) : Bool := comparable x y && decide (x.rank ≤ y.rank)

end Double

end Ci
