-- Bounds of the bitwise operators. Bit patterns do not follow the order of
-- signed numbers, so an interval is first cut into its two signs. Inside one
-- sign the order of the words is the order of their patterns, and the bounds
-- are found on unsigned words.
import Ci.Interval.Basic

namespace Ci

/-- The unsigned words from `lo` to `hi`, both included. -/
structure BitBounds where
  lo : UInt64
  hi : UInt64
deriving DecidableEq, Repr

namespace BitBounds

/-! ## The bits that can change -/

/-- All bits at and below the highest set bit. -/
def smear (v : UInt64) : UInt64 :=
  let v := v ||| (v >>> 1)
  let v := v ||| (v >>> 2)
  let v := v ||| (v >>> 4)
  let v := v ||| (v >>> 8)
  let v := v ||| (v >>> 16)
  v ||| (v >>> 32)

/-- The bits that are not the same in all the words between the bounds. -/
def variableBits (b : BitBounds) : UInt64 := smear (b.lo ^^^ b.hi)

/-! ## The three operators -/

/-- Bounds of `x &&& y`. The variable bits can all be zero, or all be one; and the result is
never above an operand. -/
def unsignedAnd (l r : BitBounds) : BitBounds :=
  let lv := l.variableBits
  let rv := r.variableBits
  ⟨(l.lo &&& ~~~lv) &&& (r.lo &&& ~~~rv), min (min ((l.hi ||| lv) &&& (r.hi ||| rv)) l.hi) r.hi⟩

/-- Bounds of `x ||| y`. The result is never below an operand. Where both upper bounds have a
bit, one operand can give it up for all the bits below. -/
def unsignedOr (l r : BitBounds) : BitBounds :=
  let lv := l.variableBits
  let rv := r.variableBits
  ⟨max (max ((l.lo &&& ~~~lv) ||| (r.lo &&& ~~~rv)) l.lo) r.lo,
   l.hi ||| r.hi ||| smear (l.hi &&& r.hi)⟩

/-- Bounds of `x ^^^ y`. A bit that can change in one operand can be anything in the result. -/
def unsignedXor (l r : BitBounds) : BitBounds :=
  let v := l.variableBits ||| r.variableBits
  ⟨(l.lo ^^^ r.lo) &&& ~~~v, (l.hi ^^^ r.hi) ||| v⟩

/-! ## Signed and unsigned -/

/-- The patterns of an interval of one sign. -/
def ofInterval (i : Interval) : BitBounds := ⟨i.min.toUInt64, i.max.toUInt64⟩

/-- The signed words with these patterns. -/
def toInterval (b : BitBounds) : Interval := ⟨b.lo.toInt64, b.hi.toInt64⟩

end BitBounds

namespace Interval

/-- The bounds of a bitwise operator on every pair of parts of one sign. -/
def bitwiseParts (op : BitBounds → BitBounds → BitBounds) (l r : Interval) : List Interval :=
  l.signs.flatMap fun x =>
    r.signs.map fun y => (op (BitBounds.ofInterval x) (BitBounds.ofInterval y)).toInterval

/-- The union of a list of intervals. Without intervals it is everything. -/
def unionAll : List Interval → Interval
  | [] => full
  | i :: rest => rest.foldl union i

/-- Bounds of a bitwise operator whose bounds on unsigned words are `op`. -/
def bitwise (op : BitBounds → BitBounds → BitBounds) (l r : Interval) : Interval :=
  unionAll (bitwiseParts op l r)

end Interval

end Ci
