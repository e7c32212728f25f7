-- Closed intervals of 64-bit words. An integer expression carries the interval
-- of the values that it can have. An interval is plain data: it holds a number
-- only if its lower bound is not above its upper bound.
import Ci.Number.Saturating

namespace Ci

/-- The words from `min` to `max`, both included. -/
structure Interval where
  min : Int64
  max : Int64
deriving DecidableEq, Repr

namespace Interval

/-! ## Views -/

/-- The word lies in the interval. -/
def Mem (i : Interval) (a : Int64) : Prop := i.min ≤ a ∧ a ≤ i.max

/-- The interval holds at least one word. -/
def Valid (i : Interval) : Prop := i.min ≤ i.max

instance (i : Interval) (a : Int64) : Decidable (i.Mem a) :=
  inferInstanceAs (Decidable (_ ∧ _))

instance (i : Interval) : Decidable i.Valid :=
  inferInstanceAs (Decidable (i.min ≤ i.max))

/-! ## Making intervals -/

/-- Every word. -/
def full : Interval := ⟨Int64.minValue, Int64.maxValue⟩

/-- The interval of one word. -/
def point (a : Int64) : Interval := ⟨a, a⟩

/-- The least interval that holds all the words of a list that starts with `a`. -/
def hullFrom (a : Int64) (rest : List Int64) : Interval :=
  ⟨rest.foldl (fun x y => if y < x then y else x) a,
   rest.foldl (fun x y => if x < y then y else x) a⟩

/-- The least interval that holds all the words. Without words it is the point zero. -/
def hull : List Int64 → Interval
  | [] => point 0
  | a :: rest => hullFrom a rest

/-- The least interval that holds both. -/
def union (i j : Interval) : Interval := ⟨Min.min i.min j.min, Max.max i.max j.max⟩

/-! ## Questions -/

/-- The only word of a collapsed interval. -/
def asPoint (i : Interval) : Option Int64 := if i.min = i.max then some i.min else none

/-- Every word of `j` is one of `i`. -/
def contains (i j : Interval) : Bool := i.min ≤ j.min && j.max ≤ i.max

/-- The word is one of the interval. -/
def containsValue (i : Interval) (a : Int64) : Bool := i.min ≤ a && a ≤ i.max

/-- Every word fits in 32 signed bits. -/
def fitsInt32 (i : Interval) : Bool := -2147483648 ≤ i.min && i.max ≤ 2147483647

/-! ## The two signs -/

/-- The words below zero, if there are any. -/
def negative (i : Interval) : Option Interval :=
  if i.min < 0 then some ⟨i.min, Min.min i.max (-1)⟩ else none

/-- The words from zero up, if there are any. -/
def nonNegative (i : Interval) : Option Interval :=
  if 0 ≤ i.max then some ⟨Max.max i.min 0, i.max⟩ else none

/-- The parts of one sign, the negative one first. -/
def signs (i : Interval) : List Interval := i.negative.toList ++ i.nonNegative.toList

/-! ## Text -/

/-- The interval as it stands in messages, such as `0..255`. -/
def text (i : Interval) : String := toString i.min.toInt ++ ".." ++ toString i.max.toInt

end Interval

end Ci
