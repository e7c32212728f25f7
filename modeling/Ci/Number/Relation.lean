-- Comparisons by order, of words, of doubles, and of all the words of two
-- intervals at once.
import Ci.Double.Basic
import Ci.Interval.Basic

namespace Ci

/-- A comparison by order. -/
inductive Relation where
  | less
  | lessOrEqual
  | greater
  | greaterOrEqual
deriving DecidableEq, Repr

namespace Relation

/-- All the comparisons. -/
def all : List Relation := [less, lessOrEqual, greater, greaterOrEqual]

/-- The comparison of two words. -/
def holds : Relation → Int64 → Int64 → Bool
  | less, a, b => decide (a < b)
  | lessOrEqual, a, b => decide (a ≤ b)
  | greater, a, b => decide (b < a)
  | greaterOrEqual, a, b => decide (b ≤ a)

/-- The comparison of two doubles. -/
def holdsDouble : Relation → Double → Double → Bool
  | less, x, y => x.lt y
  | lessOrEqual, x, y => x.le y
  | greater, x, y => y.lt x
  | greaterOrEqual, x, y => y.le x

/-- The comparison is true of every pair of words. It is enough to try the pair that is the
worst for it. -/
def always : Relation → Interval → Interval → Bool
  | less, i, j => less.holds i.max j.min
  | lessOrEqual, i, j => lessOrEqual.holds i.max j.min
  | greater, i, j => greater.holds i.min j.max
  | greaterOrEqual, i, j => greaterOrEqual.holds i.min j.max

/-- The comparison with the opposite result. -/
def opposite : Relation → Relation
  | less => greaterOrEqual
  | lessOrEqual => greater
  | greater => lessOrEqual
  | greaterOrEqual => less

/-- The result of the comparison, if it is the same for every pair of words. -/
def decide? (r : Relation) (i j : Interval) : Option Bool :=
  if r.always i j then some true
  else if r.opposite.always i j then some false
  else none

end Relation

namespace Interval

/-- The intervals have no word in common. -/
def disjoint (i j : Interval) : Bool := i.max < j.min || j.max < i.min

end Interval

end Ci
