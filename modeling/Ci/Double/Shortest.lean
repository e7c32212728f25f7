-- The shortest decimal that reads back as a given double. The reals that round
-- to `m * 2 ^ q` form an interval, which holds its ends if `m` is even. The
-- grids of the multiples of a power of ten are tried from coarse to fine. On
-- each grid only the two neighbours of the number matter. The first grid with
-- a neighbour in the interval wins, and of two hits the closer one.
import Ci.Double.Basic

namespace Ci

/-- What to take when two decimals of the same length are equally close. -/
inductive Tie where
  | up
  | toEven
deriving DecidableEq, Repr

/-- The decimal `digits * 10 ^ exponent`. -/
structure Decimal where
  digits : Nat
  exponent : Int
deriving DecidableEq, Repr

namespace Double

/-- The reals that round to a double, all multiplied by one positive scale so that they are
integers. -/
structure Rounds where
  /-- The lower end. -/
  lo : Nat
  /-- The number itself. -/
  value : Nat
  /-- The upper end. -/
  hi : Nat
  /-- The ends belong to the interval. -/
  closed : Bool
  /-- The scale. -/
  scale : Nat
deriving DecidableEq, Repr

/-- The interval of a positive finite double. Below a power of two the neighbours stand twice
as close. -/
def rounds (x : Double) : Rounds :=
  let m := x.significand
  let q := x.exponent
  let up := if 0 ≤ q then 4 <<< q.toNat else 4
  let unit := up / 4
  let atPower := m == hiddenBit && decide (-1074 < q)
  { lo := unit * (4 * m - (if atPower then 1 else 2))
    value := up * m
    hi := unit * (4 * m + 2)
    closed := m % 2 == 0
    scale := if 0 ≤ q then 4 else 4 <<< (-q).toNat }

namespace Rounds

/-- The real `c * g / d`, scaled, lies in the interval. -/
def holds (r : Rounds) (c g d : Nat) : Bool :=
  let spot := c * g
  if r.closed then decide (r.lo * d ≤ spot) && decide (spot ≤ r.hi * d)
  else decide (r.lo * d < spot) && decide (spot < r.hi * d)

/-- The neighbour of the number on the grid of multiples of `g / d`, scaled, that lies in the
interval. Of two, the closer one. -/
def onGrid? (r : Rounds) (tie : Tie) (g d : Nat) : Option Nat :=
  let below := r.value * d / g
  let above := below + 1
  match r.holds below g d, r.holds above g d with
  | false, false => none
  | true, false => some below
  | false, true => some above
  | true, true =>
    let twice := 2 * (r.value * d)
    let middle := (below + above) * g
    if twice < middle then some below
    else if middle < twice then some above
    else match tie with
      | .up => some above
      | .toEven => some (if below % 2 == 0 then below else above)

/-- The grid of the multiples of `10 ^ p`, scaled. -/
def grid (r : Rounds) (p : Int) : Nat × Nat :=
  if 0 ≤ p then (r.scale * Nat.pow 10 p.toNat, 1) else (r.scale, Nat.pow 10 (-p).toNat)

/-- Tries the grids from `10 ^ p` down. The search ends at the latest with the grid of the
last step, whose lower neighbour it then takes. -/
def search (r : Rounds) (tie : Tie) : Nat → Int → Decimal
  | 0, p => ⟨r.value * (r.grid p).2 / (r.grid p).1, p⟩
  | steps + 1, p =>
    match r.onGrid? tie (r.grid p).1 (r.grid p).2 with
    | some c => ⟨c, p⟩
    | none => search r tie steps (p - 1)

end Rounds

/-- A power of ten that is above a positive finite double, and at most a hundred times as
large. The factor is the decimal logarithm of two. -/
def decimalCeiling (x : Double) : Int :=
  (x.exponent + x.significand.log2) * 30103 / 100000 + 2

/-- The shortest decimal that reads back as a finite double, without the sign. Seventeen
digits always suffice. -/
def shortest (x : Double) (tie : Tie) : Decimal :=
  if x.magnitude = 0 then ⟨0, 0⟩ else x.rounds.search tie 20 x.decimalCeiling

end Double

end Ci
