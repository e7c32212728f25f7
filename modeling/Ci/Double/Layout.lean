-- The two ways in which a double is written. Both take the shortest digits that
-- read back. They differ in where positional digits end, in whether a whole
-- number keeps a point, and in how a tie between two digits is settled.
import Ci.Double.Shortest

namespace Ci

/-- How the digits of a double are laid out. -/
structure Layout where
  /-- What to take when two decimals are equally close. -/
  tie : Tie
  /-- Whether a number whose first digit stands at `10 ^ e` is written without an exponent. -/
  positional : Int → Bool
  /-- A whole number ends in `.0`. -/
  keepsPoint : Bool

namespace Layout

/-- The text that a double adds to a string: never an exponent, no point in a whole number,
and of two equally close decimals the upper one. -/
def plain : Layout := ⟨.up, fun _ => true, false⟩

/-- A double in JSON: positional from `0.00001` up to below `10 ^ 16`, with a digit after the
point, and of two equally close decimals the even one. -/
def json : Layout := ⟨.toEven, fun e => decide (-5 ≤ e) && decide (e < 16), true⟩

end Layout

namespace Decimal

/-- A run of zeros. -/
def zeros (n : Nat) : String := String.ofList (List.replicate n '0')

/-- The digits with the point where it belongs. -/
def positional (keepsPoint : Bool) (d : Decimal) : String :=
  let ds := (toString d.digits).toList
  if 0 ≤ d.exponent then
    String.ofList ds ++ zeros d.exponent.toNat ++ (if keepsPoint then ".0" else "")
  else
    let places := (-d.exponent).toNat
    if places < ds.length then
      String.ofList (ds.take (ds.length - places)) ++ "."
        ++ String.ofList (ds.drop (ds.length - places))
    else "0." ++ zeros (places - ds.length) ++ String.ofList ds

/-- The power of ten at which the first digit stands. -/
def leading (d : Decimal) : Int := ((toString d.digits).length : Int) + d.exponent - 1

/-- One digit, the rest after a point, and the signed exponent. -/
def scientific (d : Decimal) : String :=
  let ds := (toString d.digits).toList
  let rest := ds.drop 1
  String.ofList (ds.take 1)
    ++ (if rest.isEmpty then "" else "." ++ String.ofList rest)
    ++ "e" ++ (if d.leading < 0 then "-" else "+") ++ toString d.leading.natAbs

end Decimal

namespace Double

/-- The text of a double in a layout. -/
def text (layout : Layout) (x : Double) : String :=
  if x.isNaN then "NaN"
  else
    let sign := if x.isNegative then "-" else ""
    if x.isInfinite then sign ++ "inf"
    else
      let d := x.shortest layout.tie
      sign ++ if layout.positional d.leading then d.positional layout.keepsPoint
        else d.scientific

end Double

end Ci
