-- Numbers in JSON text. An integer stays an integer as long as it fits in 64
-- bits. Any other number becomes a double in two steps: the digits that fit in
-- an unsigned 64-bit word are rounded to a double, and the result is multiplied
-- or divided by one power of ten. So the last digit of a long decimal may
-- differ from that of the nearest double. A number beyond all doubles is
-- unreadable.
import Ci.Json.Value

namespace Ci.Json

/-- A decimal digit. -/
def isDigit (c : Char) : Bool := '0' ≤ c && c ≤ '9'

/-- The value of a decimal digit. -/
def digit (c : Char) : Nat := c.toNat - '0'.toNat

/-! ## Digits -/

/-- The largest significand. -/
def maxSignificand : Nat := 0xffffffffffffffff

/-- Adds the digits at the head of a text to a significand, as long as it fits in 64 bits.
Gives the significand, the number of digits added, and the text from the first character that
was not added. -/
def significand (acc count : Nat) : List Char → Nat × Nat × List Char
  | [] => (acc, count, [])
  | c :: rest =>
    if isDigit c && decide (acc * 10 + digit c ≤ maxSignificand) then
      significand (acc * 10 + digit c) (count + 1) rest
    else (acc, count, c :: rest)

/-! ## From digits to a double -/

/-- The double nearest to a power of ten. -/
def powerOfTen (e : Nat) : Double := Double.ofFraction false (Nat.pow 10 e) 1

/-- The largest power of ten that is a double. -/
def maxPower : Nat := 308

/-- A double divided by a power of ten, in steps of at most the largest power. A significand
is zero after two full steps. -/
def shrink : Nat → Double → Nat → Double
  | 0, x, _ => x
  | steps + 1, x, e =>
    if e ≤ maxPower then x.div (powerOfTen e)
    else if x.magnitude = 0 then x
    else shrink steps (x.div (powerOfTen maxPower)) (e - maxPower)

/-- The double of a significand and a power of ten, unless it is too large. -/
def scale? (sig : Nat) (e : Int) : Option Double :=
  let x := Double.ofInt sig
  if e < 0 then some (shrink 3 x (-e).toNat)
  else if e ≤ maxPower then
    let y := x.mul (powerOfTen e.toNat)
    if y.isInfinite then none else some y
  else if x.magnitude = 0 then some x
  else none

/-- The number with a sign, a significand and a power of ten. -/
def scaled (negative : Bool) (sig : Nat) (e : Int) : Json :=
  match scale? sig e with
  | some x => .double (if negative then x.neg else x)
  | none => .unreadable

/-! ## The exponent -/

/-- The largest exponent that is read exactly. -/
def maxExponent : Nat := 2147483647

/-- The sign of an exponent and the text after it. -/
def exponentSign : List Char → Bool × List Char
  | '+' :: rest => (false, rest)
  | '-' :: rest => (true, rest)
  | rest => (false, rest)

/-- The rest of a number after its digits: an exponent, or nothing. An exponent beyond all
bounds makes a number too large or zero. -/
def withExponent? (negative : Bool) (sig : Nat) (e : Int) :
    List Char → Option (Json × List Char)
  | c :: rest =>
    if c == 'e' || c == 'E' then
      let (down, rest) := exponentSign rest
      let digits := rest.takeWhile isDigit
      let rest := rest.dropWhile isDigit
      if digits.isEmpty then none
      else
        let n := digits.foldl (fun n d => n * 10 + digit d) 0
        if n ≤ maxExponent then
          some (scaled negative sig (if down then e - n else e + n), rest)
        else if sig = 0 ∨ down then some (.double (Double.ofMagnitude negative 0), rest)
        else some (.unreadable, rest)
    else some (scaled negative sig e, c :: rest)
  | [] => some (scaled negative sig e, [])

/-! ## The whole number -/

/-- The digits after the point. Those that no longer fit are skipped. -/
def fraction? (negative : Bool) (sig : Nat) (e : Int) (cs : List Char) :
    Option (Json × List Char) :=
  if (cs.takeWhile isDigit).isEmpty then none
  else
    let (sig, count, rest) := significand sig 0 cs
    withExponent? negative sig (e - count) (rest.dropWhile isDigit)

/-- A number without point and exponent. Zero with a minus sign, and an integer outside the
signed and unsigned words of 64 bits, is a double. -/
def whole (negative : Bool) (sig : Nat) : Json :=
  if !negative then .integer sig
  else if 0 < sig ∧ sig ≤ 0x8000000000000000 then .integer (-(sig : Int))
  else .double (Double.ofInt sig).neg

/-- What follows the digits before the point. -/
def afterWhole? (negative : Bool) (sig : Nat) (cs : List Char) : Option (Json × List Char) :=
  match cs with
  | '.' :: rest => fraction? negative sig 0 rest
  | c :: _ =>
    if c == 'e' || c == 'E' then withExponent? negative sig 0 cs
    else if isDigit c then
      let skipped := (cs.takeWhile isDigit).length
      match cs.dropWhile isDigit with
      | '.' :: rest => fraction? negative sig skipped rest
      | rest => withExponent? negative sig skipped rest
    else some (whole negative sig, cs)
  | [] => some (whole negative sig, [])

/-- A number without its sign, and the text after it. A leading zero stands alone. -/
def unsigned? (negative : Bool) : List Char → Option (Json × List Char)
  | '0' :: c :: rest =>
    if isDigit c then none else afterWhole? negative 0 (c :: rest)
  | '0' :: [] => some (whole negative 0, [])
  | c :: rest =>
    if isDigit c then
      let (sig, _, rest) := significand (digit c) 0 rest
      afterWhole? negative sig rest
    else none
  | [] => none

/-- A number at the head of a text, and the text after it. -/
def number? : List Char → Option (Json × List Char)
  | '-' :: rest => unsigned? true rest
  | cs => unsigned? false cs

end Ci.Json
