-- The types of the language. An integer is known by an interval or by its
-- width. Strings, arrays and classes come as storage, which holds the thing, and
-- as a pointer to it.
import Ci.Arena
import Ci.Interval.Basic

namespace Ci

/-- The width of an integer. -/
inductive IntWidth where
  | int32
  | int64
deriving DecidableEq, Repr

/-- The width of a floating-point number. -/
inductive FloatWidth where
  | single
  | double
deriving DecidableEq, Repr

/-- A type. -/
inductive Ty where
  | void
  | null
  | bool
  | char
  | integer (width : IntWidth)
  | floating (width : FloatWidth)
  | range (interval : Interval)
  | stringPointer
  | stringStorage
  | arrayPointer (element : Ty) (writable : Bool)
  | arrayStorage (element : Ty) (length : UInt32)
  | classPointer (target : ClassId) (writable : Bool)
  | classStorage (target : ClassId)
  | enumeration (target : EnumId)
deriving DecidableEq, Repr

namespace Ty

/-! ## Names for common types -/

/-- Integers of 32 bits. -/
def int : Ty := .integer .int32

/-- Integers of 64 bits. -/
def long : Ty := .integer .int64

/-- Floating-point numbers of single precision. -/
def float : Ty := .floating .single

/-- Floating-point numbers of double precision. -/
def double : Ty := .floating .double

/-- Lengths of strings, and other counts of 32 bits. -/
def length : Ty := .range ⟨0, 2147483647⟩

/-! ## Families of types -/

/-- The interval of a range. -/
def asRange : Ty → Option Interval
  | .range i => some i
  | _ => none

/-- Integers, among them characters. -/
def isInteger : Ty → Bool
  | .integer _ => true
  | .range _ => true
  | .char => true
  | _ => false

/-- Floating-point numbers. -/
def isFloating : Ty → Bool
  | .floating _ => true
  | _ => false

/-- Numbers. -/
def isNumeric (t : Ty) : Bool := t.isInteger || t.isFloating

/-- Integers that do not fit in 32 bits. -/
def isLong : Ty → Bool
  | .integer .int64 => true
  | .range i => !i.fitsInt32
  | _ => false

/-- Strings. -/
def isString : Ty → Bool
  | .stringPointer => true
  | .stringStorage => true
  | _ => false

/-- Arrays. -/
def isArray : Ty → Bool
  | .arrayPointer _ _ => true
  | .arrayStorage _ _ => true
  | _ => false

/-- Types that have null among their values. -/
def isNullable : Ty → Bool
  | .stringPointer => true
  | .arrayPointer _ _ => true
  | .classPointer _ _ => true
  | _ => false

/-- The type of the items of an array. -/
def element : Ty → Option Ty
  | .arrayPointer t _ => some t
  | .arrayStorage t _ => some t
  | _ => none

/-- The class whose members a value of the type has. -/
def memberClass : Ty → Option ClassId
  | .classPointer c _ => some c
  | .classStorage c => some c
  | _ => none

/-! ## Results of operators -/

/-- The type of an operator on integers that are not both ranges. -/
def integerResult (l r : Ty) : Ty := if l.isLong || r.isLong then long else int

/-- The type of an operator on numbers that are not both ranges. -/
def numericResult (l r : Ty) : Ty :=
  if l.isFloating || r.isFloating then double else integerResult l r

/-! ## The common type of two values -/

/-- The type of a place that takes values of both types. Integers of different kinds do not
mix, but each of them mixes with floating-point numbers. -/
def unify (l r : Ty) : Option Ty :=
  if l = r then some l
  else match l, r with
    | .range a, .range b => some (.range (a.union b))
    | l, r =>
      if l.isNumeric && r.isNumeric && (l.isFloating || r.isFloating) then
        some (if l = double ∨ r = double then double else float)
      else if l = null ∧ r.isNullable then some r
      else if r = null ∧ l.isNullable then some l
      else none

/-! ## Intervals inside a type -/

/-- Every interval inside the type holds a word. -/
def wellRanged : Ty → Bool
  | .range i => decide i.Valid
  | .arrayPointer t _ => t.wellRanged
  | .arrayStorage t _ => t.wellRanged
  | _ => true

end Ty

end Ci
