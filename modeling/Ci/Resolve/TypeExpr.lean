-- Types, which are written as expressions. A name is a built-in type, a class or
-- an enumeration. An exclamation mark after a class gives a pointer through which
-- one may write, and parentheses give storage. A comparison gives a range. Brackets
-- give arrays, and the rightmost brackets are the innermost array.
import Ci.Resolve.Pass

namespace Ci.Resolve

open Pass

/-! ## Constant bounds -/

/-- Resolves an expression that has to be an integer literal. -/
def constantInt (calls : Calls) (e : ExprId) : Pass (ExprId × Int64) := do
  let folded ← calls.expr e
  match ← literal? folded with
  | some (.int n) => return (folded, n)
  | some _ => mismatchAt e "integer" (← valueTy folded)
  | none => failAt e .expectedConstant

/-- Resolves the length of an array, which is not negative and fits in 32 signed bits. -/
def arrayLength (calls : Calls) (e : ExprId) : Pass (ExprId × UInt32) := do
  let (folded, n) ← constantInt calls e
  if n < 0 then failAt e .expectedNonNegativeInteger
  else if 2147483647 < n then failAt e .integerTooBig
  else return (folded, UInt32.ofNat n.toNatClampNeg)

/-- Resolves the upper bound of a range, and gives the range. -/
def rangeTo (calls : Calls) (min : Int64) (included : Bool) (e : ExprId) : Pass (ExprId × Ty) := do
  let (folded, bound) ← constantInt calls e
  let max := if included then bound else Saturating.sub bound 1
  if max < min then failAt e (.rangeMinGreaterThanMax min max)
  else return (folded, .range ⟨min, max⟩)

/-! ## Types without brackets -/

/-- Stops at an exclamation mark that does not belong there. -/
def strayMark {α : Type} (e : ExprId) : Pass α :=
  failAt e (.invalidType "unexpected exclamation mark on non-reference type")

/-- The type that a name stands for. -/
def tyOfSymbol (e : ExprId) (name : String) (writable : Bool) : Option Symbol → Pass Ty
  | some (.classDecl c) => return .classPointer c writable
  | some (.type t) => return t
  | some (.enumDecl d) => return .enumeration d
  | some _ => failAt e (.invalidType (name ++ " is not a type"))
  | none => failAt e (.symbolNotFound name)

/-- Reads a name as a type. -/
def namedType (e : ExprId) (name : String) (writable : Bool) : Pass Ty := do
  let symbol ← lookupGlobal name
  let t ← tyOfSymbol e name writable symbol
  replace e (.name name symbol)
  return t

/-- Reads the name before the parentheses of a storage type. -/
def storageType (e : ExprId) : Pass Ty := do
  match (← node e).kind with
  | .name name _ =>
    if name = "string" then
      record e .stringStorage
      return .stringStorage
    else match ← lookupGlobal name with
      | some (.classDecl c) =>
        replace e (.name name (some (.classDecl c)))
        record e (.classStorage c)
        return .classStorage c
      | _ => failAt e (.symbolNotFound name)
  | _ => failAt e (.invalidType "expected name of storage type")

/-- Reads a range with both bounds. -/
def rangeType (calls : Calls) (e : ExprId) (r : Relation) (left right : ExprId) : Pass Ty := do
  let (left, min) ← constantInt calls left
  let (right, t) ← rangeTo calls min (r == .lessOrEqual) right
  replace e (.binary (.order r) left (.expr right))
  return t

/-- Reads a range that starts at zero. -/
def rangeFromZero (calls : Calls) (e : ExprId) (op : PrefixOp) (inner : ExprId) : Pass Ty := do
  let (inner, t) ← rangeTo calls 0 (op == .lessOrEqual) inner
  replace e (.before op inner)
  return t

/-- Reads the type that a form without brackets and marks stands for. -/
def plainType (calls : Calls) (e : ExprId) (writable : Bool) : Expr → Pass Ty
  | .name name _ => namedType e name writable
  | .binary .call left (.args []) => storageType left
  | .binary .call _ (.args _) =>
    failAt e (.invalidType "expected empty parentheses on storage type")
  | .binary (.order .less) left (.expr right) => rangeType calls e .less left right
  | .binary (.order .lessOrEqual) left (.expr right) => rangeType calls e .lessOrEqual left right
  | .before .less inner => rangeFromZero calls e .less inner
  | .before .lessOrEqual inner => rangeFromZero calls e .lessOrEqual inner
  | _ => failAt e (.invalidType "invalid type")

/-- Only pointers to classes take an exclamation mark. -/
def takesMark : Ty → Bool
  | .classPointer _ _ => true
  | _ => false

/-- Reads a type without brackets, and records it. -/
def baseType (calls : Calls) (e : ExprId) (writable : Bool) : Pass Ty := do
  let t ← plainType calls e writable (← node e).kind
  if writable && !takesMark t then strayMark e
  else
    record e t
    return t

/-! ## Brackets -/

/-- A pair of brackets. -/
inductive Brackets where
  /-- Empty brackets, with or without an exclamation mark. -/
  | pointer (writable : Bool)
  /-- Brackets around a length. -/
  | storage (length : UInt32)
deriving DecidableEq, Repr

namespace Brackets

/-- The array of an element. -/
def array (t : Ty) : Brackets → Ty
  | pointer writable => .arrayPointer t writable
  | storage length => .arrayStorage t length

end Brackets

/-- A type expression taken apart. -/
structure Spelling where
  /-- The part before the brackets. -/
  base : ExprId
  /-- An exclamation mark follows the part before the brackets. -/
  writable : Bool
  /-- The brackets, from right to left. -/
  brackets : List Brackets
  /-- The expressions on the way to the part before the brackets. -/
  nodes : List ExprId
deriving DecidableEq, Repr

/-- Takes an exclamation mark off. -/
def takeMark (e : ExprId) : Pass (ExprId × Bool) := do
  match (← node e).kind with
  | .after .bang inner => return (inner, true)
  | _ => return (e, false)

/-- What stands before and between the last brackets. -/
def lastBrackets? (e : ExprId) : Pass (Option (ExprId × Option ExprId)) := do
  match (← node e).kind with
  | .binary .index left .none => return some (left, none)
  | .binary .index left (.expr length) => return some (left, some length)
  | _ => return none

/-- Reads the last brackets of an array type. -/
def readBrackets (calls : Calls) (e : ExprId) (writable : Bool) (left : ExprId) :
    Option ExprId → Pass Brackets
  | none => return .pointer writable
  | some length => do
    if writable then strayMark e
    else
      let (folded, n) ← arrayLength calls length
      replace e (.binary .index left (.expr folded))
      return .storage n

/-- Takes the brackets off a type, from right to left. The number bounds how many there are. -/
def takeBrackets (calls : Calls) : Nat → ExprId → Pass Spelling
  | 0, _ => answer (.error .cyclic)
  | n + 1, e => do
    let (base, writable) ← takeMark e
    match ← lastBrackets? base with
    | none => return ⟨base, writable, [], [e]⟩
    | some (left, length) =>
      let b ← readBrackets calls base writable left length
      let rest ← takeBrackets calls n left
      return { rest with brackets := b :: rest.brackets, nodes := e :: base :: rest.nodes }

/-! ## Whole types -/

/-- Reads an expression as a type. The part before the brackets has its own type, and all the
rest has the type of the whole. -/
def readType (calls : Calls) (e : ExprId) : Pass Ty := do
  let spelling ← takeBrackets calls (← get).program.exprDepth e
  let t ← baseType calls spelling.base spelling.writable
  let t := spelling.brackets.foldl Brackets.array t
  (spelling.nodes.filter (· != spelling.base)).forM fun e => record e t
  return t

end Ci.Resolve
