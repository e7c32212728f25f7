-- Operators between two operands, both of which are resolved by then.
import Ci.Resolve.Folding

namespace Ci.Resolve

open Pass

/-! ## Arithmetic -/

/-- Two values of which one is a string, written one after the other. -/
def concatenation (e left right : ExprId) : Pass ExprId := do
  match ← literal? left, ← literal? right with
  | some v, some w => fold e (.string (v.text ++ w.text))
  | _, _ => typed e .stringPointer

/-- The type of an operator on numbers that are not both ranges. -/
def resultTy (op : IntOp) (l r : Ty) : Ty :=
  if op.integerOnly then Ty.integerResult l r else Ty.numericResult l r

/-- An operator on numbers, or the concatenation of strings. -/
def arithmetic (e : ExprId) (op : IntOp) (left right : ExprId) : Pass ExprId := do
  let l ← valueTy left
  let r ← valueTy right
  if op = .add ∧ (l.isString ∨ r.isString) then concatenation e left right
  else match l.asRange, r.asRange with
    | some i, some j => typedRange e [left, right] (← bounds e op i j)
    | _, _ =>
      requireOperand op left l
      requireOperand op right r
      typed e (resultTy op l r)

/-! ## Comparisons -/

/-- Values of both types can be compared. -/
def comparable (l r : Ty) : Pass Bool :=
  if (Ty.unify l r).isSome then return true
  else do
    if ← ask (·.assignable l r) then return true
    else ask (·.assignable r l)

/-- Whether two values are equal, if that is known in advance. -/
def knownEqual (left right : ExprId) (l r : Ty) : Pass (Option Bool) := do
  match ← literal? left, ← literal? right with
  | some v, some w => return some (v.equal w)
  | _, _ =>
    match l.asRange, r.asRange with
    | some i, some j => return if i.disjoint j then some false else none
    | _, _ => return none

/-- A comparison for equality, or for the lack of it. -/
def equality (e : ExprId) (wanted : Bool) (left right : ExprId) : Pass ExprId := do
  let l ← valueTy left
  let r ← valueTy right
  if ← comparable l r then
    let known ← knownEqual left right l r
    typedBool e [left, right] (known.map (· == wanted))
  else mismatchTy right l r

/-- The result of a comparison by order, if it is known in advance. -/
def knownOrder (rel : Relation) (left right : ExprId) (l r : Ty) : Pass (Option Bool) := do
  match l.asRange, r.asRange with
  | some i, some j => return rel.decide? i j
  | _, _ =>
    let v ← literal? left
    let w ← literal? right
    match v.bind Literal.number?, w.bind Literal.number? with
    | some x, some y => return some (rel.holdsDouble x y)
    | _, _ => return none

/-- A comparison by order. -/
def ordering (e : ExprId) (rel : Relation) (left right : ExprId) : Pass ExprId := do
  let l ← valueTy left
  let r ← valueTy right
  requireNumeric left l
  requireNumeric right r
  typedBool e [left, right] (← knownOrder rel left right l r)

/-! ## Logic -/

/-- A logical operator, which is decided if its left side has a certain value, and is its right
side if the left side has the other. -/
def logical (e : ExprId) (decisive : Bool) (left right : ExprId) : Pass ExprId := do
  coerce left .bool
  coerce right .bool
  match ← boolLiteral? left with
  | some b => if b = decisive then fold e (.bool b) else return right
  | none => typed e .bool

/-! ## Assignments -/

/-- A plain assignment. -/
def assignment (e left right : ExprId) : Pass ExprId := do
  requirePlace left
  let l ← valueTy left
  coerce right l
  typed e l

/-- An operator that divides by nothing but zero is a fault, also where the result has no
range. -/
def checkBounds (e : ExprId) (op : IntOp) (l r : Ty) : Pass Unit :=
  match l.asRange, r.asRange with
  | some i, some j => do
    let _ ← bounds e op i j
    return ()
  | _, _ => return ()

/-- An assignment that first applies an operator. Everything can be added to a string. -/
def update (e : ExprId) (op : IntOp) (left right : ExprId) : Pass ExprId := do
  requirePlace left
  let l ← valueTy left
  let r ← valueTy right
  if op = .add ∧ l.isString then typed e l
  else
    requireOperand op left l
    requireOperand op right r
    checkBounds e op l r
    typed e l

/-! ## Indexing -/

/-- The character of a text at a position. -/
def charAt? (text : String) (i : Int64) : Option Char :=
  if i < 0 then none else text.toList[i.toNatClampNeg]?

/-- A character of a string. -/
def charOf (e left right : ExprId) : Pass ExprId := do
  match ← literal? left, ← literal? right with
  | some (.string text), some (.int i) =>
    match charAt? text i with
    | some c => fold e (.int (Int64.ofNat c.toNat))
    | none => typed e .char
  | _, _ => typed e .char

/-- An item of an array, or a character of a string. -/
def indexing (e left right : ExprId) : Pass ExprId := do
  let i ← valueTy right
  if i.isInteger && !i.isLong then
    let t ← valueTy left
    match t.element with
    | some u => typed e u
    | none => if t.isString then charOf e left right else mismatchAt left "array or string" t
  else failAt right .indexNotInt32

/-! ## All operators -/

/-- What a lack of the right operand is called. -/
def missingOperand : BinaryOp → String
  | .index => "missing index"
  | _ => "missing operand"

/-- An operator whose operands are resolved. Member access and calls have rules of their own. -/
def operation (e : ExprId) (op : BinaryOp) (left right : ExprId) : Pass ExprId :=
  match op with
  | .index => indexing e left right
  | .equal => equality e true left right
  | .notEqual => equality e false left right
  | .order rel => ordering e rel left right
  | .condAnd => logical e false left right
  | .condOr => logical e true left right
  | .assign => assignment e left right
  | .update op => update e op left right
  | .arith op => arithmetic e op left right
  | .dot | .call => failAt e (.invalidExpression (missingOperand op))

/-- An operator between two expressions. -/
def binary (calls : Calls) (e : ExprId) (op : BinaryOp) (left : ExprId) :
    Operand → Pass ExprId
  | .expr right => do
    let left ← calls.expr left
    let right ← calls.expr right
    replace e (.binary op left (.expr right))
    operation e op left right
  | _ => failAt e (.invalidExpression (missingOperand op))

end Ci.Resolve
