-- Operators with one operand, and the allocation of objects and arrays.
import Ci.Resolve.Folding

namespace Ci.Resolve

open Pass

/-! ## Operators on values -/

/-- An increment or a decrement before its operand. A range moves along. -/
def steppedBefore (e inner : ExprId) (delta : Int64) : Pass ExprId := do
  let t ← valueTy inner
  requireNumeric inner t
  requirePlace inner
  match t.asRange with
  | some i => typed e (.range (i.offset delta))
  | none => typed e t

/-- The number with the other sign. -/
def negation (e inner : ExprId) : Pass ExprId := do
  let t ← valueTy inner
  requireNumeric inner t
  match ← literal? inner with
  | some (.double x) => fold e (.double x.neg)
  | _ =>
    match t.asRange with
    | some i => typedRange e [inner] i.neg
    | none => typed e t

/-- The integer with all its bits turned over. -/
def bitComplement (e inner : ExprId) : Pass ExprId := do
  let t ← valueTy inner
  requireInteger inner t
  match t.asRange with
  | some i => typedRange e [inner] i.complement
  | none => typed e t

/-- The opposite truth value. -/
def logicalNot (e inner : ExprId) : Pass ExprId := do
  coerce inner .bool
  match ← boolLiteral? inner with
  | some b => fold e (.bool !b)
  | none => typed e .bool

/-- Resolves the operand of an operator before it. -/
def innerBefore (calls : Calls) (e : ExprId) (op : PrefixOp) (inner : ExprId) : Pass ExprId := do
  let inner ← calls.expr inner
  replace e (.before op inner)
  return inner

/-! ## Allocation -/

/-- A new array. Its length need not be known in advance. -/
def newArray (calls : Calls) (e inner left length : ExprId) : Pass ExprId := do
  let t ← calls.type left
  let length ← calls.expr length
  replace inner (.binary .index left (.expr length))
  let u ← valueTy length
  if u.isInteger && !u.isLong then
    record inner (.arrayPointer t true)
    typed e (.arrayPointer t true)
  else mismatchAt length "int" u

/-- A new object of a class. -/
def newObject (calls : Calls) (e inner : ExprId) : Pass ExprId := do
  match ← calls.type inner with
  | .classStorage c => typed e (.classPointer c true)
  | t => mismatchAt inner "class or array" t

/-- An allocation. -/
def allocation (calls : Calls) (e inner : ExprId) : Pass ExprId := do
  match (← node inner).kind with
  | .binary .index left (.expr length) => newArray calls e inner left length
  | _ => newObject calls e inner

/-! ## All operators -/

/-- An operator before its operand. -/
def before (calls : Calls) (e : ExprId) (op : PrefixOp) (inner : ExprId) : Pass ExprId :=
  match op with
  | .new => allocation calls e inner
  | .less | .lessOrEqual => failAt e (.invalidExpression "range type in expression")
  | .increment => do steppedBefore e (← innerBefore calls e op inner) 1
  | .decrement => do steppedBefore e (← innerBefore calls e op inner) (-1)
  | .minus => do negation e (← innerBefore calls e op inner)
  | .tilde => do bitComplement e (← innerBefore calls e op inner)
  | .not => do logicalNot e (← innerBefore calls e op inner)

/-- An increment or a decrement after its operand. -/
def steppedAfter (calls : Calls) (e : ExprId) (op : PostfixOp) (inner : ExprId) : Pass ExprId := do
  let inner ← calls.expr inner
  replace e (.after op inner)
  let t ← valueTy inner
  requireNumeric inner t
  requirePlace inner
  typed e t

/-- An operator after its operand. -/
def after (calls : Calls) (e : ExprId) (op : PostfixOp) (inner : ExprId) : Pass ExprId :=
  match op with
  | .bang => failAt e (.invalidExpression "unexpected '!'")
  | .increment | .decrement => steppedAfter calls e op inner

end Ci.Resolve
