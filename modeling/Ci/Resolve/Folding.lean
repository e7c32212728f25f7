-- What the rules for operators share: what an operand has to be, and when an
-- operator gives way to its value. An operand that does something keeps its
-- operator.
import Ci.Interval.Arithmetic
import Ci.Resolve.Pass

namespace Ci

/-- The fault of an operator that can only divide by zero. -/
def ZeroDivisor.fault : ZeroDivisor → Fault
  | division => .divisionByZero
  | modulo => .moduloByZero

namespace Resolve

open Pass

/-! ## Operands -/

/-- The operand is a number. -/
def requireNumeric (e : ExprId) (t : Ty) : Pass Unit :=
  if t.isNumeric then return () else mismatchAt e "numeric" t

/-- The operand is an integer. -/
def requireInteger (e : ExprId) (t : Ty) : Pass Unit :=
  if t.isInteger then return () else mismatchAt e "integer" t

/-- The operand is what an operator on numbers takes. -/
def requireOperand (op : IntOp) (e : ExprId) (t : Ty) : Pass Unit :=
  if op.integerOnly then requireInteger e t else requireNumeric e t

/-- One can assign to the operand. -/
def requirePlace (e : ExprId) : Pass Unit := do
  if ← ask (·.isPlace e) then return ()
  else failAt e (.invalidExpression "cannot assign to this expression")

/-- The value of an operand that is a boolean literal. -/
def boolLiteral? (e : ExprId) : Pass (Option Bool) := do
  match ← literal? e with
  | some (.bool b) => return some b
  | _ => return none

/-- The bounds of an operator on two ranges. -/
def bounds (e : ExprId) (op : IntOp) (i j : Interval) : Pass Interval :=
  match Interval.apply op i j with
  | .ok r => return r
  | .error z => failAt e z.fault

/-! ## Values -/

/-- None of the operands does anything. -/
def areInert (operands : List ExprId) : Pass Bool := do
  return !(← ask fun p => operands.anyM p.hasEffects)

/-- Puts a known value in the place of an operator, unless an operand does something. -/
def foldUnless (e : ExprId) (operands : List ExprId) (value : Literal) (t : Ty) : Pass ExprId := do
  if ← areInert operands then fold e value else typed e t

/-- Gives an operator the range of its values. A single value takes its place. -/
def typedRange (e : ExprId) (operands : List ExprId) (i : Interval) : Pass ExprId :=
  match i.asPoint with
  | some n => foldUnless e operands (.int n) (.range i)
  | none => typed e (.range i)

/-- Makes an operator boolean. A result known in advance takes its place. -/
def typedBool (e : ExprId) (operands : List ExprId) (known : Option Bool) : Pass ExprId :=
  match known with
  | some b => foldUnless e operands (.bool b) .bool
  | none => typed e .bool

end Resolve

end Ci
