-- Questions that follow the parts of an expression: what it stands for, whether
-- it does something, whether it is a value known in advance, and whether one can
-- assign to it.
import Ci.Program.Query

namespace Ci.Program

/-- The largest number of expressions on a way from one to its parts, unless the way runs in a
circle. -/
def exprDepth (p : Program) : Nat := p.exprs.size + 1

/-! ## What an expression stands for -/

/-- What a name stands for, or the name of a member that is accessed. The number bounds the
depth. -/
def symbolWithin (p : Program) : Nat → ExprId → Query (Option Symbol)
  | 0, _ => .error .cyclic
  | n + 1, e => do
    match (← p.exprs.fetch e).kind with
    | .name _ symbol => return symbol
    | .binary .dot _ (.expr member) => symbolWithin p n member
    | _ => return none

/-- What a name or the access to a member stands for. -/
def symbolOf (p : Program) (e : ExprId) : Query (Option Symbol) :=
  p.symbolWithin p.exprDepth e

/-! ## Effects -/

/-- The expression or a part of it does something. The number bounds the depth. -/
def actsWithin (p : Program) : Nat → ExprId → Query Bool
  | 0, _ => .error .cyclic
  | n + 1, e => do
    let kind := (← p.exprs.fetch e).kind
    if kind.acts then return true else kind.children.anyM (actsWithin p n)

/-- The expression or a part of it does something, so it may not be left out. -/
def hasEffects (p : Program) (e : ExprId) : Query Bool := p.actsWithin p.exprDepth e

/-! ## Values known in advance -/

/-- The expression stands for a value of an enumeration. -/
def isEnumerator (p : Program) (e : ExprId) : Query Bool := do
  match ← p.symbolOf e with
  | some (.const k) => return (← p.consts.fetch k).owner.isEnum
  | _ => return false

/-- A literal, a value of an enumeration, or a collection of such. The number bounds the
depth. -/
def constantWithin (p : Program) : Nat → ExprId → Query Bool
  | 0, _ => .error .cyclic
  | n + 1, e => do
    match (← p.exprs.fetch e).kind with
    | .literal _ => return true
    | .collection items => items.allM (constantWithin p n)
    | .name _ _ => p.isEnumerator e
    | .binary .dot _ _ => p.isEnumerator e
    | _ => return false

/-- A literal, a value of an enumeration, or a collection of such. -/
def isConstant (p : Program) (e : ExprId) : Query Bool := p.constantWithin p.exprDepth e

/-! ## Places -/

/-- The expression stands for a variable or a field. -/
def isVariable (p : Program) (e : ExprId) : Query Bool := do
  match ← p.symbolOf e with
  | some (.var _) => return true
  | some (.field _) => return true
  | _ => return false

/-- One can assign to the expression: it is a variable, a field or an item of an array. -/
def isPlace (p : Program) (e : ExprId) : Query Bool := do
  match (← p.exprs.fetch e).kind with
  | .name _ _ => p.isVariable e
  | .binary .dot _ _ => p.isVariable e
  | .binary .index left _ => return (← p.valueTy left).isArray
  | _ => return false

end Ci.Program
