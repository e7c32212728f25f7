-- Expressions. Each rule gives the expression that takes the place of the one it
-- resolves: that one itself, a part of it, or a new literal.
import Ci.Resolve.Binary
import Ci.Resolve.Member
import Ci.Resolve.Unary

namespace Ci.Resolve

open Pass

/-! ## Conditions -/

/-- Resolves an expression that has to be boolean. -/
def condition (resolve : ExprId → Pass ExprId) (e : ExprId) : Pass ExprId := do
  let e ← resolve e
  coerce e .bool
  return e

/-- A choice whose parts are resolved. If the condition is known, the choice is made. -/
def choice (e cond onTrue onFalse : ExprId) : Pass ExprId := do
  let l ← valueTy onTrue
  let r ← valueTy onFalse
  match Ty.unify l r with
  | none => mismatchTy onFalse l r
  | some t =>
    match ← boolLiteral? cond with
    | some true => return onTrue
    | some false => return onFalse
    | none => typed e t

/-- A choice between two expressions. -/
def conditional (calls : Calls) (e cond onTrue onFalse : ExprId) : Pass ExprId := do
  let cond ← condition calls.expr cond
  let onTrue ← calls.expr onTrue
  let onFalse ← calls.expr onFalse
  replace e (.conditional cond onTrue onFalse)
  choice e cond onTrue onFalse

/-! ## Collections -/

/-- The common type of the items of a collection, where a type is known for those before. -/
def commonTy (t : Ty) : List ExprId → Pass Ty
  | [] => return t
  | item :: items => do
    let u ← valueTy item
    match Ty.unify t u with
    | some t => commonTy t items
    | none => mismatchTy item t u

/-- A collection of items, which is an array. -/
def collection (calls : Calls) (e : ExprId) (items : List ExprId) : Pass ExprId := do
  match ← items.mapM calls.expr with
  | [] => failAt e (.invalidExpression "cannot infer type of an empty array")
  | first :: rest =>
    let t ← commonTy (← valueTy first) rest
    let length := rest.length + 1
    if UInt32.size ≤ length then failAt e .integerTooBig
    else
      replace e (.collection (first :: rest))
      typed e (.arrayStorage t (UInt32.ofNat length))

/-! ## Local variables -/

/-- Resolves the value that a variable starts with. -/
def startValue (calls : Calls) (v : VarId) (t : Ty) : Option ExprId → Pass Unit
  | none => return ()
  | some value => do
    let value ← calls.expr value
    coerce value t
    change (·.updateVar v fun d => { d with value := some value })

/-- The declaration of a local variable. Its name is bound after its value. -/
def localVar (calls : Calls) (e : ExprId) (v : VarId) : Pass ExprId := do
  let d ← ask (·.vars.fetch v)
  let t ← calls.type d.typeExpr
  startValue calls v t d.value
  change (·.updateVar v fun d => { d with ty := some t })
  define (← node e).line d.name (.var v)
  typed e t

/-! ## All expressions -/

/-- The rule for expressions. -/
def exprRule (calls : Calls) (e : ExprId) : Pass ExprId := do
  match (← node e).kind with
  | .literal value => typed e value.ty
  | .name _ _ => localName calls e
  | .before op inner => before calls e op inner
  | .after op inner => after calls e op inner
  | .binary .dot left right => memberAccess calls e left right
  | .binary .call callee args => call calls e callee args
  | .binary op left right => binary calls e op left right
  | .conditional cond onTrue onFalse => conditional calls e cond onTrue onFalse
  | .collection items => collection calls e items
  | .var v => localVar calls e v

end Ci.Resolve
