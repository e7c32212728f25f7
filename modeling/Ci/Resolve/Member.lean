-- Access to members, and calls of methods. A member is looked up in the class or
-- enumeration that stands before the dot by its name, or in the class of the value
-- that stands there.
import Ci.Resolve.Name

namespace Ci.Resolve

open Pass

/-! ## Members -/

/-- A member that is looked up from a scope. -/
def memberFrom (calls : Calls) (scope : ScopeId) (e member : ExprId) : Pass ExprId := do
  let resolved ← resolveName calls ScopeTable.lookupMember scope member
  if resolved = member then typed e (← valueTy member) else return resolved

/-- The length of a string. -/
def stringLength (e left member : ExprId) (name : String) : Pass ExprId := do
  match ← literal? left with
  | some (.string text) => fold e (.int (Int64.ofNat text.length))
  | _ =>
    replace member (.name name (some .stringLength))
    record member .length
    typed e .length

/-- A member of a value of a class. -/
def memberOfClass (calls : Calls) (e member : ExprId) (name : String) (t : Ty) : Pass ExprId :=
  match t.memberClass with
  | some c => do memberFrom calls (← classScope c) e member
  | none => failAt member (.symbolNotFound name)

/-- A member of a value. Strings and arrays have a length. -/
def memberOfValue (calls : Calls) (e left member : ExprId) (name : String) : Pass ExprId := do
  let left ← calls.expr left
  replace e (.binary .dot left (.expr member))
  let t ← valueTy left
  if name = "Length" ∧ t.isString then stringLength e left member name
  else match t with
    | .arrayStorage _ length =>
      if name = "Length" then fold e (.int (Int64.ofNat length.toNat))
      else memberOfClass calls e member name t
    | _ => memberOfClass calls e member name t

/-- The access to a member with a name. -/
def memberNamed (calls : Calls) (e left member : ExprId) (name : String) : Pass ExprId := do
  match ← ownerScope left with
  | some scope => memberFrom calls scope e member
  | none => memberOfValue calls e left member name

/-- The access to a member. -/
def memberAccess (calls : Calls) (e left : ExprId) : Operand → Pass ExprId
  | .expr member => do
    match (← node member).kind with
    | .name name _ => memberNamed calls e left member name
    | _ => failAt member (.invalidExpression "expected member name")
  | _ => failAt e (.invalidExpression "expected member name")

/-! ## Calls -/

/-- Resolves an argument and checks it against its parameter. -/
def argument (calls : Calls) (arg : ExprId) (param : VarId) : Pass ExprId := do
  let arg ← calls.expr arg
  match (← ask (·.vars.fetch param)).ty with
  | some t =>
    coerce arg t
    return arg
  | none => failAt arg .expectedConstant

/-- A call of a method. -/
def callOf (calls : Calls) (e callee : ExprId) (m : MethodId) (args : List ExprId) :
    Pass ExprId := do
  let params := (← ask (·.methods.fetch m)).params
  if params.length = args.length then
    let args ← (args.zip params).mapM fun (arg, param) => argument calls arg param
    replace e (.binary .call callee (.args args))
    typed e ((← ask (·.methods.fetch m)).ty.getD .void)
  else failAt e (.argumentCountMismatch params.length args.length)

/-- A call. -/
def call (calls : Calls) (e callee : ExprId) : Operand → Pass ExprId
  | .args args => do
    let callee ← calls.expr callee
    match ← ask (·.symbolOf callee) with
    | some (.method m) => callOf calls e callee m args
    | _ => failAt callee (.invalidExpression "not a method")
  | _ => failAt e (.invalidExpression "missing arguments")

end Ci.Resolve
