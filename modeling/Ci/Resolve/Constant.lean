-- Constants. A constant is resolved where it is declared, when it is first needed,
-- and only once. The expressions, types and constants of a program call each other,
-- and here the circle closes.
import Ci.Resolve.Expr
import Ci.Resolve.TypeExpr

namespace Ci.Resolve

open Pass

/-! ## One constant -/

/-- The value of an enumeration. It may come without an initializer. -/
def enumValue (calls : Calls) (k : ConstId) (line : UInt32) (d : EnumId) :
    Option ExprId → Pass Ty
  | none => return .enumeration d
  | some value => do
    let value ← calls.expr value
    change (·.updateConst k fun d => { d with value := some value })
    let t ← valueTy value
    if t.isInteger ∨ t = .enumeration d then return .enumeration d
    else fail line (.typeMismatch "integer" (← ask (·.describe t)))

/-- Checks a value against the type that is written for it. For arrays that type says no more
than that it is one. -/
def checkDeclared (value : ExprId) : Option Ty → Pass Unit
  | none => return ()
  | some t => if t.isArray then return () else coerce value t

/-- The value of a constant that is not one of an enumeration. -/
def plainValue (calls : Calls) (k : ConstId) (line : UInt32) (t : Option Ty) :
    Option ExprId → Pass Ty
  | none => fail line .expectedConstant
  | some value => do
    let value ← calls.expr value
    change (·.updateConst k fun d => { d with value := some value })
    checkDeclared value t
    if ← ask (·.isConstant value) then valueTy value
    else fail line .expectedConstant

/-- The value of a constant of an owner. -/
def ownedValue (calls : Calls) (k : ConstId) (line : UInt32) (t : Option Ty)
    (value : Option ExprId) : Owner → Pass Ty
  | .enumDecl e => enumValue calls k line e value
  | _ => plainValue calls k line t value

/-- Resolves the type and the value of a constant. -/
def constValue (calls : Calls) (k : ConstId) : Pass Unit := do
  let d ← ask (·.consts.fetch k)
  let written ← d.typeExpr.mapM calls.type
  let t ← ownedValue calls k d.line written d.value d.owner
  change (·.updateConst k fun d => { d with ty := some t })

/-- Runs a part where a constant is declared. A constant of a body is declared here. -/
def whereDeclared (owner : Owner) (body : Pass Unit) : Pass Unit :=
  match owner with
  | .program file => within file .program body
  | .classDecl c => do
    let file := (← ask (·.classes.fetch c)).file
    within file (← classScope c) body
  | .enumDecl e => do
    let file := (← ask (·.enums.fetch e)).file
    within file (← enumScope e) body
  | .body => body

/-- The rule for constants. -/
def constRule (calls : Calls) (k : ConstId) : Pass Unit := do
  let owner := (← ask (·.consts.fetch k)).owner
  whereDeclared owner (once (.const k) (constValue calls k))

/-! ## The circle -/

/-- Stops because the handles run in a circle. -/
def outOfDepth {α : Type} : Pass α := answer (.error .cyclic)

/-- The rules that call each other, down to a depth. -/
def callsWithin : Nat → Calls
  | 0 => ⟨fun _ => outOfDepth, fun _ => outOfDepth, fun _ => outOfDepth⟩
  | n + 1 =>
    ⟨fun e => exprRule (callsWithin n) e,
     fun e => readType (callsWithin n) e,
     fun k => constRule (callsWithin n) k⟩

/-- A depth that is enough for every program whose handles do not run in a circle: no
expression stands inside itself, and no constant is resolved while it is resolved. -/
def callDepth (p : Program) : Nat := (p.consts.size + 2) * (p.exprs.size + 3)

/-- The rules that call each other. -/
def calls : Pass Calls := do return callsWithin (callDepth (← get).program)

/-- Resolves an expression, and gives what takes its place. -/
def resolveExpr (e : ExprId) : Pass ExprId := do (← calls).expr e

/-- Reads an expression as a type. -/
def resolveType (e : ExprId) : Pass Ty := do (← calls).type e

/-- Resolves a constant. -/
def resolveConst (k : ConstId) : Pass Unit := do (← calls).const k

end Ci.Resolve
