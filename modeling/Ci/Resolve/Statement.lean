-- Statements. Names that a block binds are forgotten at its end. A jump needs a
-- statement around it that it can leave or repeat.
import Ci.Resolve.Constant

namespace Ci.Resolve

open Pass

/-- Resolves a condition. -/
def resolveCondition (e : ExprId) : Pass ExprId := condition resolveExpr e

/-! ## Statements that hold others -/

/-- A choice between two statements. -/
def ifThen (recur : StmtId → Pass Unit) (cond : ExprId) (onTrue : StmtId)
    (onFalse : Option StmtId) : Pass Stmt := do
  let cond ← resolveCondition cond
  recur onTrue
  onFalse.forM recur
  return .ifThen cond onTrue onFalse

/-- A loop with its condition in front. -/
def whileLoop (recur : StmtId → Pass Unit) (cond : ExprId) (body : StmtId) : Pass Stmt := do
  let cond ← resolveCondition cond
  inside .loop (recur body)
  return .whileLoop cond body

/-- A loop with its condition at the end. -/
def doWhile (recur : StmtId → Pass Unit) (body : StmtId) (cond : ExprId) : Pass Stmt := do
  inside .loop (recur body)
  let cond ← resolveCondition cond
  return .doWhile body cond

/-- A loop with a head, which is a scope of its own. -/
def forLoop (recur : StmtId → Pass Unit) (start cond advance : Option ExprId) (body : StmtId) :
    Pass Stmt :=
  inScope .forHead do
    let start ← start.mapM resolveExpr
    let cond ← cond.mapM resolveCondition
    let advance ← advance.mapM resolveExpr
    inside .loop (recur body)
    return .forLoop start cond advance body

/-- The labels and the body of a case. -/
def caseOf (recur : StmtId → Pass Unit) (c : Case) : Pass Case := do
  let values ← c.values.mapM resolveExpr
  c.body.forM recur
  return { c with values }

/-- A choice among cases, which share one scope. -/
def switch (recur : StmtId → Pass Unit) (value : ExprId) (cases : List Case)
    (default : Option (List StmtId)) : Pass Stmt := do
  let value ← resolveExpr value
  let cases ← inScope .switch <| inside .switch do
    let cases ← cases.mapM (caseOf recur)
    default.forM fun body => body.forM recur
    return cases
  return .switch value cases default

/-! ## Jumps -/

/-- The type that the present method returns. -/
def returnTy : Pass Ty := do
  match (← get).method with
  | some m => return (← ask (·.methods.fetch m)).ty.getD .void
  | none => return .void

/-- A return, with a value if and only if the method has one. -/
def ret (line : UInt32) (value : Option ExprId) : Pass Stmt := do
  let expected ← returnTy
  match value with
  | some value =>
    let value ← resolveExpr value
    if expected = .void then
      let t ← valueTy value
      fail line (.typeMismatch "void" (← ask (·.describe t)))
    else
      coerce value expected
      return .ret (some value)
  | none =>
    if expected = .void then return .ret none
    else fail line (.typeMismatch (← ask (·.describe expected)) "void")

/-- A jump out of the nearest loop or switch. -/
def leave (line : UInt32) : Pass Stmt := do
  if (← get).breakables.isEmpty then
    fail line (.invalidStatement "break outside loop or switch")
  else return .leave

/-- A jump to the next turn of the nearest loop. -/
def next (line : UInt32) : Pass Stmt := do
  if (← get).breakables.contains .loop then return .next
  else fail line (.invalidStatement "continue outside loop")

/-! ## Other statements -/

/-- A throw, which takes a text. -/
def throwing (value : ExprId) : Pass Stmt := do
  let value ← resolveExpr value
  coerce value .stringPointer
  return .throw value

/-- Pointers to what has been allocated. -/
def isAllocated : Ty → Bool
  | .classPointer _ _ => true
  | .arrayPointer _ _ => true
  | _ => false

/-- A deletion, which takes a pointer to what has been allocated. -/
def deletion (line : UInt32) (value : ExprId) : Pass Stmt := do
  let value ← resolveExpr value
  let t ← valueTy value
  if isAllocated t then return .delete value
  else fail line (.typeMismatch "class or array pointer" (← ask (·.describe t)))

/-- A constant of a body. Its name is bound after its value. -/
def localConst (line : UInt32) (k : ConstId) : Pass Stmt := do
  resolveConst k
  let name := (← ask (·.consts.fetch k)).name
  define line name (.const k)
  return .const k

/-! ## All statements -/

/-- Resolves a statement, and gives what takes its place. -/
def stmtKind (recur : StmtId → Pass Unit) (line : UInt32) : Stmt → Pass Stmt
  | .block body => do
    inScope .block (body.forM recur)
    return .block body
  | .ifThen cond onTrue onFalse => ifThen recur cond onTrue onFalse
  | .whileLoop cond body => whileLoop recur cond body
  | .doWhile body cond => doWhile recur body cond
  | .forLoop start cond advance body => forLoop recur start cond advance body
  | .switch value cases default => switch recur value cases default
  | .ret value => ret line value
  | .leave => leave line
  | .next => next line
  | .throw value => throwing value
  | .delete value => deletion line value
  | .expr value => do return .expr (← resolveExpr value)
  | .const k => localConst line k

/-- The rule for statements. -/
def stmtRule (recur : StmtId → Pass Unit) (s : StmtId) : Pass Unit := do
  let node ← ask (·.stmts.fetch s)
  let kind ← stmtKind recur node.line node.kind
  change (·.updateStmt s fun node => { node with kind })

/-- Resolves a statement, down to a depth. -/
def stmtWithin : Nat → StmtId → Pass Unit
  | 0, _ => outOfDepth
  | n + 1, s => stmtRule (stmtWithin n) s

/-- Resolves a statement. No statement stands inside itself, so the depth is enough. -/
def resolveStmt (s : StmtId) : Pass Unit := do
  stmtWithin ((← get).program.stmts.size + 1) s

end Ci.Resolve
