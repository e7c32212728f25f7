-- A pass over a program. It changes the program as it goes and stops at the first
-- fault. What it has changed by then stays changed. The file, the scope, the method
-- and the loops around the present place are given back on the way out, also after
-- a fault.
import Ci.Diagnostic
import Ci.Program.Build
import Ci.Program.Shape
import Ci.Scope

namespace Ci

/-! ## The state of a pass -/

/-- A statement that a jump can leave. -/
inductive Breakable where
  | loop
  | switch
deriving DecidableEq, Repr

/-- Why a pass stops early. -/
inductive Abort where
  /-- The program is wrong. -/
  | fault (d : Diagnostic)
  /-- The handles of the program make no sense. -/
  | broken (b : Broken)
deriving DecidableEq, Repr

/-- What a pass works on. -/
structure Pass.State where
  program : Program
  table : ScopeTable
  /-- The scope of each class. -/
  classScopes : Arena .classDecl ScopeId
  /-- The scope of each enumeration. -/
  enumScopes : Arena .enumDecl ScopeId
  /-- The file that faults are found in. -/
  file : FileId
  /-- The method whose body is being resolved. -/
  method : Option MethodId
  /-- The statements around that a jump can leave, the nearest first. -/
  breakables : List Breakable
deriving DecidableEq, Repr

/-- A pass, or a part of one. -/
abbrev Pass (α : Type) := EStateM Abort Pass.State α

namespace Pass

variable {α : Type}

/-- The start of a pass: no names are bound. -/
def State.start (p : Program) : State := ⟨p, .initial, ∅, ∅, ⟨0⟩, none, []⟩

/-! ## Questions and changes -/

/-- Takes the answer to a question. -/
def answer (q : Query α) : Pass α := fun s =>
  match q with
  | .ok a => .ok a s
  | .error b => .error (.broken b) s

/-- Asks the program. -/
def ask (q : Program → Query α) : Pass α := fun s => answer (q s.program) s

/-- Asks the scopes. -/
def askTable (q : ScopeTable → Query α) : Pass α := fun s => answer (q s.table) s

/-- Changes the program. -/
def change (f : Program → Query Program) : Pass Unit := fun s =>
  match f s.program with
  | .ok p => .ok () { s with program := p }
  | .error b => .error (.broken b) s

/-- The scope of a class. -/
def classScope (c : ClassId) : Pass ScopeId := fun s => answer (s.classScopes.fetch c) s

/-- The scope of an enumeration. -/
def enumScope (e : EnumId) : Pass ScopeId := fun s => answer (s.enumScopes.fetch e) s

/-! ## Faults -/

/-- Stops at a line of the present file. -/
def fail (line : UInt32) (fault : Fault) : Pass α := fun s =>
  .error (.fault ⟨s.program.path s.file, line, fault⟩) s

/-- Stops at the line of an expression. -/
def failAt (e : ExprId) (fault : Fault) : Pass α := do
  let node ← ask (·.exprs.fetch e)
  fail node.line fault

/-- Stops at an expression because its type is not the one that is expected. -/
def mismatchAt (e : ExprId) (expected : String) (got : Ty) : Pass α := do
  let got ← ask (·.describe got)
  failAt e (.typeMismatch expected got)

/-- Stops at an expression because its type is not another type. -/
def mismatchTy (e : ExprId) (expected got : Ty) : Pass α := do
  let expected ← ask (·.describe expected)
  mismatchAt e expected got

/-! ## Names -/

/-- What a name stands for in the present scope and those around it. -/
def lookup (name : String) : Pass (Option Symbol) := askTable fun t => t.lookup t.current name

/-- What a name stands for in the program scope. -/
def lookupGlobal (name : String) : Pass (Option Symbol) :=
  askTable fun t => t.lookup .program name

/-- Binds a name in a scope, and stops at a line if the scope has bound it already. -/
def defineIn (scope : ScopeId) (line : UInt32) (name : String) (symbol : Symbol) : Pass Unit := do
  match ← askTable fun t => t.define? scope name symbol with
  | some t => modify fun s => { s with table := t }
  | none => fail line (.duplicateSymbol name)

/-- Binds a name in the present scope. -/
def define (line : UInt32) (name : String) (symbol : Symbol) : Pass Unit := do
  defineIn (← get).table.current line name symbol

/-- Adds an empty scope. -/
def addScope (kind : ScopeKind) (parent : ScopeId) : Pass ScopeId := fun s =>
  .ok s.table.next { s with table := s.table.add kind parent }

/-! ## Contexts -/

/-- The state with the file and the scope of an earlier one. -/
def State.backTo (s earlier : State) : State :=
  { s with file := earlier.file, table := s.table.enter earlier.table.current }

/-- Runs a part in another file and scope. -/
def within (file : FileId) (scope : ScopeId) (body : Pass α) : Pass α := fun s =>
  match body { s with file := file, table := s.table.enter scope } with
  | .ok a t => .ok a (t.backTo s)
  | .error e t => .error e (t.backTo s)

/-- Runs a part in a new scope inside the present one. -/
def inScope (kind : ScopeKind) (body : Pass α) : Pass α := do
  let s ← get
  let scope ← addScope kind s.table.current
  within s.file scope body

/-- Runs a part as the inside of a statement that a jump can leave. -/
def inside (b : Breakable) (body : Pass α) : Pass α := fun s =>
  match body { s with breakables := b :: s.breakables } with
  | .ok a t => .ok a { t with breakables := t.breakables.tail }
  | .error e t => .error e { t with breakables := t.breakables.tail }

/-- Runs a part as the body of a method. After it there is no method. -/
def inMethod (m : MethodId) (body : Pass α) : Pass α := fun s =>
  match body { s with method := some m } with
  | .ok a t => .ok a { t with method := none }
  | .error e t => .error e { t with method := none }

/-! ## Expressions -/

/-- The expression in a slot. -/
def node (e : ExprId) : Pass ExprNode := ask (·.exprs.fetch e)

/-- The type of a value. -/
def valueTy (e : ExprId) : Pass Ty := ask (·.valueTy e)

/-- The value of an expression that is a literal. -/
def literal? (e : ExprId) : Pass (Option Literal) := ask (·.literal? e)

/-- Puts another expression in a slot. -/
def replace (e : ExprId) (kind : Expr) : Pass Unit := change (·.replaceExpr e kind)

/-- Records the type of an expression. -/
def record (e : ExprId) (t : Ty) : Pass Unit := change (·.recordTy e t)

/-- Records the type of an expression, which stays where it is. -/
def typed (e : ExprId) (t : Ty) : Pass ExprId := do
  record e t
  return e

/-- Adds a literal that has its type. A handle is a word of 32 bits, so after 2 ^ 32 expressions
there is no handle that leads to one more. The pass then stops: a handle that stays at the largest
word would lead to the wrong expression. -/
def addLiteral (line : UInt32) (value : Literal) : Pass ExprId := fun s =>
  if s.program.exprs.size < UInt32.size then
    let (e, p) := s.program.addTyped line value
    .ok e { s with program := p }
  else .error (.broken .full) s

/-- Adds a literal that takes the place of an expression. -/
def fold (e : ExprId) (value : Literal) : Pass ExprId := do
  addLiteral (← node e).line value

/-- The expression stands where a value of a type is expected. -/
def coerce (e : ExprId) (expected : Ty) : Pass Unit := do
  let got ← valueTy e
  if ← ask (·.assignable got expected) then return ()
  else mismatchTy e expected got

/-! ## Visiting once -/

/-- A part of a program that is visited once. -/
structure Visited where
  status : Program → Query Status
  mark : Status → Program → Query Program
  /-- What is wrong if the visit leads back here, and the line where. -/
  circle : Program → Query (UInt32 × Fault)

/-- The visit of a class. -/
def Visited.classDecl (c : ClassId) : Visited where
  status p := do return (← p.classes.fetch c).status
  mark status p := p.setClassStatus c status
  circle p := do
    let d ← p.classes.fetch c
    return (d.line, .circularInheritance d.name)

/-- The visit of a constant. -/
def Visited.const (k : ConstId) : Visited where
  status p := do return (← p.consts.fetch k).status
  mark status p := p.setConstStatus k status
  circle p := do
    let d ← p.consts.fetch k
    return (d.line, .circularConstant d.name)

/-- Runs a part unless it has been run before. To come back to a part that is still running is
a fault. -/
def once (v : Visited) (body : Pass Unit) : Pass Unit := do
  match ← ask v.status with
  | .resolved => return ()
  | .inProgress =>
    let (line, fault) ← ask v.circle
    fail line fault
  | .unvisited =>
    change (v.mark .inProgress)
    body
    change (v.mark .resolved)

/-! ## Recursion -/

/-- The ways in which the rules call each other. A rule takes them as an argument, so that each
rule stands for itself. -/
structure Calls where
  /-- Resolves an expression, and gives what takes its place. -/
  expr : ExprId → Pass ExprId
  /-- Reads an expression as a type. -/
  type : ExprId → Pass Ty
  /-- Resolves a constant. -/
  const : ConstId → Pass Unit

end Pass

end Ci
