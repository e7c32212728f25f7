-- The whole pass. Names of built-in types, classes, enumerations and global
-- constants are bound first. Then come the classes, the constants, the types of the
-- members, and the bodies of the methods.
import Ci.Resolve.Inheritance
import Ci.Resolve.Statement

namespace Ci

namespace Resolve

open Pass

/-! ## Names of the program -/

/-- The built-in types and their names. -/
def builtins : List (String × Ty) :=
  [("bool", .bool),
   ("sbyte", .range ⟨-128, 127⟩),
   ("byte", .range ⟨0, 255⟩),
   ("short", .range ⟨-32768, 32767⟩),
   ("ushort", .range ⟨0, 65535⟩),
   ("int", .int),
   ("uint", .range ⟨0, 4294967295⟩),
   ("long", .long),
   ("float", .float),
   ("double", .double),
   ("string", .stringPointer)]

/-- Binds a name in the program scope. -/
def defineGlobal (line : UInt32) (name : String) (symbol : Symbol) : Pass Unit :=
  defineIn .program line name symbol

/-- Binds the names of the built-in types. -/
def registerBuiltins : Pass Unit :=
  builtins.forM fun (name, t) => defineGlobal 0 name (.type t)

/-- Goes on in another file. -/
def enterFile (file : FileId) : Pass Unit := modify fun s => { s with file := file }

/-- Binds the name of a class, and gives it a scope. -/
def registerClass (c : ClassId) : Pass Unit := do
  let d ← ask (·.classes.fetch c)
  enterFile d.file
  defineGlobal d.line d.name (.classDecl c)
  let scope ← addScope (.classDecl c) .program
  modify fun s => { s with classScopes := s.classScopes.push scope }

/-- Binds the name of an enumeration, and gives it a scope with its values. -/
def registerEnum (e : EnumId) : Pass Unit := do
  let d ← ask (·.enums.fetch e)
  enterFile d.file
  defineGlobal d.line d.name (.enumDecl e)
  let scope ← addScope (.enumDecl e) .program
  modify fun s => { s with enumScopes := s.enumScopes.push scope }
  d.values.forM fun k => do
    let v ← ask (·.consts.fetch k)
    defineIn scope v.line v.name (.const k)

/-- Goes on in the file of a global constant. -/
def enterOwner : Owner → Pass Unit
  | .program file => enterFile file
  | _ => return ()

/-- Binds the name of a global constant. -/
def registerGlobal (k : ConstId) : Pass Unit := do
  let d ← ask (·.consts.fetch k)
  enterOwner d.owner
  defineGlobal d.line d.name (.const k)

/-- Binds the names of all declarations. -/
def registerDeclarations : Pass Unit := do
  (← get).program.classes.handles.forM registerClass
  (← get).program.enums.handles.forM registerEnum
  (← get).program.globals.forM registerGlobal

/-! ## Phases -/

/-- Resolves all classes. -/
def resolveClasses : Pass Unit := do
  (← get).program.classes.handles.forM resolveClass

/-- Resolves the values of an enumeration. -/
def resolveValues (e : EnumId) : Pass Unit := do
  (← ask (·.enums.fetch e)).values.forM resolveConst

/-- Resolves the constants of a class. -/
def resolveClassConsts (c : ClassId) : Pass Unit := do
  (← ask (·.classes.fetch c)).consts.forM resolveConst

/-- Resolves all constants. -/
def resolveConsts : Pass Unit := do
  (← get).program.globals.forM resolveConst
  (← get).program.enums.handles.forM resolveValues
  (← get).program.ordered.forM resolveClassConsts

/-- Resolves the type of a field. -/
def resolveField (f : FieldId) : Pass Unit := do
  let t ← resolveType (← ask (·.fields.fetch f)).typeExpr
  change (·.updateField f fun d => { d with ty := some t })

/-- Resolves the type of a parameter. -/
def resolveParam (v : VarId) : Pass Unit := do
  let t ← resolveType (← ask (·.vars.fetch v)).typeExpr
  change (·.updateVar v fun d => { d with ty := some t })

/-- Resolves the type that a method returns. -/
def resolveReturn : Option ExprId → Pass Ty
  | some e => resolveType e
  | none => return .void

/-- Resolves the types that a method returns and takes. -/
def resolveSignature (m : MethodId) : Pass Unit := do
  let t ← resolveReturn (← ask (·.methods.fetch m)).typeExpr
  change (·.updateMethod m fun d => { d with ty := some t })
  (← ask (·.methods.fetch m)).params.forM resolveParam

/-- Resolves the types of the members of a class. -/
def resolveTypes (c : ClassId) : Pass Unit := do
  let file := (← ask (·.classes.fetch c)).file
  within file (← classScope c) do
    (← ask (·.classes.fetch c)).fields.forM resolveField
    (← ask (·.classes.fetch c)).methods.forM resolveSignature

/-- Binds the name of a parameter. -/
def bindParam (v : VarId) : Pass Unit := do
  let d ← ask (·.vars.fetch v)
  define d.line d.name (.var v)

/-- Resolves the body of a method, inside a scope with its parameters. -/
def resolveMethod (file : FileId) (classScope : ScopeId) (m : MethodId) : Pass Unit := do
  match (← ask (·.methods.fetch m)).body with
  | none => return ()
  | some body =>
    let scope ← addScope .parameters classScope
    inMethod m <| within file scope do
      (← ask (·.methods.fetch m)).params.forM bindParam
      resolveStmt body

/-- Resolves the bodies of the methods of a class. -/
def resolveCode (c : ClassId) : Pass Unit := do
  let file := (← ask (·.classes.fetch c)).file
  let scope ← classScope c
  (← ask (·.classes.fetch c)).methods.forM (resolveMethod file scope)

/-- The whole pass. -/
def run : Pass Unit := do
  registerBuiltins
  registerDeclarations
  resolveClasses
  resolveConsts
  let ordered := (← get).program.ordered
  ordered.forM resolveTypes
  ordered.forM resolveCode

end Resolve

/-! ## Resolution -/

/-- What becomes of a program that is resolved. -/
structure Resolution where
  /-- The program as it stands at the end, also after a fault. -/
  program : Program
  /-- Why the pass stopped, if it did not come to its end. -/
  abort : Option Abort
deriving DecidableEq, Repr

namespace Program

/-- Resolves a program. -/
def resolve (p : Program) : Resolution :=
  match Resolve.run (.start p) with
  | .ok _ s => ⟨s.program, none⟩
  | .error a s => ⟨s.program, some a⟩

end Program

end Ci
