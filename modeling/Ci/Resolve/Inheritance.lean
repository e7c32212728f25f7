-- Classes and their bases. The base of a class is resolved before the class, so
-- the list of classes has every base before what derives from it. The scope of a
-- class stands inside that of its base.
import Ci.Resolve.Pass

namespace Ci.Resolve

open Pass

/-! ## Members -/

/-- The name, the line and the symbol of each member of a class. -/
def membersOf (p : Program) (d : ClassDecl) : Query (List (String × UInt32 × Symbol)) := do
  let consts ← d.consts.mapM fun k => do
    let m ← p.consts.fetch k
    return (m.name, m.line, Symbol.const k)
  let fields ← d.fields.mapM fun f => do
    let m ← p.fields.fetch f
    return (m.name, m.line, Symbol.field f)
  let methods ← d.methods.mapM fun f => do
    let m ← p.methods.fetch f
    return (m.name, m.line, Symbol.method f)
  return consts ++ fields ++ methods

/-- Binds the names of the members of a class in its scope. -/
def bindMembers (c : ClassId) : Pass Unit := do
  let scope ← classScope c
  let members ← ask fun p => do membersOf p (← p.classes.fetch c)
  members.forM fun (name, line, symbol) => defineIn scope line name symbol

/-! ## Bases -/

/-- The class that is named as a base. -/
def findBase (line : UInt32) (name : String) : Pass ClassId := do
  match ← lookupGlobal name with
  | some (.classDecl b) => return b
  | _ => fail line (.baseClassNotFound name)

/-- Puts the scope of a class inside that of its base. -/
def nestScope (c base : ClassId) : Pass Unit := do
  let scope ← classScope c
  let parent ← classScope base
  let t ← askTable (·.setParent scope parent)
  modify fun s => { s with table := t }

/-- Links a class to the base that it names. -/
def linkBase (recur : ClassId → Pass Unit) (c : ClassId) : Pass Unit := do
  let d ← ask (·.classes.fetch c)
  match d.baseName with
  | none => return ()
  | some name =>
    let base ← findBase d.line name
    change (·.setBase c (some base))
    recur base
    nestScope c base

/-- Adds a class to the order of classes. -/
def addToOrder (c : ClassId) : Pass Unit := modify fun s =>
  { s with program := s.program.addOrdered c }

/-- Links a class and binds its members. -/
def linkClass (recur : ClassId → Pass Unit) (c : ClassId) : Pass Unit := do
  linkBase recur c
  addToOrder c
  bindMembers c

/-- The rule for classes. -/
def classRule (recur : ClassId → Pass Unit) (c : ClassId) : Pass Unit := do
  let file := (← ask (·.classes.fetch c)).file
  within file (← classScope c) (once (.classDecl c) (linkClass recur c))

/-- Resolves a class, down to a depth. -/
def classWithin : Nat → ClassId → Pass Unit
  | 0, _ => answer (.error .cyclic)
  | n + 1, c => classRule (classWithin n) c

/-- Resolves a class. No class is resolved while it is resolved, so the depth is enough. -/
def resolveClass (c : ClassId) : Pass Unit := do
  classWithin ((← get).program.classes.size + 1) c

end Ci.Resolve
