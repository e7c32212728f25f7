-- Scopes. Each scope binds names and has a parent, and a name is looked up from a
-- scope outwards. Members are looked up the same way, but only through the scopes
-- of classes and enumerations, so never as far as the program scope.
import Ci.Program.Query

namespace Ci

/-! ## One scope -/

/-- The number of a scope. Scopes are numbered as they come. -/
structure ScopeId where
  slot : Nat
deriving DecidableEq, Repr

/-- The scope of the program, which is the first one. -/
def ScopeId.program : ScopeId := ⟨0⟩

/-- What opens a scope. -/
inductive ScopeKind where
  /-- The program, with its built-in types, classes, enumerations and global constants. -/
  | program
  | classDecl (c : ClassId)
  | enumDecl (e : EnumId)
  | parameters
  | block
  /-- The head of a counting loop. -/
  | forHead
  | switch
deriving DecidableEq, Repr

namespace ScopeKind

/-- Scopes of enumerations. -/
def isEnum : ScopeKind → Bool
  | enumDecl _ => true
  | _ => false

/-- Scopes whose names are members. -/
def hasMembers : ScopeKind → Bool
  | classDecl _ => true
  | enumDecl _ => true
  | _ => false

end ScopeKind

/-- A scope. No name is bound twice. -/
structure Scope where
  kind : ScopeKind
  parent : Option ScopeId
  bindings : List (String × Symbol)
deriving DecidableEq, Repr

namespace Scope

/-- What a name stands for in the scope itself. -/
def find? (s : Scope) (name : String) : Option Symbol := s.bindings.lookup name

end Scope

/-! ## All the scopes -/

/-- The scopes of a program, one of which is the current one. -/
structure ScopeTable where
  scopes : Array Scope
  current : ScopeId
deriving DecidableEq, Repr

namespace ScopeTable

/-- The table with the empty program scope only. -/
def initial : ScopeTable := ⟨#[⟨.program, none, []⟩], .program⟩

/-- The scope with a number. -/
def fetch (t : ScopeTable) (s : ScopeId) : Query Scope :=
  match t.scopes[s.slot]? with
  | some scope => .ok scope
  | none => .error .dangling

/-- The number of the next scope. -/
def next (t : ScopeTable) : ScopeId := ⟨t.scopes.size⟩

/-- Adds an empty scope without entering it. -/
def add (t : ScopeTable) (kind : ScopeKind) (parent : ScopeId) : ScopeTable :=
  { t with scopes := t.scopes.push ⟨kind, some parent, []⟩ }

/-- Makes a scope the current one. -/
def enter (t : ScopeTable) (s : ScopeId) : ScopeTable := { t with current := s }

/-- Puts a scope in the place of the one with a number. -/
def set (t : ScopeTable) (s : ScopeId) (scope : Scope) : ScopeTable :=
  { t with scopes := t.scopes.setIfInBounds s.slot scope }

/-- Gives a scope another parent. -/
def setParent (t : ScopeTable) (s parent : ScopeId) : Query ScopeTable := do
  let scope ← t.fetch s
  return t.set s { scope with parent := some parent }

/-- Binds a name in a scope, unless the scope has bound it already. -/
def define? (t : ScopeTable) (s : ScopeId) (name : String) (symbol : Symbol) :
    Query (Option ScopeTable) := do
  let scope ← t.fetch s
  match scope.find? name with
  | some _ => return none
  | none => return some (t.set s { scope with bindings := (name, symbol) :: scope.bindings })

/-! ## Look-up -/

/-- Looks for a name from a scope outwards, as long as the scopes are of an admitted kind. The
number bounds the way. -/
def search (t : ScopeTable) (admits : ScopeKind → Bool) (name : String) :
    Nat → Option ScopeId → Query (Option Symbol)
  | _, none => .ok none
  | 0, some _ => .error .cyclic
  | n + 1, some s => do
    let scope ← t.fetch s
    if admits scope.kind then
      match scope.find? name with
      | some symbol => return some symbol
      | none => search t admits name n scope.parent
    else return none

/-- What a name stands for in a scope and those around it. A chain of parents that does not run
in a circle is no longer than the list of scopes. -/
def lookup (t : ScopeTable) (s : ScopeId) (name : String) : Query (Option Symbol) :=
  t.search (fun _ => true) name t.scopes.size (some s)

/-- What a name stands for among the members of a class and its bases, or of an enumeration. -/
def lookupMember (t : ScopeTable) (s : ScopeId) (name : String) : Query (Option Symbol) :=
  t.search ScopeKind.hasMembers name t.scopes.size (some s)

end ScopeTable

end Ci
