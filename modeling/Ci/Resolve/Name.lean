-- What names stand for in expressions. A name remembers what it stands for, and a
-- constant with a literal value gives way to that value.
import Ci.Resolve.Pass

namespace Ci.Resolve

open Pass

/-- A way to look a name up from a scope. -/
abbrev Look := ScopeTable → ScopeId → String → Query (Option Symbol)

/-- Finds what a name stands for and remembers it. -/
def bindName (look : Look) (scope : ScopeId) (e : ExprId) : Pass (String × Symbol) := do
  match (← node e).kind with
  | .name name (some symbol) => return (name, symbol)
  | .name name none =>
    match ← askTable fun t => look t scope name with
    | some symbol =>
      replace e (.name name (some symbol))
      return (name, symbol)
    | none => failAt e (.symbolNotFound name)
  | _ => failAt e (.invalidExpression "expected a name")

/-- The literal that takes the place of a constant. A name that is looked up in an enumeration
stays. -/
def inlined? (scope : ScopeId) (k : Const) : Pass (Option Literal) := do
  let scope ← askTable (·.fetch scope)
  if scope.kind.isEnum then return none
  else match k.value with
    | some value => literal? value
    | none => return none

/-- Gives a name the type of what it stands for, if that type is known by now. -/
def declared (e : ExprId) (t : Option Ty) : Pass ExprId :=
  match t with
  | some t => typed e t
  | none => failAt e .expectedConstant

/-- Resolves a name that is looked up from a scope. -/
def resolveName (calls : Calls) (look : Look) (scope : ScopeId) (e : ExprId) : Pass ExprId := do
  let (name, symbol) ← bindName look scope e
  match symbol with
  | .const k =>
    calls.const k
    let d ← ask (·.consts.fetch k)
    match ← inlined? scope d with
    | some value => fold e value
    | none => declared e d.ty
  | .field f => declared e (← ask (·.fields.fetch f)).ty
  | .method m => declared e (← ask (·.methods.fetch m)).ty
  | .var v => declared e (← ask (·.vars.fetch v)).ty
  | .stringLength => declared e (some .length)
  | .type _ | .classDecl _ | .enumDecl _ => failAt e (.invalidExpression (name ++ " is a type"))

/-- Resolves a name that stands for itself. -/
def localName (calls : Calls) (e : ExprId) : Pass ExprId := do
  resolveName calls ScopeTable.lookup (← get).table.current e

/-- Remembers that a name stands for a class or an enumeration. -/
def bindOwner (e : ExprId) (name : String) (symbol : Symbol) (t : Ty) : Pass Unit := do
  replace e (.name name (some symbol))
  record e t

/-- What a name stands for, as it is remembered or as it is looked up. -/
def standsFor (name : String) : Option Symbol → Pass (Option Symbol)
  | some symbol => return some symbol
  | none => lookup name

/-- The scope of the class or the enumeration that an expression names. -/
def ownerScope (e : ExprId) : Pass (Option ScopeId) := do
  match (← node e).kind with
  | .name name known =>
    match ← standsFor name known with
    | some (.classDecl c) =>
      let scope ← classScope c
      bindOwner e name (.classDecl c) (.classStorage c)
      return some scope
    | some (.enumDecl d) =>
      let scope ← enumScope d
      bindOwner e name (.enumDecl d) (.enumeration d)
      return some scope
    | _ => return none
  | _ => return none

end Ci.Resolve
