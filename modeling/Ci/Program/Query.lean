-- Questions to a program. A question follows handles, so it has no answer where
-- a handle leads nowhere, and none where the handles run in a circle.
import Ci.Program.Basic

namespace Ci

/-- What is wrong with the handles of a program. -/
inductive Broken where
  /-- A handle leads nowhere. -/
  | dangling
  /-- The handles lead back to where they came from. -/
  | cyclic
  /-- No handle is left for another part. -/
  | full
deriving DecidableEq, Repr

/-- The answer to a question. -/
abbrev Query (α : Type) := Except Broken α

/-- The part that a handle leads to. -/
def Arena.fetch {k : Kind} {α : Type} (a : Arena k α) (h : Handle k) : Query α :=
  match a.get? h with
  | some x => .ok x
  | none => .error .dangling

/-- Changes the part that a handle leads to. -/
def Arena.update {k : Kind} {α : Type} (a : Arena k α) (h : Handle k) (f : α → α) :
    Query (Arena k α) := do
  return a.set h (f (← a.fetch h))

namespace Program

/-! ## Expressions -/

/-- The type recorded for an expression. -/
def typeOf (p : Program) (e : ExprId) : Query (Option Ty) := do
  return (← p.exprs.fetch e).ty

/-- The type of a value. Without a type recorded there is no value. -/
def valueTy (p : Program) (e : ExprId) : Query Ty := do
  return (← p.typeOf e).getD .void

/-- The value of an expression that is a literal. -/
def literal? (p : Program) (e : ExprId) : Query (Option Literal) := do
  match (← p.exprs.fetch e).kind with
  | .literal v => return some v
  | _ => return none

/-! ## Files -/

/-- The path of a file. A file that is not there has the empty path. -/
def path (p : Program) (f : FileId) : String := (p.files.get? f).getD ""

/-! ## Classes -/

/-- The first class with a name. -/
def findClass (p : Program) (name : String) : Option ClassId :=
  p.classes.handles.find? fun c => (p.classes.get? c).any fun d => d.name == name

/-- Looks for a class on the way from another class to its farthest base. The first argument
bounds the way. -/
def climbs (p : Program) (ancestor : ClassId) : Nat → ClassId → Query Bool
  | 0, _ => .error .cyclic
  | n + 1, c =>
    if c = ancestor then .ok true
    else do
      match (← p.classes.fetch c).base with
      | none => return false
      | some b => climbs p ancestor n b

/-- A class is another one or derives from it. A chain of bases that does not run in a circle
is no longer than the list of classes. -/
def derivesFrom (p : Program) (c ancestor : ClassId) : Query Bool :=
  p.climbs ancestor (p.classes.size + 1) c

/-! ## Text of types -/

/-- The mark of a pointer through which one may write. -/
def writableMark (writable : Bool) : String := if writable then "!" else ""

/-- A type as it stands in messages. -/
def describe (p : Program) : Ty → Query String
  | .void => return "void"
  | .null => return "null"
  | .bool => return "bool"
  | .char => return "char"
  | .integer .int32 => return "int"
  | .integer .int64 => return "long"
  | .floating .single => return "float"
  | .floating .double => return "double"
  | .range i => return i.text
  | .stringPointer => return "string"
  | .stringStorage => return "string()"
  | .arrayPointer t writable => return (← p.describe t) ++ "[]" ++ writableMark writable
  | .arrayStorage t n => return (← p.describe t) ++ "[" ++ toString n.toNat ++ "]"
  | .classPointer c writable => return (← p.classes.fetch c).name ++ writableMark writable
  | .classStorage c => return (← p.classes.fetch c).name ++ "()"
  | .enumeration e => return (← p.enums.fetch e).name

/-! ## Coercion -/

/-- A pointer may lose the right to write, and never gains it. -/
def keepsRight (got expected : Bool) : Bool := got || !expected

/-- A value of one type may stand where another type is expected. Values only widen. -/
def assignable (p : Program) (got expected : Ty) : Query Bool :=
  if got = expected then .ok true
  else match got, expected with
    | .range g, .range e => .ok (e.contains g)
    | got, .floating .double => .ok got.isNumeric
    | got, .floating .single => .ok (got.isNumeric && got != .double)
    | got, .integer .int64 => .ok got.isInteger
    | got, .integer .int32 => .ok (got.isInteger && !got.isLong)
    | .stringStorage, .stringPointer => .ok true
    | .null, expected => .ok expected.isNullable
    | .classPointer c writable, .classPointer d wanted => do
      return (← p.derivesFrom c d) && keepsRight writable wanted
    | .classStorage c, .classPointer d _ => p.derivesFrom c d
    | .arrayStorage g _, .arrayPointer e _ => .ok (g == e)
    | .arrayPointer g writable, .arrayPointer e wanted =>
      .ok (g == e && keepsRight writable wanted)
    | .arrayStorage g n, .arrayStorage e m => if n = m then p.assignable g e else .ok false
    | _, _ => .ok false

/-! ## Intervals -/

/-- Every interval in the types of a program holds a word. -/
def wellRanged (p : Program) : Bool :=
  let fits : Option Ty → Bool := fun t => t.all Ty.wellRanged
  let named : Expr → Bool
    | .name _ (some (.type t)) => t.wellRanged
    | _ => true
  p.exprs.toList.all (fun e => named e.kind && fits e.ty)
    && p.consts.toList.all (fun k => fits k.ty)
    && p.fields.toList.all (fun f => fits f.ty)
    && p.methods.toList.all (fun m => fits m.ty)
    && p.vars.toList.all (fun v => fits v.ty)

end Program

end Ci
