-- The places of a program where types have to fit. An expression stands for a value
-- or for a type, and a place is reached from the declarations that hold it. What has
-- to fit at a place is said in terms of the types that are recorded.
import Ci.Program.Shape
import Ci.Proofs.Program.Parts
import Mathlib.Logic.Relation

namespace Ci

/-! ## Places -/

/-- Something that stands in a program, and what it is taken for. -/
inductive Site where
  | classDecl (c : ClassId)
  | enumDecl (e : EnumId)
  | const (k : ConstId)
  | field (f : FieldId)
  | method (m : MethodId)
  /-- A parameter, which is given its value by a call. -/
  | param (v : VarId)
  /-- A variable with the value that it starts with. -/
  | var (v : VarId)
  | stmt (x : StmtId)
  /-- An expression that stands for a value. -/
  | value (e : ExprId)
  /-- An expression that stands for a type. -/
  | type (e : ExprId)
  /-- What follows the word for an allocation. -/
  | allocated (e : ExprId)
deriving DecidableEq, Repr

/-- What a node is taken for by the statement or the declaration that holds it. -/
def Node.site : Node → Site
  | .classDecl c => .classDecl c
  | .enumDecl e => .enumDecl e
  | .const k => .const k
  | .field f => .field f
  | .method m => .method m
  | .var v => .var v
  | .stmt x => .stmt x
  | .expr e => .value e

namespace Expr

/-- What an expression holds that stands for a value. -/
def valueSites : Expr → List Site
  | .literal _ | .name _ _ => []
  | .before .new inner => [.allocated inner]
  | .before _ inner | .after _ inner => [.value inner]
  | .binary _ left right => .value left :: right.exprs.map .value
  | .conditional c a b => [.value c, .value a, .value b]
  | .collection items => items.map .value
  | .var v => [.var v]

/-- What an expression holds that stands for a type. The bounds of a range and the length of an
array are values. -/
def typeSites : Expr → List Site
  | .after _ inner => [.type inner]
  | .binary .index left right => .type left :: right.exprs.map .value
  | .binary .call _ _ => []
  | .binary _ left right => .value left :: right.exprs.map .value
  | .before _ inner => [.value inner]
  | _ => []

/-- What an expression holds that is allocated: an array whose length is a value, or an object. -/
def allocatedSites (e : ExprId) : Expr → List Site
  | .binary .index left (.expr length) => [.type left, .value length]
  | _ => [.type e]

end Expr

namespace Program

/-- What stands at a place, slot by slot. -/
def holds (q : Program) : Site → List Site
  | .classDecl c => (q.parts (.classDecl c)).map Node.site
  | .enumDecl e => (q.parts (.enumDecl e)).map Node.site
  | .stmt x => (q.parts (.stmt x)).map Node.site
  | .const k => (q.consts.get? k).elim [] fun d =>
    d.typeExpr.toList.map .type ++ d.value.toList.map .value
  | .field f => (q.fields.get? f).elim [] fun d => [.type d.typeExpr]
  | .method m => (q.methods.get? m).elim [] fun d =>
    d.typeExpr.toList.map .type ++ d.params.map .param ++ d.body.toList.map .stmt
  | .param v => (q.vars.get? v).elim [] fun d => [.type d.typeExpr]
  | .var v => (q.vars.get? v).elim [] fun d => .type d.typeExpr :: d.value.toList.map .value
  | .value e => (q.exprs.get? e).elim [] fun n => n.kind.valueSites
  | .type e => (q.exprs.get? e).elim [] fun n => n.kind.typeSites
  | .allocated e => (q.exprs.get? e).elim [] fun n => n.kind.allocatedSites e

/-- A place is another one or lies inside it. -/
def Holds (q : Program) : Site → Site → Prop := Relation.ReflTransGen fun a b => b ∈ q.holds a

/-- The declarations that no other one holds. -/
def roots (q : Program) : List Site :=
  q.classes.handles.map .classDecl ++ q.enums.handles.map .enumDecl ++ q.globals.map .const

/-- A place that lies in one of the declarations. -/
def Reachable (q : Program) (a : Site) : Prop := ∃ root ∈ q.roots, q.Holds root a

/-- Something is the case at a place and at all places inside it. -/
def Everywhere (q : Program) (P : Site → Prop) (a : Site) : Prop := ∀ b, q.Holds a b → P b

/-! ## What fits -/

/-- The type that is recorded for an expression. -/
def ty? (q : Program) (e : ExprId) : Option Ty := (q.exprs.get? e).bind (·.ty)

/-- The type of an expression may stand where another type is expected. -/
def Fits (q : Program) (e : ExprId) (expected : Ty) : Prop :=
  ∃ t, q.ty? e = some t ∧ q.assignable t expected = .ok true

/-- One can assign to an expression. -/
inductive Target (q : Program) (e : ExprId) : Prop
  /-- A name or the access to a member that stands for a variable. -/
  | var {v : VarId} (symbol : q.symbolOf e = .ok (some (.var v)))
  /-- A name or the access to a member that stands for a field. -/
  | field {f : FieldId} (symbol : q.symbolOf e = .ok (some (.field f)))
  /-- An item of an array. -/
  | item {n : ExprNode} {left : ExprId} {right : Operand} {t : Ty} (node : q.exprs.get? e = some n)
      (kind : n.kind = .binary .index left right) (type : q.ty? left = some t)
      (array : t.isArray = true)

/-- An argument may stand for a parameter. -/
def ArgumentFits (q : Program) (arg : ExprId) (param : VarId) : Prop :=
  ∃ d t, q.vars.get? param = some d ∧ d.ty = some t ∧ q.Fits arg t

/-- What is called is a method, with as many arguments as it has parameters, each of which may
stand for its parameter. -/
def CallFits (q : Program) (callee : ExprId) (args : List ExprId) : Prop :=
  ∃ m d, q.symbolOf callee = .ok (some (.method m)) ∧ q.methods.get? m = some d ∧
    args.length = d.params.length ∧ List.Forall₂ q.ArgumentFits args d.params

/-- What has to fit in an expression that stands for a value. -/
def ExprFits (q : Program) : Expr → Prop
  | .binary .call callee (.args args) => q.CallFits callee args
  | .binary .assign left (.expr right) => q.Target left ∧ ∃ t, q.ty? left = some t ∧ q.Fits right t
  | .binary (.update _) left (.expr _) => q.Target left
  | .binary .condAnd left (.expr right) | .binary .condOr left (.expr right) =>
    q.ty? left = some .bool ∧ q.ty? right = some .bool
  | .binary .call _ _ | .binary .assign _ _ | .binary (.update _) _ _ | .binary .condAnd _ _
  | .binary .condOr _ _ => False
  | .before .not inner => q.ty? inner = some .bool
  | .before .increment inner | .before .decrement inner => q.Target inner
  | .after _ inner => q.Target inner
  | .conditional c _ _ => q.ty? c = some .bool
  | _ => True

/-- What has to fit in a statement. -/
def StmtFits (q : Program) : Stmt → Prop
  | .ifThen c _ _ | .whileLoop c _ | .doWhile _ c => q.ty? c = some .bool
  | .forLoop _ c _ _ => ∀ e ∈ c, q.ty? e = some .bool
  | .throw value => q.Fits value .stringPointer
  | _ => True

/-- What a method returns fits the type it is declared with: a value if and only if there is to be
one. -/
def ReturnFits (q : Program) (declared : Option Ty) : Option ExprId → Prop
  | none => declared = some .void
  | some value => ∃ t, declared = some t ∧ t ≠ .void ∧ q.Fits value t

/-- What is returned at a place, if anything is. -/
def Returns (q : Program) (E : Option ExprId → Prop) : Site → Prop
  | .stmt x => ∀ n value, q.stmts.get? x = some n → n.kind = .ret value → E value
  | _ => True

/-- Everything that has to fit at a place. -/
def Checked (q : Program) : Site → Prop
  | .value e => ∀ n, q.exprs.get? e = some n → q.ExprFits n.kind
  | .stmt x => ∀ n, q.stmts.get? x = some n → q.StmtFits n.kind
  | .var v => ∀ d, q.vars.get? v = some d → ∀ e ∈ d.value, ∃ t, d.ty = some t ∧ q.Fits e t
  | .method m => ∀ d, q.methods.get? m = some d →
    q.Everywhere (q.Returns (q.ReturnFits d.ty)) (.method m)
  | _ => True

/-! ## From place to place -/

variable {q : Program} {P P' : Site → Prop} {a b : Site}

theorem Reachable.root (h : a ∈ q.roots) : q.Reachable a := ⟨a, h, .refl⟩

theorem Reachable.tail (h : q.Reachable a) (hb : b ∈ q.holds a) : q.Reachable b := by
  obtain ⟨root, hroot, hholds⟩ := h
  exact ⟨root, hroot, hholds.tail hb⟩

theorem Everywhere.intro (ha : P a) (h : ∀ b ∈ q.holds a, q.Everywhere P b) : q.Everywhere P a := by
  intro b hb
  rcases Relation.ReflTransGen.cases_head hb with rfl | ⟨c, hc, hcb⟩
  · exact ha
  · exact h c hc b hcb

theorem Everywhere.mono (h : q.Everywhere P a) (hP : ∀ b, P b → P' b) : q.Everywhere P' a :=
  fun b hb => hP b (h b hb)

end Program

end Ci
