-- The parts of a program as a graph. A node holds other nodes in its slots, and
-- the outline of a part is what is left of it without what resolution fills in.
import Ci.Proofs.Program.Arena

namespace Ci

/-! ## Nodes -/

/-- A part of a program that stands in a slot of its own. -/
inductive Node where
  | classDecl (c : ClassId)
  | enumDecl (e : EnumId)
  | const (k : ConstId)
  | field (f : FieldId)
  | method (m : MethodId)
  | var (v : VarId)
  | stmt (x : StmtId)
  | expr (e : ExprId)
deriving DecidableEq, Repr

/-- What an expression holds. -/
def Expr.parts : Expr → List Node
  | .var v => [.var v]
  | kind => kind.children.map .expr

/-- What a case holds. -/
def Case.parts (c : Case) : List Node := c.values.map .expr ++ c.body.map .stmt

/-- What a statement holds. -/
def Stmt.parts : Stmt → List Node
  | .block body => body.map .stmt
  | .ifThen cond onTrue onFalse => .expr cond :: .stmt onTrue :: onFalse.toList.map .stmt
  | .whileLoop cond body => [.expr cond, .stmt body]
  | .doWhile body cond => [.stmt body, .expr cond]
  | .forLoop start cond advance body =>
    (start.toList ++ cond.toList ++ advance.toList).map .expr ++ [.stmt body]
  | .switch value cases default =>
    .expr value :: (cases.flatMap Case.parts ++ (default.getD []).map .stmt)
  | .ret value => value.toList.map .expr
  | .leave | .next => []
  | .throw value | .delete value | .expr value => [.expr value]
  | .const k => [.const k]

/-- What a class holds. -/
def ClassDecl.parts (d : ClassDecl) : List Node :=
  d.consts.map .const ++ d.fields.map .field ++ d.methods.map .method

/-- What an enumeration holds. -/
def EnumDecl.parts (d : EnumDecl) : List Node := d.values.map .const

/-- What a constant holds. -/
def Const.parts (d : Const) : List Node := (d.typeExpr.toList ++ d.value.toList).map .expr

/-- What a field holds. -/
def Field.parts (d : Field) : List Node := [.expr d.typeExpr]

/-- What a method holds. -/
def Method.parts (d : Method) : List Node :=
  d.typeExpr.toList.map .expr ++ d.params.map .var ++ d.body.toList.map .stmt

/-- What a variable holds. -/
def Var.parts (d : Var) : List Node := .expr d.typeExpr :: d.value.toList.map .expr

namespace Program

variable {p q : Program}

/-- What a node of a program holds, slot by slot. A handle that leads nowhere holds nothing. -/
def parts (p : Program) : Node → List Node
  | .classDecl c => (p.classes.get? c).elim [] ClassDecl.parts
  | .enumDecl e => (p.enums.get? e).elim [] EnumDecl.parts
  | .const k => (p.consts.get? k).elim [] Const.parts
  | .field f => (p.fields.get? f).elim [] Field.parts
  | .method m => (p.methods.get? m).elim [] Method.parts
  | .var v => (p.vars.get? v).elim [] Var.parts
  | .stmt x => (p.stmts.get? x).elim [] fun n => n.kind.parts
  | .expr e => (p.exprs.get? e).elim [] fun n => n.kind.parts

theorem parts_expr {e : ExprId} {n : ExprNode} (h : p.exprs.get? e = some n) :
    p.parts (.expr e) = n.kind.parts := by simp [parts, h]

theorem parts_var {v : VarId} {d : Var} (h : p.vars.get? v = some d) :
    p.parts (.var v) = .expr d.typeExpr :: d.value.toList.map .expr := by simp [parts, h, Var.parts]

theorem parts_const {k : ConstId} {d : Const} (h : p.consts.get? k = some d) :
    p.parts (.const k) = (d.typeExpr.toList ++ d.value.toList).map .expr := by
  simp [parts, h, Const.parts]

theorem parts_stmt {x : StmtId} {n : StmtNode} (h : p.stmts.get? x = some n) :
    p.parts (.stmt x) = n.kind.parts := by simp [parts, h]

/-- The expression is a literal that has its type. -/
def TypedLiteral (p : Program) (e : ExprId) : Prop :=
  ∃ v line, p.exprs.get? e = some ⟨.literal v, line, some v.ty⟩

end Program

/-! ## Outlines -/

/-- A handle that stands for any handle. -/
def Handle.any {k : Kind} : Handle k := ⟨0⟩

/-- An operand without its handles. -/
def Operand.outline : Operand → Operand
  | .none => .none
  | .expr _ => .expr .any
  | .args es => .args (es.map fun _ => .any)

/-- An expression without what its name stands for and without the handles of its parts. -/
def Expr.outline : Expr → Expr
  | .literal value => .literal value
  | .name text _ => .name text none
  | .before op _ => .before op .any
  | .after op _ => .after op .any
  | .binary op _ right => .binary op .any right.outline
  | .conditional _ _ _ => .conditional .any .any .any
  | .collection items => .collection (items.map fun _ => .any)
  | .var v => .var v

/-- A case without the handles of its labels. -/
def Case.outline (c : Case) : Case := { c with values := c.values.map fun _ => .any }

/-- A statement without the handles of its expressions. -/
def Stmt.outline : Stmt → Stmt
  | .block body => .block body
  | .ifThen _ onTrue onFalse => .ifThen .any onTrue onFalse
  | .whileLoop _ body => .whileLoop .any body
  | .doWhile body _ => .doWhile body .any
  | .forLoop start cond advance body =>
    .forLoop (start.map fun _ => .any) (cond.map fun _ => .any) (advance.map fun _ => .any) body
  | .switch _ cases default => .switch .any (cases.map Case.outline) default
  | .ret value => .ret (value.map fun _ => .any)
  | .leave => .leave
  | .next => .next
  | .throw _ => .throw .any
  | .delete _ => .delete .any
  | .expr _ => .expr .any
  | .const k => .const k

/-- A constant without its value, its type and how far its resolution has come. -/
def Const.outline (d : Const) : Const :=
  { d with value := d.value.map fun _ => .any, status := .unvisited, ty := none }

/-- A variable without its value and its type. -/
def Var.outline (d : Var) : Var := { d with value := d.value.map fun _ => .any, ty := none }

/-- The expression is a literal. -/
def Expr.isLiteral : Expr → Bool
  | .literal _ => true
  | _ => false

attribute [simp] Operand.exprs Expr.children Expr.parts Operand.outline Expr.outline Expr.isLiteral

theorem Expr.isLiteral_outline (kind : Expr) : kind.outline.isLiteral = kind.isLiteral := by
  cases kind <;> rfl

end Ci
