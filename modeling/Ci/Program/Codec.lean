-- The JSON form of programs, in both directions. What a field holds by default
-- may be left out. Whether the fields of a variant may be a list is a parameter
-- of the reading side.
import Ci.Program.Basic
import Ci.Ty.Codec

namespace Ci

/-! ## Shorthands -/

namespace Json

def ofHandles {k : Kind} (hs : List (Handle k)) : Json := ofList Handle.toJson hs

/-- A handle that may be missing. -/
def ofHandle? {k : Kind} (h : Option (Handle k)) : Json := ofOption Handle.toJson h

/-- A type that may not be known yet. -/
def ofTy? (t : Option Ty) : Json := ofOption Ty.toJson t

/-- The value as a list of handles. -/
def toHandles? {k : Kind} (j : Json) : Option (List (Handle k)) := j.toList? Handle.ofJson?

/-- The value as a type that may not be known yet. -/
def toTy? (layout : Layout) (j : Json) : Option (Option Ty) := j.toOption? (Ty.ofJson? layout)

end Json

/-! ## Named values -/

namespace Status

def all : List Status := [unvisited, inProgress, resolved]

def name : Status → String
  | unvisited => "Unvisited"
  | inProgress => "InProgress"
  | resolved => "Resolved"

def ofJson? (j : Json) : Option Status := j.toName? all name

end Status

namespace Visibility

def all : List Visibility := [hidden, internal, guarded, exposed]

def name : Visibility → String
  | hidden => "Private"
  | internal => "Internal"
  | guarded => "Protected"
  | exposed => "Public"

def ofJson? (j : Json) : Option Visibility := j.toName? all name

end Visibility

namespace CallKind

def all : List CallKind := [static, normal, abstract, virtual, override, sealed]

def name : CallKind → String
  | static => "Static"
  | normal => "Normal"
  | abstract => "Abstract"
  | virtual => "Virtual"
  | override => "Override"
  | sealed => "Sealed"

def ofJson? (j : Json) : Option CallKind := j.toName? all name

end CallKind

/-! ## Expressions -/

namespace Literal

def toJson : Literal → Json
  | null => .string "Null"
  | bool b => .variant "Bool" (.bool b)
  | int n => .variant "Int" (.integer n.toInt)
  | double x => .variant "Double" (.double x)
  | string s => .variant "String" (.string s)

def ofJson? (j : Json) : Option Literal :=
  match j.toVariant? with
  | some ("Null", c) => if Json.isBare c then some null else none
  | some ("Bool", some c) => c.toBool?.map bool
  | some ("Int", some c) => c.toInt64?.map int
  | some ("Double", some c) => c.toDouble?.map double
  | some ("String", some c) => c.toString?.map string
  | _ => none

end Literal

namespace Symbol

def toJson : Symbol → Json
  | type t => .variant "Type" t.toJson
  | classDecl c => .variant "Class" c.toJson
  | enumDecl e => .variant "Enum" e.toJson
  | const k => .variant "Const" k.toJson
  | field f => .variant "Field" f.toJson
  | method m => .variant "Method" m.toJson
  | var v => .variant "Var" v.toJson
  | stringLength => .string "StringLength"

def ofJson? (layout : Json.Layout) (j : Json) : Option Symbol :=
  match j.toVariant? with
  | some ("Type", some c) => (Ty.ofJson? layout c).map type
  | some ("Class", some c) => (Handle.ofJson? c).map classDecl
  | some ("Enum", some c) => (Handle.ofJson? c).map enumDecl
  | some ("Const", some c) => (Handle.ofJson? c).map const
  | some ("Field", some c) => (Handle.ofJson? c).map field
  | some ("Method", some c) => (Handle.ofJson? c).map method
  | some ("Var", some c) => (Handle.ofJson? c).map var
  | some ("StringLength", c) => if Json.isBare c then some stringLength else none
  | _ => none

end Symbol

namespace Operand

def toJson : Operand → Json
  | none => .string "None"
  | expr e => .variant "Expr" e.toJson
  | args es => .variant "Args" (.ofHandles es)

def ofJson? (j : Json) : Option Operand :=
  match j.toVariant? with
  | some ("None", c) => if Json.isBare c then some none else Option.none
  | some ("Expr", some c) => (Handle.ofJson? c).map expr
  | some ("Args", some c) => c.toHandles?.map args
  | _ => Option.none

end Operand

namespace Expr

def toJson : Expr → Json
  | literal v => .variant "Literal" v.toJson
  | name s symbol =>
    .variant "Symbol" (.object [("name", .string s), ("symbol", .ofOption Symbol.toJson symbol)])
  | before op e => .variant "Prefix" (.object [("op", .string op.name), ("inner", e.toJson)])
  | after op e => .variant "Postfix" (.object [("op", .string op.name), ("inner", e.toJson)])
  | binary op l r =>
    .variant "Binary" (.object [("op", .string op.name), ("left", l.toJson), ("right", r.toJson)])
  | conditional c t f =>
    .variant "Conditional"
      (.object [("cond", c.toJson), ("on_true", t.toJson), ("on_false", f.toJson)])
  | collection es => .variant "Collection" (.object [("items", .ofHandles es)])
  | var v => .variant "Var" v.toJson

def ofJson? (layout : Json.Layout) (j : Json) : Option Expr :=
  match j.toVariant? with
  | some ("Literal", some c) => (Literal.ofJson? c).map literal
  | some ("Symbol", some c) => do
    let r ← c.toRecord? ["name", "symbol"]
    return name (← r.required "name" Json.toString?)
      (← r.defaulted "symbol" none (Json.toOption? (Symbol.ofJson? layout)))
  | some ("Prefix", some c) => do
    let r ← c.toContent? layout ["op", "inner"]
    return before (← r.required "op" (Json.toName? PrefixOp.all PrefixOp.name))
      (← r.required "inner" Handle.ofJson?)
  | some ("Postfix", some c) => do
    let r ← c.toContent? layout ["op", "inner"]
    return after (← r.required "op" (Json.toName? PostfixOp.all PostfixOp.name))
      (← r.required "inner" Handle.ofJson?)
  | some ("Binary", some c) => do
    let r ← c.toContent? layout ["op", "left", "right"]
    return binary (← r.required "op" (Json.toName? BinaryOp.all BinaryOp.name))
      (← r.required "left" Handle.ofJson?) (← r.required "right" Operand.ofJson?)
  | some ("Conditional", some c) => do
    let r ← c.toContent? layout ["cond", "on_true", "on_false"]
    return conditional (← r.required "cond" Handle.ofJson?)
      (← r.required "on_true" Handle.ofJson?) (← r.required "on_false" Handle.ofJson?)
  | some ("Collection", some c) => do
    let r ← c.toContent? layout ["items"]
    return collection (← r.required "items" Json.toHandles?)
  | some ("Var", some c) => (Handle.ofJson? c).map var
  | _ => none

end Expr

namespace ExprNode

def toJson (e : ExprNode) : Json :=
  .object [("kind", e.kind.toJson), ("line", .integer e.line.toNat), ("ty", .ofTy? e.ty)]

def ofJson? (layout : Json.Layout) (j : Json) : Option ExprNode := do
  let r ← j.toRecord? ["kind", "line", "ty"]
  return ⟨← r.required "kind" (Expr.ofJson? layout), ← r.required "line" Json.toUInt32?,
    ← r.defaulted "ty" none (Json.toTy? layout)⟩

end ExprNode

/-! ## Statements -/

namespace Case

def toJson (c : Case) : Json :=
  .object [("values", .ofHandles c.values), ("body", .ofHandles c.body)]

def ofJson? (j : Json) : Option Case := do
  let r ← j.toRecord? ["values", "body"]
  return ⟨← r.required "values" Json.toHandles?, ← r.required "body" Json.toHandles?⟩

end Case

namespace Stmt

def toJson : Stmt → Json
  | block body => .variant "Block" (.ofHandles body)
  | ifThen c t f =>
    .variant "If" (.object [("cond", c.toJson), ("on_true", t.toJson), ("on_false", .ofHandle? f)])
  | whileLoop c body => .variant "While" (.object [("cond", c.toJson), ("body", body.toJson)])
  | doWhile body c => .variant "DoWhile" (.object [("body", body.toJson), ("cond", c.toJson)])
  | forLoop s c a body =>
    .variant "For" (.object [("init", .ofHandle? s), ("cond", .ofHandle? c),
      ("advance", .ofHandle? a), ("body", body.toJson)])
  | switch v cases default =>
    .variant "Switch" (.object [("value", v.toJson), ("cases", .ofList Case.toJson cases),
      ("default", .ofOption .ofHandles default)])
  | ret v => .variant "Return" (.ofHandle? v)
  | leave => .string "Break"
  | next => .string "Continue"
  | throw v => .variant "Throw" v.toJson
  | delete v => .variant "Delete" v.toJson
  | expr v => .variant "Expr" v.toJson
  | const k => .variant "Const" k.toJson

def ofJson? (layout : Json.Layout) (j : Json) : Option Stmt :=
  match j.toVariant? with
  | some ("Block", some c) => c.toHandles?.map block
  | some ("If", some c) => do
    let r ← c.toContent? layout ["cond", "on_true", "on_false"]
    return ifThen (← r.required "cond" Handle.ofJson?) (← r.required "on_true" Handle.ofJson?)
      (← r.nullable "on_false" Handle.ofJson?)
  | some ("While", some c) => do
    let r ← c.toContent? layout ["cond", "body"]
    return whileLoop (← r.required "cond" Handle.ofJson?) (← r.required "body" Handle.ofJson?)
  | some ("DoWhile", some c) => do
    let r ← c.toContent? layout ["body", "cond"]
    return doWhile (← r.required "body" Handle.ofJson?) (← r.required "cond" Handle.ofJson?)
  | some ("For", some c) => do
    let r ← c.toContent? layout ["init", "cond", "advance", "body"]
    return forLoop (← r.nullable "init" Handle.ofJson?) (← r.nullable "cond" Handle.ofJson?)
      (← r.nullable "advance" Handle.ofJson?) (← r.required "body" Handle.ofJson?)
  | some ("Switch", some c) => do
    let r ← c.toContent? layout ["value", "cases", "default"]
    return switch (← r.required "value" Handle.ofJson?)
      (← r.required "cases" (Json.toList? Case.ofJson?)) (← r.nullable "default" Json.toHandles?)
  | some ("Return", some c) => (c.toOption? Handle.ofJson?).map ret
  | some ("Break", c) => if Json.isBare c then some leave else none
  | some ("Continue", c) => if Json.isBare c then some next else none
  | some ("Throw", some c) => (Handle.ofJson? c).map throw
  | some ("Delete", some c) => (Handle.ofJson? c).map delete
  | some ("Expr", some c) => (Handle.ofJson? c).map expr
  | some ("Const", some c) => (Handle.ofJson? c).map const
  | _ => none

end Stmt

namespace StmtNode

def toJson (s : StmtNode) : Json :=
  .object [("kind", s.kind.toJson), ("line", .integer s.line.toNat)]

def ofJson? (layout : Json.Layout) (j : Json) : Option StmtNode := do
  let r ← j.toRecord? ["kind", "line"]
  return ⟨← r.required "kind" (Stmt.ofJson? layout), ← r.required "line" Json.toUInt32?⟩

end StmtNode

/-! ## Declarations -/

namespace ClassDecl

def toJson (c : ClassDecl) : Json :=
  .object [("name", .string c.name), ("file", c.file.toJson), ("line", .integer c.line.toNat),
    ("is_public", .bool c.isPublic), ("call_type", .string c.callKind.name),
    ("base_name", .ofOption .string c.baseName), ("base", .ofHandle? c.base),
    ("consts", .ofHandles c.consts), ("fields", .ofHandles c.fields),
    ("methods", .ofHandles c.methods), ("status", .string c.status.name)]

def ofJson? (j : Json) : Option ClassDecl := do
  let r ← j.toRecord? ["name", "file", "line", "is_public", "call_type", "base_name", "base",
    "consts", "fields", "methods", "status"]
  return {
    name := ← r.required "name" Json.toString?
    file := ← r.required "file" Handle.ofJson?
    line := ← r.required "line" Json.toUInt32?
    isPublic := ← r.defaulted "is_public" false Json.toBool?
    callKind := ← r.defaulted "call_type" .normal CallKind.ofJson?
    baseName := ← r.nullable "base_name" Json.toString?
    base := ← r.defaulted "base" none (Json.toOption? Handle.ofJson?)
    consts := ← r.required "consts" Json.toHandles?
    fields := ← r.required "fields" Json.toHandles?
    methods := ← r.required "methods" Json.toHandles?
    status := ← r.defaulted "status" .unvisited Status.ofJson? }

end ClassDecl

namespace EnumDecl

def toJson (e : EnumDecl) : Json :=
  .object [("name", .string e.name), ("file", e.file.toJson), ("line", .integer e.line.toNat),
    ("is_public", .bool e.isPublic), ("values", .ofHandles e.values)]

def ofJson? (j : Json) : Option EnumDecl := do
  let r ← j.toRecord? ["name", "file", "line", "is_public", "values"]
  return {
    name := ← r.required "name" Json.toString?
    file := ← r.required "file" Handle.ofJson?
    line := ← r.required "line" Json.toUInt32?
    isPublic := ← r.defaulted "is_public" false Json.toBool?
    values := ← r.required "values" Json.toHandles? }

end EnumDecl

namespace Owner

def toJson : Owner → Json
  | program f => .variant "Program" f.toJson
  | classDecl c => .variant "Class" c.toJson
  | enumDecl e => .variant "Enum" e.toJson
  | body => .string "Local"

def ofJson? (j : Json) : Option Owner :=
  match j.toVariant? with
  | some ("Program", some c) => (Handle.ofJson? c).map program
  | some ("Class", some c) => (Handle.ofJson? c).map classDecl
  | some ("Enum", some c) => (Handle.ofJson? c).map enumDecl
  | some ("Local", c) => if Json.isBare c then some body else none
  | _ => none

end Owner

namespace Const

def toJson (k : Const) : Json :=
  .object [("name", .string k.name), ("line", .integer k.line.toNat), ("owner", k.owner.toJson),
    ("visibility", .string k.visibility.name), ("type_expr", .ofHandle? k.typeExpr),
    ("value", .ofHandle? k.value), ("status", .string k.status.name), ("ty", .ofTy? k.ty)]

def ofJson? (layout : Json.Layout) (j : Json) : Option Const := do
  let r ← j.toRecord? ["name", "line", "owner", "visibility", "type_expr", "value", "status", "ty"]
  return {
    name := ← r.required "name" Json.toString?
    line := ← r.required "line" Json.toUInt32?
    owner := ← r.required "owner" Owner.ofJson?
    visibility := ← r.defaulted "visibility" .hidden Visibility.ofJson?
    typeExpr := ← r.nullable "type_expr" Handle.ofJson?
    value := ← r.nullable "value" Handle.ofJson?
    status := ← r.defaulted "status" .unvisited Status.ofJson?
    ty := ← r.defaulted "ty" none (Json.toTy? layout) }

end Const

namespace Field

def toJson (f : Field) : Json :=
  .object [("name", .string f.name), ("line", .integer f.line.toNat),
    ("visibility", .string f.visibility.name), ("type_expr", f.typeExpr.toJson),
    ("ty", .ofTy? f.ty)]

def ofJson? (layout : Json.Layout) (j : Json) : Option Field := do
  let r ← j.toRecord? ["name", "line", "visibility", "type_expr", "ty"]
  return {
    name := ← r.required "name" Json.toString?
    line := ← r.required "line" Json.toUInt32?
    visibility := ← r.defaulted "visibility" .hidden Visibility.ofJson?
    typeExpr := ← r.required "type_expr" Handle.ofJson?
    ty := ← r.defaulted "ty" none (Json.toTy? layout) }

end Field

namespace Method

def toJson (m : Method) : Json :=
  .object [("name", .string m.name), ("line", .integer m.line.toNat),
    ("visibility", .string m.visibility.name), ("call_type", .string m.callKind.name),
    ("is_mutator", .bool m.isMutator), ("type_expr", .ofHandle? m.typeExpr),
    ("params", .ofHandles m.params), ("body", .ofHandle? m.body), ("ty", .ofTy? m.ty)]

def ofJson? (layout : Json.Layout) (j : Json) : Option Method := do
  let r ← j.toRecord? ["name", "line", "visibility", "call_type", "is_mutator", "type_expr",
    "params", "body", "ty"]
  return {
    name := ← r.required "name" Json.toString?
    line := ← r.required "line" Json.toUInt32?
    visibility := ← r.defaulted "visibility" .hidden Visibility.ofJson?
    callKind := ← r.defaulted "call_type" .normal CallKind.ofJson?
    isMutator := ← r.defaulted "is_mutator" false Json.toBool?
    typeExpr := ← r.nullable "type_expr" Handle.ofJson?
    params := ← r.required "params" Json.toHandles?
    body := ← r.nullable "body" Handle.ofJson?
    ty := ← r.defaulted "ty" none (Json.toTy? layout) }

end Method

namespace Var

def toJson (v : Var) : Json :=
  .object [("name", .string v.name), ("line", .integer v.line.toNat),
    ("type_expr", v.typeExpr.toJson), ("value", .ofHandle? v.value), ("ty", .ofTy? v.ty)]

def ofJson? (layout : Json.Layout) (j : Json) : Option Var := do
  let r ← j.toRecord? ["name", "line", "type_expr", "value", "ty"]
  return {
    name := ← r.required "name" Json.toString?
    line := ← r.required "line" Json.toUInt32?
    typeExpr := ← r.required "type_expr" Handle.ofJson?
    value := ← r.nullable "value" Handle.ofJson?
    ty := ← r.defaulted "ty" none (Json.toTy? layout) }

end Var

/-! ## Programs -/

namespace Arena

/-- The JSON form: the list of the parts. -/
def toJson {k : Kind} {α : Type} (item : α → Json) (a : Arena k α) : Json := .ofList item a.toList

def ofJson? {k : Kind} {α : Type} (item : Json → Option α) (j : Json) : Option (Arena k α) :=
  (j.toList? item).map ofList

end Arena

namespace Program

def toJson (p : Program) : Json :=
  .object [("files", p.files.toJson .string), ("exprs", p.exprs.toJson ExprNode.toJson),
    ("stmts", p.stmts.toJson StmtNode.toJson), ("classes", p.classes.toJson ClassDecl.toJson),
    ("enums", p.enums.toJson EnumDecl.toJson), ("consts", p.consts.toJson Const.toJson),
    ("fields", p.fields.toJson Field.toJson), ("methods", p.methods.toJson Method.toJson),
    ("vars", p.vars.toJson Var.toJson), ("globals", .ofHandles p.globals),
    ("ordered", .ofHandles p.ordered)]

def ofJson? (layout : Json.Layout) (j : Json) : Option Program := do
  let r ← j.toRecord? ["files", "exprs", "stmts", "classes", "enums", "consts", "fields",
    "methods", "vars", "globals", "ordered"]
  return {
    files := ← r.required "files" (Arena.ofJson? Json.toString?)
    exprs := ← r.required "exprs" (Arena.ofJson? (ExprNode.ofJson? layout))
    stmts := ← r.required "stmts" (Arena.ofJson? (StmtNode.ofJson? layout))
    classes := ← r.required "classes" (Arena.ofJson? ClassDecl.ofJson?)
    enums := ← r.required "enums" (Arena.ofJson? EnumDecl.ofJson?)
    consts := ← r.required "consts" (Arena.ofJson? (Const.ofJson? layout))
    fields := ← r.required "fields" (Arena.ofJson? (Field.ofJson? layout))
    methods := ← r.required "methods" (Arena.ofJson? (Method.ofJson? layout))
    vars := ← r.required "vars" (Arena.ofJson? (Var.ofJson? layout))
    globals := ← r.defaulted "globals" [] Json.toHandles?
    ordered := ← r.defaulted "ordered" [] Json.toHandles? }

end Program

end Ci
