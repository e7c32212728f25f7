-- Building a program part by part. Every builder gives the handle of the new
-- part and the program that holds it.
import Ci.Program.Query

namespace Ci.Program

/-! ## Files, expressions and statements -/

/-- Adds a source file. -/
def addFile (p : Program) (path : String) : FileId × Program :=
  (p.files.next, { p with files := p.files.push path })

/-- Adds an expression without a type. -/
def addExpr (p : Program) (line : UInt32) (kind : Expr) : ExprId × Program :=
  (p.exprs.next, { p with exprs := p.exprs.push ⟨kind, line, none⟩ })

/-- Adds a statement. -/
def addStmt (p : Program) (line : UInt32) (kind : Stmt) : StmtId × Program :=
  (p.stmts.next, { p with stmts := p.stmts.push ⟨kind, line⟩ })

/-- Adds a literal. -/
def addLiteral (p : Program) (line : UInt32) (value : Literal) : ExprId × Program :=
  p.addExpr line (.literal value)

/-- Adds a name that stands for nothing yet. -/
def addName (p : Program) (line : UInt32) (name : String) : ExprId × Program :=
  p.addExpr line (.name name none)

/-- Adds an operator between two expressions. -/
def addBinary (p : Program) (line : UInt32) (op : BinaryOp) (left right : ExprId) :
    ExprId × Program :=
  p.addExpr line (.binary op left (.expr right))

/-- Adds the access to a member, with the name of the member before it. -/
def addMember (p : Program) (line : UInt32) (object : ExprId) (name : String) :
    ExprId × Program :=
  let (member, p) := p.addName line name
  p.addBinary line .dot object member

/-- Adds a call. -/
def addCall (p : Program) (line : UInt32) (callee : ExprId) (args : List ExprId) :
    ExprId × Program :=
  p.addExpr line (.binary .call callee (.args args))

/-- Adds an index, or the empty brackets of an array type. -/
def addIndex (p : Program) (line : UInt32) (base : ExprId) (index : Option ExprId) :
    ExprId × Program :=
  p.addExpr line (.binary .index base (index.elim .none .expr))

/-! ## Variables -/

/-- Adds a variable or a parameter. -/
def addVar (p : Program) (line : UInt32) (name : String) (typeExpr : ExprId)
    (value : Option ExprId) : VarId × Program :=
  (p.vars.next, { p with vars := p.vars.push ⟨name, line, typeExpr, value, none⟩ })

/-- Adds a variable and the expression that declares it. -/
def addLocal (p : Program) (line : UInt32) (name : String) (typeExpr : ExprId)
    (value : Option ExprId) : ExprId × Program :=
  let (v, p) := p.addVar line name typeExpr value
  p.addExpr line (.var v)

/-! ## Declarations -/

/-- Adds a class without members. -/
def addClass (p : Program) (file : FileId) (line : UInt32) (name : String)
    (baseName : Option String) : ClassId × Program :=
  let c : ClassDecl := ⟨name, file, line, false, .normal, baseName, none, [], [], [], .unvisited⟩
  (p.classes.next, { p with classes := p.classes.push c })

/-- Adds an enumeration without values. -/
def addEnum (p : Program) (file : FileId) (line : UInt32) (name : String) : EnumId × Program :=
  (p.enums.next, { p with enums := p.enums.push ⟨name, file, line, false, []⟩ })

/-- Adds a constant and lists it with its owner. -/
def addConst (p : Program) (owner : Owner) (line : UInt32) (name : String)
    (typeExpr value : Option ExprId) : Query (ConstId × Program) := do
  let k := p.consts.next
  let d : Const := ⟨name, line, owner, .hidden, typeExpr, value, .unvisited, none⟩
  let p := { p with consts := p.consts.push d }
  match owner with
  | .program _ => return (k, { p with globals := p.globals ++ [k] })
  | .classDecl c => do
    let d ← p.classes.fetch c
    return (k, { p with classes := p.classes.set c { d with consts := d.consts ++ [k] } })
  | .enumDecl e => do
    let d ← p.enums.fetch e
    return (k, { p with enums := p.enums.set e { d with values := d.values ++ [k] } })
  | .body => return (k, p)

/-- Adds a field to a class. -/
def addField (p : Program) (c : ClassId) (line : UInt32) (name : String) (typeExpr : ExprId) :
    Query (FieldId × Program) := do
  let f := p.fields.next
  let d ← p.classes.fetch c
  return (f, { p with
    fields := p.fields.push ⟨name, line, .hidden, typeExpr, none⟩
    classes := p.classes.set c { d with fields := d.fields ++ [f] } })

/-- Adds a method to a class. -/
def addMethod (p : Program) (c : ClassId) (line : UInt32) (name : String)
    (typeExpr : Option ExprId) (params : List VarId) (body : Option StmtId) :
    Query (MethodId × Program) := do
  let m := p.methods.next
  let d ← p.classes.fetch c
  return (m, { p with
    methods := p.methods.push ⟨name, line, .exposed, .normal, false, typeExpr, params, body, none⟩
    classes := p.classes.set c { d with methods := d.methods ++ [m] } })

/-! ## Changes -/

/-- Changes an expression in its slot. -/
def updateExpr (p : Program) (e : ExprId) (f : ExprNode → ExprNode) : Query Program := do
  return { p with exprs := ← p.exprs.update e f }

/-- Changes a statement in its slot. -/
def updateStmt (p : Program) (s : StmtId) (f : StmtNode → StmtNode) : Query Program := do
  return { p with stmts := ← p.stmts.update s f }

/-- Changes a class. -/
def updateClass (p : Program) (c : ClassId) (f : ClassDecl → ClassDecl) : Query Program := do
  return { p with classes := ← p.classes.update c f }

/-- Changes a constant. -/
def updateConst (p : Program) (k : ConstId) (f : Const → Const) : Query Program := do
  return { p with consts := ← p.consts.update k f }

/-- Changes a field. -/
def updateField (p : Program) (m : FieldId) (f : Field → Field) : Query Program := do
  return { p with fields := ← p.fields.update m f }

/-- Changes a method. -/
def updateMethod (p : Program) (m : MethodId) (f : Method → Method) : Query Program := do
  return { p with methods := ← p.methods.update m f }

/-- Changes a variable. -/
def updateVar (p : Program) (v : VarId) (f : Var → Var) : Query Program := do
  return { p with vars := ← p.vars.update v f }

/-- Puts another expression in a slot, which keeps its line and its type. -/
def replaceExpr (p : Program) (e : ExprId) (kind : Expr) : Query Program :=
  p.updateExpr e fun node => { node with kind }

/-- Records the type of an expression. -/
def recordTy (p : Program) (e : ExprId) (t : Ty) : Query Program :=
  p.updateExpr e fun node => { node with ty := some t }

/-- Sets the base of a class. -/
def setBase (p : Program) (c : ClassId) (base : Option ClassId) : Query Program :=
  p.updateClass c fun d => { d with base }

/-- Sets how far the resolution of a class has come. -/
def setClassStatus (p : Program) (c : ClassId) (status : Status) : Query Program :=
  p.updateClass c fun d => { d with status }

/-- Sets how far the resolution of a constant has come. -/
def setConstStatus (p : Program) (k : ConstId) (status : Status) : Query Program :=
  p.updateConst k fun d => { d with status }

/-- Adds a literal that has its type. -/
def addTyped (p : Program) (line : UInt32) (value : Literal) : ExprId × Program :=
  (p.exprs.next, { p with exprs := p.exprs.push ⟨.literal value, line, some value.ty⟩ })

/-- Adds a class at the end of the order of classes. -/
def addOrdered (p : Program) (c : ClassId) : Program := { p with ordered := p.ordered ++ [c] }

end Ci.Program
