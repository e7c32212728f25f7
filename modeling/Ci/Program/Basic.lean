-- Programs. Declarations, statements and expressions stand in arenas and refer
-- to each other by handles. Resolution fills in types, bases and the order of
-- the classes, and puts literals in place of what it can compute.
import Ci.Double.Layout
import Ci.Double.Rounding
import Ci.Program.Operator
import Ci.Ty.Basic

namespace Ci

/-! ## Expressions -/

/-- A literal value. -/
inductive Literal where
  | null
  | bool (b : Bool)
  | int (n : Int64)
  | double (x : Double)
  | string (s : String)
deriving DecidableEq, Repr

/-- What a name stands for. -/
inductive Symbol where
  | type (t : Ty)
  | classDecl (c : ClassId)
  | enumDecl (e : EnumId)
  | const (k : ConstId)
  | field (f : FieldId)
  | method (m : MethodId)
  | var (v : VarId)
  | stringLength
deriving DecidableEq, Repr

/-- The right side of an operator between two operands. -/
inductive Operand where
  /-- Nothing, as between the brackets of an array type. -/
  | none
  | expr (e : ExprId)
  /-- The arguments of a call. -/
  | args (es : List ExprId)
deriving DecidableEq, Repr

/-- An expression. Types are written as expressions too. -/
inductive Expr where
  | literal (value : Literal)
  /-- A name, with what it stands for once that is known. -/
  | name (text : String) (symbol : Option Symbol)
  | before (op : PrefixOp) (inner : ExprId)
  | after (op : PostfixOp) (inner : ExprId)
  | binary (op : BinaryOp) (left : ExprId) (right : Operand)
  | conditional (cond onTrue onFalse : ExprId)
  | collection (items : List ExprId)
  /-- The declaration of a local variable. -/
  | var (v : VarId)
deriving DecidableEq, Repr

namespace Operand

/-- The expressions of an operand, in order. -/
def exprs : Operand → List ExprId
  | none => []
  | expr e => [e]
  | args es => es

end Operand

namespace Expr

/-- The expressions that an expression is made of, in the order in which they stand. -/
def children : Expr → List ExprId
  | literal _ => []
  | name _ _ => []
  | before _ inner => [inner]
  | after _ inner => [inner]
  | binary _ left right => left :: right.exprs
  | conditional cond onTrue onFalse => [cond, onTrue, onFalse]
  | collection items => items
  | var _ => []

/-- The expression does something itself: a call, an assignment, an increment or a decrement,
an allocation or a declaration. -/
def acts : Expr → Bool
  | literal _ => false
  | name _ _ => false
  | before op _ => op == .increment || op == .decrement || op == .new
  | after op _ => op != .bang
  | binary op _ _ => op == .call || op.isAssignment
  | conditional _ _ _ => false
  | collection _ => false
  | var _ => true

end Expr

/-- An expression in its slot. -/
structure ExprNode where
  kind : Expr
  line : UInt32
  ty : Option Ty
deriving DecidableEq, Repr

/-! ## Statements -/

/-- The labels and the body of a case. -/
structure Case where
  values : List ExprId
  body : List StmtId
deriving DecidableEq, Repr

/-- A statement. -/
inductive Stmt where
  | block (body : List StmtId)
  | ifThen (cond : ExprId) (onTrue : StmtId) (onFalse : Option StmtId)
  | whileLoop (cond : ExprId) (body : StmtId)
  | doWhile (body : StmtId) (cond : ExprId)
  | forLoop (start cond advance : Option ExprId) (body : StmtId)
  | switch (value : ExprId) (cases : List Case) (default : Option (List StmtId))
  | ret (value : Option ExprId)
  | leave
  | next
  | throw (value : ExprId)
  | delete (value : ExprId)
  | expr (value : ExprId)
  | const (k : ConstId)
deriving DecidableEq, Repr

/-- A statement in its slot. -/
structure StmtNode where
  kind : Stmt
  line : UInt32
deriving DecidableEq, Repr

/-! ## Declarations -/

/-- How far the resolution of a class or a constant has come. -/
inductive Status where
  | unvisited
  | inProgress
  | resolved
deriving DecidableEq, Repr

/-- From where a member may be used. -/
inductive Visibility where
  | hidden
  | internal
  | guarded
  | exposed
deriving DecidableEq, Repr

/-- How a class or a method is called and overridden. -/
inductive CallKind where
  | static
  | normal
  | abstract
  | virtual
  | override
  | sealed
deriving DecidableEq, Repr

/-- A class. -/
structure ClassDecl where
  name : String
  file : FileId
  line : UInt32
  isPublic : Bool
  callKind : CallKind
  baseName : Option String
  /-- The base class, once it is known. -/
  base : Option ClassId
  consts : List ConstId
  fields : List FieldId
  methods : List MethodId
  status : Status
deriving DecidableEq, Repr

/-- An enumeration. Its values are constants of its type. -/
structure EnumDecl where
  name : String
  file : FileId
  line : UInt32
  isPublic : Bool
  values : List ConstId
deriving DecidableEq, Repr

/-- Where a constant is declared. -/
inductive Owner where
  | program (file : FileId)
  | classDecl (c : ClassId)
  | enumDecl (e : EnumId)
  /-- A statement in the body of a method. -/
  | body
deriving DecidableEq, Repr

namespace Owner

/-- The constant is a value of an enumeration. -/
def isEnum : Owner → Bool
  | enumDecl _ => true
  | _ => false

end Owner

/-- A constant. Only a value of an enumeration may come without an initializer. -/
structure Const where
  name : String
  line : UInt32
  owner : Owner
  visibility : Visibility
  typeExpr : Option ExprId
  value : Option ExprId
  status : Status
  ty : Option Ty
deriving DecidableEq, Repr

/-- A field of a class. -/
structure Field where
  name : String
  line : UInt32
  visibility : Visibility
  typeExpr : ExprId
  ty : Option Ty
deriving DecidableEq, Repr

/-- A method of a class. Without a type it returns nothing, without a body it is abstract. -/
structure Method where
  name : String
  line : UInt32
  visibility : Visibility
  callKind : CallKind
  isMutator : Bool
  typeExpr : Option ExprId
  params : List VarId
  body : Option StmtId
  ty : Option Ty
deriving DecidableEq, Repr

/-- A local variable or a parameter. -/
structure Var where
  name : String
  line : UInt32
  typeExpr : ExprId
  value : Option ExprId
  ty : Option Ty
deriving DecidableEq, Repr

/-! ## Programs -/

/-- All the source files of one compilation. -/
structure Program where
  files : Arena .file String
  exprs : Arena .expr ExprNode
  stmts : Arena .stmt StmtNode
  classes : Arena .classDecl ClassDecl
  enums : Arena .enumDecl EnumDecl
  consts : Arena .const Const
  fields : Arena .field Field
  methods : Arena .method Method
  vars : Arena .var Var
  /-- The constants outside classes and enumerations. -/
  globals : List ConstId
  /-- The classes, each after its base, once that is known. -/
  ordered : List ClassId
deriving DecidableEq, Repr

namespace Program

/-- The program without anything. -/
def empty : Program := ⟨∅, ∅, ∅, ∅, ∅, ∅, ∅, ∅, ∅, [], []⟩

end Program

/-! ## Literals -/

namespace Literal

/-- The type of a literal. An integer has the interval of its value. -/
def ty : Literal → Ty
  | null => .null
  | bool _ => .bool
  | int n => .range (.point n)
  | double _ => .double
  | string _ => .stringPointer

/-- The text that a literal adds to a string. -/
def text : Literal → String
  | null => ""
  | bool b => if b then "True" else "False"
  | int n => toString n.toInt
  | double x => x.text .plain
  | string s => s

/-- Equal values of one kind. Doubles are equal as numbers. -/
def same : Literal → Literal → Bool
  | null, null => true
  | bool a, bool b => a == b
  | int a, int b => a == b
  | double x, double y => x.numEq y
  | string s, string t => s == t
  | _, _ => false

/-- The number that a literal is, as a double. -/
def number? : Literal → Option Double
  | int n => some (.ofInt n.toInt)
  | double x => some x
  | _ => none

/-- Equal values. An integer is compared with a double as a double. -/
def equal : Literal → Literal → Bool
  | double x, int n => x.numEq (.ofInt n.toInt)
  | int n, double x => x.numEq (.ofInt n.toInt)
  | v, w => v.same w

end Literal

end Ci
