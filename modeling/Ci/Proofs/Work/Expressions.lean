-- What the rules for expressions have done when they end. An expression is resolved
-- part by part, each part where no work has come to it before. Then it is put back
-- with what took the place of its parts, and typed, unless a literal or a part takes
-- its place.
import Ci.Proofs.Work.Tails

namespace Ci

open Pass

variable {p : Program} {n : Nat} {s s1 s2 s' : State} {e e' l : ExprId} {D : Set Node} {x y : Node}

/-! ## Parts that have ended -/

/-- An expression has been resolved. -/
structure Ran (p : Program) (n : Nat) (s : State) (e e' : ExprId) (s' : State) : Prop where
  run : (Resolve.callsWithin n).expr e s = .ok e' s'
  fit : Fit p s (.expr e)
  moves : Moves (p.work s.program (.expr e)) s s'
  ready : Ready p s'
  inside : Inside (p.region (.expr e)) s'.program (.expr e')

/-- A type has been read. -/
structure RanType (p : Program) (n : Nat) (s : State) (e : ExprId) (t : Ty) (s' : State) :
    Prop where
  run : (Resolve.callsWithin n).type e s = .ok t s'
  fit : Fit p s (.expr e)
  moves : Moves (p.work s.program (.expr e)) s s'
  ready : Ready p s'

/-- A constant that has a name has been resolved, or had been resolved before. -/
structure RanConst (p : Program) (n : Nat) (s : State) (k : ConstId) (s' : State) : Prop where
  run : (Resolve.callsWithin n).const k s = .ok () s'
  ready0 : Ready p s
  known : Known (p.waiting s.program) s.program k
  moves : Moves (p.waiting s.program) s s'
  ready : Ready p s'
  resolved : ∃ d, s'.program.consts.get? k = some d ∧ d.status = .resolved

/-- The items of a list have been resolved one after the other, and something is the case after
each of them. -/
inductive RanList {ι : Type} (p : Program) (depth : State → Nat) (exprOf : ι → ExprId)
    (C : ι → ExprId → State → Prop) : State → List ι → List ExprId → State → Prop
  | nil (s : State) : RanList p depth exprOf C s [] [] s
  | cons {s s1 s2 : State} {i : ι} {xs : List ι} {e' : ExprId} {es' : List ExprId}
      (first : Ran p (depth s) s (exprOf i) e' s1) (holds : C i e' s1)
      (rest : RanList p depth exprOf C s1 xs es' s2) :
      RanList p depth exprOf C s (i :: xs) (e' :: es') s2

/-! ## Names -/

/-- The type of what a name stands for, if that has a type by now. -/
def Program.symbolTy? (p : Program) : Symbol → Option Ty
  | .const k => (p.consts.get? k).bind (·.ty)
  | .field f => (p.fields.get? f).bind (·.ty)
  | .method m => (p.methods.get? m).bind (·.ty)
  | .var v => (p.vars.get? v).bind (·.ty)
  | .stringLength => some .length
  | .type _ | .classDecl _ | .enumDecl _ => none

/-- What a name stands for has been visited if it is a constant. -/
inductive Reached (p : Program) (n : Nat) (s : State) : Symbol → State → Prop
  | const {k : ConstId} {s' : State} (run : RanConst p n s k s') : Reached p n s (.const k) s'
  | other {found : Symbol} (ne : ∀ k, found ≠ .const k) : Reached p n s found s

/-- A name has been resolved: it has been bound and typed, or a literal takes its place. -/
inductive Named (p : Program) (n : Nat) (s : State) (look : Resolve.Look) (scope : ScopeId)
    (e : ExprId) (m : ExprNode) (text : String) : ExprId → State → Prop
  | kept {found : Symbol} {ty : Ty} {s1 : State}
      (finds : look s.table scope text = .ok (some found))
      (reached : Reached p n (s.put e { m with kind := .name text (some found) }) found s1)
      (still : s1.program.exprs.get? e = some { m with kind := .name text (some found) })
      (type : s1.program.symbolTy? found = some ty)
      (stays : ∀ k d, found = .const k → s1.program.consts.get? k = some d →
        Resolve.inlined? scope d s1 = .ok none s1) :
      Named p n s look scope e m text e
        (s1.put e { m with kind := .name text (some found), ty := some ty })
  | inlined {k : ConstId} {d : Const} {v : Literal} {s1 : State}
      (finds : look s.table scope text = .ok (some (.const k)))
      (run : RanConst p n (s.put e { m with kind := .name text (some (.const k)) }) k s1)
      (still : s1.program.exprs.get? e = some { m with kind := .name text (some (.const k)) })
      (found : s1.program.consts.get? k = some d)
      (value : Resolve.inlined? scope d s1 = .ok (some v) s1)
      (room : s1.program.exprs.size < UInt32.size) :
      Named p n s look scope e m text s1.program.exprs.next (s1.grow m.line v)

/-! ## Members -/

/-- The scope of a class or an enumeration, and the type that its name gets. -/
inductive OwnerAt (s : State) : Symbol → ScopeId → Ty → Prop
  | classDecl {c : ClassId} {scope : ScopeId} (found : s.classScopes.get? c = some scope) :
      OwnerAt s (.classDecl c) scope (.classStorage c)
  | enumDecl {d : EnumId} {scope : ScopeId} (found : s.enumScopes.get? d = some scope) :
      OwnerAt s (.enumDecl d) scope (.enumeration d)

/-- An access has the type of its member, or what takes the place of the member takes its
place. -/
inductive Accessed (e : ExprId) (m : ExprNode) (member : ExprId) (s : State) :
    ExprId → ExprId → State → Prop
  | kept {ty : Ty} (value : s.program.valueTy member = .ok ty)
      (still : s.program.exprs.get? e = some m) :
      Accessed e m member s member e (s.put e { m with ty := some ty })
  | folded {r : ExprId} (ne : r ≠ member) : Accessed e m member s r r s

/-- A member of a value of a type has been resolved. -/
inductive OfValue (p : Program) (n : Nat) (e : ExprId) (m : ExprNode) (left member : ExprId)
    (mm : ExprNode) (text : String) (s : State) : Ty → ExprId → State → Prop
  | literalLength {ty : Ty} {value : String} (name : text = "Length") (string : ty.isString)
      (literal : s.program.literal? left = .ok (some (.string value)))
      (room : s.program.exprs.size < UInt32.size) :
      OfValue p n e m left member mm text s ty s.program.exprs.next
        (s.grow m.line (.int (Int64.ofNat value.length)))
  | stringLength {ty : Ty} {v : Option Literal} (name : text = "Length") (string : ty.isString)
      (literal : s.program.literal? left = .ok v) (other : ∀ value, v ≠ some (.string value)) :
      OfValue p n e m left member mm text s ty e
        ((s.put member { mm with kind := .name text (some .stringLength), ty := some .length }).put
          e { m with ty := some .length })
  | arrayLength {ty : Ty} {length : UInt32} (name : text = "Length")
      (room : s.program.exprs.size < UInt32.size) :
      OfValue p n e m left member mm text s (.arrayStorage ty length) s.program.exprs.next
        (s.grow m.line (.int (Int64.ofNat length.toNat)))
  | ofClass {ty : Ty} {c : ClassId} {scope : ScopeId} {r e' : ExprId} {s1 s' : State}
      (target : ty.memberClass = some c) (found : s.classScopes.get? c = some scope)
      (named : Named p n s ScopeTable.lookupMember scope member mm text r s1)
      (accessed : Accessed e m member s1 r e' s') :
      OfValue p n e m left member mm text s ty e' s'

/-! ## Declarations -/

/-- The value that a variable starts with has been resolved. -/
inductive Started (p : Program) (n : Nat) (t : Ty) (s : State) :
    Option ExprId → Option ExprId → State → Prop
  | none : Started p n t s none none s
  | some {x x' : ExprId} {s' : State} (run : Ran p n s x x' s') (fits : Coerces s'.program x' t) :
      Started p n t s (some x) (some x') s'

/-! ## All expressions -/

/-- The end of an operator before its operand, once that is resolved. -/
def Resolve.beforeEnd (e inner : ExprId) : PrefixOp → Pass ExprId
  | .increment => steppedBefore e inner 1
  | .decrement => steppedBefore e inner (-1)
  | .minus => negation e inner
  | .tilde => bitComplement e inner
  | .not => logicalNot e inner
  | .new | .less | .lessOrEqual => failAt e (.invalidExpression "range type in expression")

/-- The end of an operator after its operand, once that is resolved. -/
def Resolve.afterEnd (e inner : ExprId) : Pass ExprId := do
  let t ← valueTy inner
  requireNumeric inner t
  requirePlace inner
  typed e t

/-- An argument may stand where its parameter expects a value. -/
def Passes (i : ExprId × VarId) (a : ExprId) (s : State) : Prop :=
  ∃ d t, s.program.vars.get? i.2 = some d ∧ d.ty = some t ∧ Coerces s.program a t

/-- What the rule for expressions has done. -/
inductive Step (p : Program) (n : Nat) (s : State) (e : ExprId) : ExprId → State → Prop
  | literal {m : ExprNode} {v : Literal} (node : s.program.exprs.get? e = some m)
      (kind : m.kind = .literal v) : Step p n s e e (s.put e { m with ty := some v.ty })
  | name {m : ExprNode} {text : String} {e' : ExprId} {s' : State}
      (node : p.exprs.get? e = some m) (kind : m.kind = .name text none)
      (named : Named p n s ScopeTable.lookup s.table.current e m text e' s') : Step p n s e e' s'
  | before {m : ExprNode} {op : PrefixOp} {inner inner' e' : ExprId} {s1 s' : State}
      (node : p.exprs.get? e = some m) (kind : m.kind = .before op inner)
      (operand : Ran p n s inner inner' s1) (still : s1.program.exprs.get? e = some m)
      (ends : Resolve.beforeEnd e inner' op (s1.put e { m with kind := .before op inner' })
        = .ok e' s') : Step p n s e e' s'
  | newArray {m mi : ExprNode} {inner left length length' : ExprId} {t u : Ty} {s1 s2 : State}
      (node : p.exprs.get? e = some m) (kind : m.kind = .before .new inner)
      (inode : p.exprs.get? inner = some mi) (ikind : mi.kind = .binary .index left (.expr length))
      (element : RanType p n s left t s1) (count : Ran p n s1 length length' s2)
      (still : s2.program.exprs.get? e = some m) (istill : s2.program.exprs.get? inner = some mi)
      (value : (s2.put inner
        { mi with kind := .binary .index left (.expr length') }).program.valueTy length' = .ok u)
      (fits : (u.isInteger && !u.isLong) = true) :
      Step p n s e e ((s2.put inner ⟨.binary .index left (.expr length'), mi.line,
        some (.arrayPointer t true)⟩).put e { m with ty := some (.arrayPointer t true) })
  | newObject {m mi : ExprNode} {inner : ExprId} {c : ClassId} {s1 : State}
      (node : p.exprs.get? e = some m) (kind : m.kind = .before .new inner)
      (inode : s.program.exprs.get? inner = some mi)
      (ikind : ∀ left length, mi.kind ≠ .binary .index left (.expr length))
      (object : RanType p n s inner (.classStorage c) s1)
      (still : s1.program.exprs.get? e = some m) :
      Step p n s e e (s1.put e { m with ty := some (.classPointer c true) })
  | after {m : ExprNode} {op : PostfixOp} {inner inner' e' : ExprId} {s1 s' : State}
      (node : p.exprs.get? e = some m) (kind : m.kind = .after op inner) (mark : op ≠ .bang)
      (operand : Ran p n s inner inner' s1) (still : s1.program.exprs.get? e = some m)
      (ends : Resolve.afterEnd e inner' (s1.put e { m with kind := .after op inner' })
        = .ok e' s') : Step p n s e e' s'
  | ownerMember {m mm ml : ExprNode} {left member r e' : ExprId} {text owner : String}
      {found : Symbol} {scope : ScopeId} {ty : Ty} {s1 s' : State}
      (node : p.exprs.get? e = some m) (kind : m.kind = .binary .dot left (.expr member))
      (mnode : p.exprs.get? member = some mm) (mkind : mm.kind = .name text none)
      (lnode : p.exprs.get? left = some ml) (lkind : ml.kind = .name owner none)
      (finds : s.table.lookup s.table.current owner = .ok (some found))
      (opens : OwnerAt s found scope ty)
      (named : Named p n (s.put left { ml with kind := .name owner (some found), ty := some ty })
        ScopeTable.lookupMember scope member mm text r s1)
      (accessed : Accessed e m member s1 r e' s') : Step p n s e e' s'
  | valueMember {m mm : ExprNode} {left left' member e' : ExprId} {text : String} {ty : Ty}
      {s1 s' : State}
      (node : p.exprs.get? e = some m) (kind : m.kind = .binary .dot left (.expr member))
      (mnode : p.exprs.get? member = some mm) (mkind : mm.kind = .name text none)
      (value : Ran p n s left left' s1)
      (still : s1.program.exprs.get? e = some m) (mstill : s1.program.exprs.get? member = some mm)
      (type : (s1.put e { m with kind := .binary .dot left' (.expr member) }).program.valueTy left'
        = .ok ty)
      (ofValue : OfValue p n e { m with kind := .binary .dot left' (.expr member) } left' member mm
        text (s1.put e { m with kind := .binary .dot left' (.expr member) }) ty e' s') :
      Step p n s e e' s'
  | call {m : ExprNode} {callee callee' : ExprId} {args args' : List ExprId} {f : MethodId}
      {d : Method} {s1 s2 : State}
      (node : p.exprs.get? e = some m) (kind : m.kind = .binary .call callee (.args args))
      (function : Ran p n s callee callee' s1)
      (symbol : s1.program.symbolOf callee' = .ok (some (.method f)))
      (method : s1.program.methods.get? f = some d) (count : d.params.length = args.length)
      (arguments : RanList p (fun _ => n) Prod.fst Passes s1 (args.zip d.params) args' s2)
      (still : s2.program.exprs.get? e = some m) :
      Step p n s e e (s2.put e { m with
        kind := .binary .call callee' (.args args'), ty := some (d.ty.getD .void) })
  | binary {m : ExprNode} {op : BinaryOp} {left left' right right' e' : ExprId} {s1 s2 s' : State}
      (node : p.exprs.get? e = some m) (kind : m.kind = .binary op left (.expr right))
      (notDot : op ≠ .dot) (notCall : op ≠ .call)
      (first : Ran p n s left left' s1) (second : Ran p n s1 right right' s2)
      (still : s2.program.exprs.get? e = some m)
      (ends : Resolve.operation e op left' right'
        (s2.put e { m with kind := .binary op left' (.expr right') }) = .ok e' s') :
      Step p n s e e' s'
  | conditional {m : ExprNode} {c c' a a' b b' e' : ExprId} {s1 s2 s3 s' : State}
      (node : p.exprs.get? e = some m) (kind : m.kind = .conditional c a b)
      (condition : Ran p n s c c' s1) (boolean : Coerces s1.program c' .bool)
      (first : Ran p n s1 a a' s2) (second : Ran p n s2 b b' s3)
      (still : s3.program.exprs.get? e = some m)
      (ends : Resolve.choice e c' a' b' (s3.put e { m with kind := .conditional c' a' b' })
        = .ok e' s') : Step p n s e e' s'
  | collection {m : ExprNode} {items rest' : List ExprId} {first' : ExprId} {t u : Ty} {s1 : State}
      (node : p.exprs.get? e = some m) (kind : m.kind = .collection items)
      (list : RanList p (fun _ => n) id (fun _ _ _ => True) s items (first' :: rest') s1)
      (value : s1.program.valueTy first' = .ok t)
      (common : Resolve.commonTy t rest' s1 = .ok u s1)
      (size : rest'.length + 1 < UInt32.size) (still : s1.program.exprs.get? e = some m) :
      Step p n s e e (s1.put e { m with
        kind := .collection (first' :: rest'),
        ty := some (.arrayStorage u (UInt32.ofNat (rest'.length + 1))) })
  | var {m : ExprNode} {v : VarId} {d : Var} {t : Ty} {value' : Option ExprId}
      {table : ScopeTable} {s1 s2 : State}
      (node : p.exprs.get? e = some m) (kind : m.kind = .var v)
      (vnode : p.vars.get? v = some d) (type : RanType p n s d.typeExpr t s1)
      (started : Started p n t s1 d.value value' s2)
      (still : s2.program.exprs.get? e = some m) (vstill : s2.program.vars.get? v = some d)
      (binds : s2.table.define? s2.table.current d.name (.var v) = .ok (some table)) :
      Step p n s e e ({ s2.setVar v { d with value := value', ty := some t } with
        table := table }.put e { m with ty := some t })

end Ci
