-- The names of bodies without scopes. A body is gone through from left to right with
-- a list of frames, which hold the names that can be seen. Blocks, switches and loops
-- with a head open a frame, a declaration binds its name in the innermost frame, and
-- each name that is used is met with the frames at that point.
import Ci.Proofs.Naming.Classes

namespace Ci

variable {p : Program} {frames frames' : Frames}

/-! ## Frames -/

/-- The names that can be seen, frame by frame. The innermost frame comes first, and in each frame
the latest name. -/
abbrev Frames := List Bindings

/-- What a name stands for. The innermost frame that has the name decides. -/
def Frames.find? (frames : Frames) (name : String) : Option Symbol :=
  frames.findSome? fun names => names.lookup name

/-! ## Places and acts -/

/-- A part of a body as it is gone through. -/
inductive Place where
  /-- An expression where a value stands. -/
  | value (e : ExprId)
  /-- An expression that is read as a type. -/
  | type (e : ExprId)
  | stmt (x : StmtId)
deriving DecidableEq, Repr

/-- What is done at a place. -/
inductive Act where
  | visit (x : Place)
  /-- Meets a name that is looked up. -/
  | use (e : ExprId)
  | bind (name : String) (symbol : Symbol)
  /-- Opens a frame. -/
  | enter
  | leave
  /-- Goes through what a constant holds, where its owner is declared. -/
  | const (k : ConstId)
deriving DecidableEq, Repr

namespace Act

def values (es : List ExprId) : List Act := es.map fun e => .visit (.value e)

def types (es : List ExprId) : List Act := es.map fun e => .visit (.type e)

def stmts (xs : List StmtId) : List Act := xs.map fun x => .visit (.stmt x)

/-- Acts in a frame of their own. -/
def framed (acts : List Act) : List Act := .enter :: acts ++ [.leave]

end Act

/-! ## What is done at each place -/

/-- A variable is bound after its type and its value. -/
def Var.acts (v : VarId) (d : Var) : List Act :=
  Act.types [d.typeExpr] ++ Act.values d.value.toList ++ [.bind d.name (.var v)]

/-- What a constant holds. -/
def Const.acts (d : Const) : List Act := Act.types d.typeExpr.toList ++ Act.values d.value.toList

/-- What follows the word that allocates: an object, or the elements of an array and their
number. -/
def Expr.allocated (inner : ExprId) : Expr → List Act
  | .binary .index left (.expr length) => Act.types [left] ++ Act.values [length]
  | _ => Act.types [inner]

/-- An expression where a value stands. The member side of a dot is no name of its own. -/
def Program.valueActs (p : Program) (e : ExprId) : Expr → List Act
  | .literal _ => []
  | .name _ _ => [.use e]
  | .before .new inner => (p.exprs.get? inner).elim [] fun n => n.kind.allocated inner
  | .before _ inner => Act.values [inner]
  | .after _ inner => Act.values [inner]
  | .binary .dot left _ => Act.values [left]
  | .binary _ left right => Act.values (left :: right.exprs)
  | .conditional cond onTrue onFalse => Act.values [cond, onTrue, onFalse]
  | .collection items => Act.values items
  | .var v => (p.vars.get? v).elim [] (Var.acts v)

/-- An expression that is read as a type. Values stand in it as bounds and as lengths. -/
def Expr.typeActs : Expr → List Act
  | .before _ inner => Act.values [inner]
  | .after _ inner => Act.types [inner]
  | .binary .index left right => Act.values right.exprs ++ Act.types [left]
  | .binary (.order _) left right => Act.values (left :: right.exprs)
  | _ => []

def Case.acts (c : Case) : List Act := Act.values c.values ++ Act.stmts c.body

/-- A statement. -/
def Program.stmtActs (p : Program) : Stmt → List Act
  | .block body => Act.framed (Act.stmts body)
  | .ifThen cond onTrue onFalse => Act.values [cond] ++ Act.stmts (onTrue :: onFalse.toList)
  | .whileLoop cond body => Act.values [cond] ++ Act.stmts [body]
  | .doWhile body cond => Act.stmts [body] ++ Act.values [cond]
  | .forLoop start cond advance body =>
    Act.framed (Act.values start.toList ++ Act.values cond.toList ++ Act.values advance.toList
      ++ Act.stmts [body])
  | .switch value cases default =>
    Act.values [value] ++ Act.framed (cases.flatMap Case.acts ++ Act.stmts (default.getD []))
  | .ret value => Act.values value.toList
  | .leave | .next => []
  | .throw value | .delete value | .expr value => Act.values [value]
  | .const k => (p.consts.get? k).elim [] fun d => [.const k, .bind d.name (.const k)]

/-- What is done at a place of a program. -/
def Program.acts (p : Program) : Place → List Act
  | .value e => (p.exprs.get? e).elim [] fun n => p.valueActs e n.kind
  | .type e => (p.exprs.get? e).elim [] fun n => n.kind.typeActs
  | .stmt x => (p.stmts.get? x).elim [] fun n => p.stmtActs n.kind

/-- The parameters of a method have a frame of their own around its body. -/
def Program.methodActs (p : Program) (d : Method) (body : StmtId) : List Act :=
  Act.framed ((named p.vars (·.name) .var d.params).map (fun b => Act.bind b.1 b.2)
    ++ Act.stmts [body])

/-! ## Frames outside all bodies -/

/-- The frames of a class: its members, those of its bases from the nearest on, and the names of
the program. -/
inductive Program.Lineage (p : Program) : ClassId → Frames → Prop
  | root {c : ClassId} {d : ClassDecl} (decl : p.classes.get? c = some d)
      (first : ∀ b, ¬ p.NamesBase c b) :
      Lineage p c [(p.memberNames d).reverse, p.globalNames.reverse]
  | derived {c b : ClassId} {d : ClassDecl} {frames : Frames} (decl : p.classes.get? c = some d)
      (base : p.NamesBase c b) (rest : Lineage p b frames) :
      Lineage p c ((p.memberNames d).reverse :: frames)

/-- Where names are distinct, a class has one base. -/
theorem Program.NamesBase.unique {c b b' : ClassId} (hd : Distinct p.globalNames)
    (h : p.NamesBase c b) (h' : p.NamesBase c b') : b = b' := by
  obtain ⟨d, e, hc, hb, hname⟩ := h
  obtain ⟨d', e', hc', hb', hname'⟩ := h'
  cases hc.symm.trans hc'
  have hsame : e.name = e'.name := hname.some_unique hname'
  have hfirst := Program.mem_globalNames_classDecl.2 ⟨e, hb, rfl⟩
  have hsecond := Program.mem_globalNames_classDecl.2 ⟨e', hb', hsame.symm⟩
  cases hd.eq_of_mem hfirst hsecond
  rfl

theorem Program.Lineage.unique {c : ClassId}
    (hd : Distinct p.globalNames) (h : p.Lineage c frames) (h' : p.Lineage c frames') :
    frames = frames' := by
  induction h generalizing frames' with
  | root decl first =>
    cases h' with
    | root decl' _ => cases decl.symm.trans decl'; rfl
    | derived _ base _ => exact absurd base (first _)
  | derived decl base _ ih =>
    cases h' with
    | root _ first => exact absurd base (first _)
    | derived decl' base' rest =>
      cases decl.symm.trans decl'
      cases base.unique hd base'
      rw [ih rest]

/-- The frames where a constant of an owner is declared. A constant of a body is declared here. -/
inductive Program.Outlook (p : Program) (here : Frames) : Owner → Frames → Prop
  | program {file : FileId} : Outlook p here (.program file) [p.globalNames.reverse]
  | classDecl {c : ClassId} {frames : Frames} (line : p.Lineage c frames) :
      Outlook p here (.classDecl c) frames
  | enumDecl {e : EnumId} {d : EnumDecl} (decl : p.enums.get? e = some d) :
      Outlook p here (.enumDecl e) [(p.valueNames d).reverse, p.globalNames.reverse]
  | body : Outlook p here .body here

theorem Program.Outlook.unique {here : Frames} {owner : Owner}
    (hd : Distinct p.globalNames) (h : p.Outlook here owner frames)
    (h' : p.Outlook here owner frames') : frames = frames' := by
  cases h with
  | program => cases h'; rfl
  | classDecl line => cases h' with | classDecl line' => exact line.unique hd line'
  | enumDecl decl => cases h' with | enumDecl decl' => cases decl.symm.trans decl'; rfl
  | body => cases h'; rfl

/-! ## Walks -/

/-- A name that is used, with the frames at that point. -/
structure Mention where
  name : ExprId
  frames : Frames
deriving DecidableEq, Repr

/-- The expression is a name that has been found to stand for something. -/
def Program.Stands (p : Program) (e : ExprId) (text : String) (symbol : Symbol) : Prop :=
  ∃ n, p.exprs.get? e = some n ∧ n.kind = .name text (some symbol)

/-- The name stands for what the frames say. -/
def Mention.BoundIn (u : Mention) (p : Program) : Prop :=
  ∃ text symbol, p.Stands u.name text symbol ∧ u.frames.find? text = some symbol

/-- Goes from frames through some acts to other frames, and meets the names that are used. -/
inductive Program.Walk (p : Program) : Frames → List Act → List Mention → Frames → Prop
  | nil {frames : Frames} : Walk p frames [] [] frames
  | visit {frames frames' : Frames} {x : Place} {acts : List Act} {uses : List Mention}
      (rest : Walk p frames (p.acts x ++ acts) uses frames') :
      Walk p frames (.visit x :: acts) uses frames'
  | use {frames frames' : Frames} {e : ExprId} {acts : List Act} {uses : List Mention}
      (rest : Walk p frames acts uses frames') :
      Walk p frames (.use e :: acts) (⟨e, frames⟩ :: uses) frames'
  | bind {names : Bindings} {frames frames' : Frames} {name : String} {symbol : Symbol}
      {acts : List Act} {uses : List Mention}
      (rest : Walk p (((name, symbol) :: names) :: frames) acts uses frames') :
      Walk p (names :: frames) (.bind name symbol :: acts) uses frames'
  | enter {frames frames' : Frames} {acts : List Act} {uses : List Mention}
      (rest : Walk p ([] :: frames) acts uses frames') : Walk p frames (.enter :: acts) uses frames'
  | leave {names : Bindings} {frames frames' : Frames} {acts : List Act} {uses : List Mention}
      (rest : Walk p frames acts uses frames') :
      Walk p (names :: frames) (.leave :: acts) uses frames'
  | const {frames outer frames' : Frames} {k : ConstId} {d : Const} {acts : List Act}
      {uses uses' : List Mention} (decl : p.consts.get? k = some d)
      (place : p.Outlook frames d.owner outer) (held : Walk p outer d.acts uses outer)
      (rest : Walk p frames acts uses' frames') :
      Walk p frames (.const k :: acts) (uses ++ uses') frames'

namespace Program.Walk

variable {p : Program} {frames frames1 frames2 : Frames} {acts acts' : List Act}
  {uses uses' : List Mention}

theorem append (h : p.Walk frames acts uses frames1) (h' : p.Walk frames1 acts' uses' frames2) :
    p.Walk frames (acts ++ acts') (uses ++ uses') frames2 := by
  induction h with
  | nil => exact h'
  | visit _ ih => exact .visit (by simpa using ih h')
  | use _ ih => exact .use (ih h')
  | bind _ ih => exact .bind (ih h')
  | enter _ ih => exact .enter (ih h')
  | leave _ ih => exact .leave (ih h')
  | const decl place held _ _ ih =>
    rw [List.append_assoc]
    exact .const decl place held (ih h')

theorem framed {names : Bindings} (h : p.Walk ([] :: frames) acts uses (names :: frames)) :
    p.Walk frames (Act.framed acts) uses frames := by
  have hclose := h.append (.leave .nil)
  rw [List.append_nil] at hclose
  exact .enter hclose

/-- There is one way to go. -/
theorem unique (hd : Distinct p.globalNames) (h : p.Walk frames acts uses frames1)
    (h' : p.Walk frames acts uses' frames2) : uses = uses' ∧ frames1 = frames2 := by
  induction h generalizing uses' frames2 with
  | nil => cases h'; exact ⟨rfl, rfl⟩
  | visit _ ih => cases h' with | visit rest => exact ih rest
  | use _ ih =>
    cases h' with
    | use rest =>
      obtain ⟨hu, hf⟩ := ih rest
      exact ⟨by rw [hu], hf⟩
  | bind _ ih => cases h' with | bind rest => exact ih rest
  | enter _ ih => cases h' with | enter rest => exact ih rest
  | leave _ ih => cases h' with | leave rest => exact ih rest
  | const decl place _ _ ihheld ih =>
    cases h' with
    | const decl' place' held' rest' =>
      cases decl.symm.trans decl'
      cases place.unique hd place'
      obtain ⟨rfl, -⟩ := ihheld held'
      obtain ⟨rfl, rfl⟩ := ih rest'
      exact ⟨rfl, rfl⟩

end Program.Walk

end Ci
