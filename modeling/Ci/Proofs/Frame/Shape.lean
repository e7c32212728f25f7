-- The shape of a program. Resolution adds literals at the end of the expressions and
-- classes at the end of their order. All else it does is to fill in what stands
-- beside the shape: types, bases, what names stand for, and other handles in the
-- slots that are there.
import Ci.Proofs.Frame.Rules
import Ci.Proofs.Pass.Abiding

namespace Ci

open Pass

/-! ## Shapes -/

/-- A field without its type. -/
def Field.outline (d : Field) : Field := { d with ty := none }

/-- A method without its type. -/
def Method.outline (d : Method) : Method := { d with ty := none }

/-- Every part of an arena is still there and is the same as far as a view of it goes. -/
def Arena.Same {k : Kind} {α β : Type} (view : α → β) (a b : Arena k α) : Prop :=
  a.Follows (fun _ x y => view y = view x) b

/-- One program has come from another, and has kept its shape. -/
structure Program.SameShape (p q : Program) : Prop where
  files : q.files = p.files
  enums : q.enums = p.enums
  globals : q.globals = p.globals
  ordered : p.ordered <+: q.ordered
  exprs : p.exprs.Same (fun n => (n.line, n.kind.outline)) q.exprs
  added : ∀ e : ExprId, p.exprs.size ≤ e.slot → e.slot < q.exprs.size → q.TypedLiteral e
  stmts : p.stmts.Same (fun n => (n.line, n.kind.outline)) q.stmts
  stmts_size : q.stmts.size = p.stmts.size
  classes : p.classes.Same ClassDecl.outline q.classes
  classes_size : q.classes.size = p.classes.size
  consts : p.consts.Same Const.outline q.consts
  consts_size : q.consts.size = p.consts.size
  fields : p.fields.Same Field.outline q.fields
  fields_size : q.fields.size = p.fields.size
  methods : p.methods.Same Method.outline q.methods
  methods_size : q.methods.size = p.methods.size
  vars : p.vars.Same Var.outline q.vars
  vars_size : q.vars.size = p.vars.size

namespace Arena.Same

variable {k : Kind} {α β : Type} {view : α → β} {a b c : Arena k α} {h : Handle k} {x y : α}

theorem refl (a : Arena k α) : a.Same view a :=
  Follows.refl (R := fun _ x y => view y = view x) (fun _ _ => rfl) a

theorem trans (hab : a.Same view b) (hbc : b.Same view c) : a.Same view c :=
  Follows.trans (fun _ _ _ _ h h' => h'.trans h) hab hbc

theorem set (hab : a.Same view b) (hx : b.get? h = some x) (hv : view y = view x) :
    a.Same view (b.set h y) := hab.trans (Follows.set (fun _ _ => rfl) hx hv)

end Arena.Same

namespace Program.SameShape

variable {p q r : Program} {s : State}

theorem refl (p : Program) : p.SameShape p where
  files := rfl
  enums := rfl
  globals := rfl
  ordered := List.prefix_rfl
  exprs := .refl _
  added _ hle hlt := absurd hlt (Nat.not_lt.2 hle)
  stmts := .refl _
  stmts_size := rfl
  classes := .refl _
  classes_size := rfl
  consts := .refl _
  consts_size := rfl
  fields := .refl _
  fields_size := rfl
  methods := .refl _
  methods_size := rfl
  vars := .refl _
  vars_size := rfl

/-- Work on expressions, types, constants and statements keeps the shape. -/
theorem work (h : p.SameShape q) (hw : q.Changes Set.univ r) : p.SameShape r := by
  have hexprs : q.exprs.Same (fun n => (n.line, n.kind.outline)) r.exprs :=
    hw.exprs.imp fun _ _ _ hs => Prod.ext hs.line hs.outline
  have hstmts : q.stmts.Same (fun n => (n.line, n.kind.outline)) r.stmts :=
    hw.stmts.imp fun _ _ _ hs => Prod.ext hs.line hs.outline
  refine { h with
      files := by rw [hw.rest, h.files]
      enums := hw.enums.trans h.enums
      globals := hw.globals.trans h.globals
      ordered := by rw [hw.ordered]; exact h.ordered
      exprs := h.exprs.trans hexprs
      added := fun e hle hlt => ?_
      stmts := h.stmts.trans hstmts
      stmts_size := hw.stmts_size.trans h.stmts_size
      classes := by rw [hw.classes]; exact h.classes
      classes_size := by rw [hw.classes, h.classes_size]
      consts := h.consts.trans (hw.consts.imp fun _ _ _ hs => hs.outline)
      consts_size := hw.consts_size.trans h.consts_size
      fields := by rw [hw.fields]; exact h.fields
      fields_size := by rw [hw.fields, h.fields_size]
      methods := by rw [hw.methods]; exact h.methods
      methods_size := by rw [hw.methods, h.methods_size]
      vars := h.vars.trans (hw.vars.imp fun _ _ _ hs => hs.outline)
      vars_size := hw.vars_size.trans h.vars_size }
  -- a literal that was there before is never changed
  rcases Nat.lt_or_ge e.slot q.exprs.size with hq | hq
  · exact hw.typedLiteral (h.added e hle hq)
  · exact hw.added e hq hlt

theorem of_moves {α : Type} {x : Pass α} {R : State → α → State → Prop}
    (h : ∀ s, Keeps (Moves Set.univ s) x s (R s)) :
    Preserves (fun s => p.SameShape s.program) x := fun s =>
  Preserves.of_keeps (Moves.weaken .univ (h s) fun _ hm hs => hs.work hm.program)

/-- Whatever the pass does, the shape stays. -/
theorem lawful (p : Program) : Lawful (fun _ => True) fun s => p.SameShape s.program where
  place hp _ h := hp ▸ h
  addScope _ _ h := h
  bindVar _ h := h
  void := trivial
  field _ hd h :=
    { h with fields := h.fields.set hd rfl, fields_size := by simpa using h.fields_size }
  method _ hd h :=
    { h with methods := h.methods.set hd rfl, methods_size := by simpa using h.methods_size }
  var _ hd h := { h with vars := h.vars.set hd rfl, vars_size := by simpa using h.vars_size }
  type e := of_moves fun _ => Moves.resolveType (.inl trivial)
  const k := of_moves fun _ => Moves.resolveConst (.inl trivial)
  stmt x := of_moves fun _ => Moves.resolveStmt trivial
  define _ _ h := h
  builtin _ _ := trivial
  setParent _ h := h
  setClass hd ho _ h :=
    { h with classes := h.classes.set hd ho, classes_size := by simpa using h.classes_size }
  addOrdered _ h := { h with ordered := h.ordered.trans (List.prefix_append _ _) }

end Program.SameShape

/-- Resolution keeps the shape of a program, whether it comes to its end or not. All that is added
are literals that have their own types, and classes at the end of the order. -/
theorem resolve_keeps_shape (p : Program) : p.SameShape p.resolve.program :=
  (Program.SameShape.lawful p).resolve (fun _ h => h) (.refl p)

end Ci
