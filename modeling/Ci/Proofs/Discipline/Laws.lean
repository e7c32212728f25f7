-- What every rule of a pass keeps. A discipline says which nodes a part of a pass may
-- visit, what may be put in their places, and which faults it may stop at. Worlds
-- are what is known on the way, and they only grow. The rules of a pass follow
-- every discipline, and so they are gone through once for all that they keep.
import Ci.Proofs.Pass.Endings

namespace Ci

open Pass Resolve ScopeTable

/-! ## Families of intervals -/

/-- A family that has every interval with a word in it, and that arithmetic does not leave. -/
structure Interval.Family (G : Interval → Prop) : Prop where
  valid : ∀ {i : Interval}, i.Valid → G i
  neg : ∀ {i : Interval}, G i → G i.neg
  complement : ∀ {i : Interval}, G i → G i.complement
  offset : ∀ {i : Interval} {d : Int64}, G i → G (i.offset d)
  union : ∀ {i j : Interval}, G i → G j → G (i.union j)
  apply : ∀ {op : IntOp} {i j r : Interval}, G i → G j → Interval.apply op i j = .ok r → G r

/-- Every interval inside the type is of a family. -/
def Ty.Within (G : Interval → Prop) : Ty → Prop
  | .range i => G i
  | .arrayPointer t _ => t.Within G
  | .arrayStorage t _ => t.Within G
  | _ => True

namespace Ty.Within

variable {G : Interval → Prop} {t l r : Ty} {i : Interval}

theorem imp {G' : Interval → Prop} (h : t.Within G) (hG : ∀ i, G i → G' i) : t.Within G' := by
  induction t with
  | range i => exact hG i h
  | arrayPointer _ _ ih => exact ih h
  | arrayStorage _ _ ih => exact ih h
  | _ => trivial

theorem asRange (h : t.Within G) (hi : t.asRange = some i) : G i := by
  cases t <;> simp_all [Ty.asRange, Within]

theorem element {u : Ty} (h : t.Within G) (hu : t.element = some u) : u.Within G := by
  cases t <;> simp_all [Ty.element, Within]

theorem getD {o : Option Ty} (h : ∀ t, o = some t → t.Within G) : (o.getD .void).Within G := by
  cases o with
  | none => trivial
  | some t => exact h t rfl

theorem resultTy {op : IntOp} : (Resolve.resultTy op l r).Within G := by
  unfold Resolve.resultTy numericResult integerResult
  repeat' split
  all_goals trivial

variable (hG : Interval.Family G)

include hG

theorem literal (v : Literal) : v.ty.Within G := by
  cases v with
  | int n => exact hG.valid (Int64.le_refl n)
  | null | bool | double | string => trivial

theorem length : Ty.length.Within G := hG.valid (by decide)

theorem unify (hl : l.Within G) (hr : r.Within G) (h : Ty.unify l r = some t) : t.Within G := by
  unfold Ty.unify at h
  split at h
  · cases h
    exact hl
  · split at h
    · cases h
      exact hG.union hl hr
    · repeat' split at h
      all_goals cases h
      all_goals trivial

theorem builtin : ∀ b ∈ builtins, b.2.Within G := by
  have hval : ∀ b ∈ builtins, b.2.Within Interval.Valid := by
    simp [builtins, Within, Interval.Valid, Ty.int, Ty.long, Ty.float, Ty.double]
  exact fun b hb => (hval b hb).imp fun _ => hG.valid

end Ty.Within

/-- Every interval in the types of a program is of a family. -/
structure Program.Within (G : Interval → Prop) (p : Program) : Prop where
  exprs : ∀ n ∈ p.exprs.toList, ∀ t, n.ty = some t → t.Within G
  names : ∀ n ∈ p.exprs.toList, ∀ text t, n.kind = .name text (some (.type t)) → t.Within G
  consts : ∀ d ∈ p.consts.toList, ∀ t, d.ty = some t → t.Within G
  fields : ∀ d ∈ p.fields.toList, ∀ t, d.ty = some t → t.Within G
  methods : ∀ d ∈ p.methods.toList, ∀ t, d.ty = some t → t.Within G
  vars : ∀ d ∈ p.vars.toList, ∀ t, d.ty = some t → t.Within G

theorem Ty.within_all (t : Ty) : t.Within fun _ => True := by
  induction t with
  | arrayPointer t _ ih | arrayStorage t _ ih => exact ih
  | _ => trivial

theorem Interval.family_all : Interval.Family fun _ => True :=
  ⟨fun _ => trivial, fun _ => trivial, fun _ => trivial, fun _ => trivial, fun _ _ => trivial,
    fun _ _ _ => trivial⟩

theorem Program.within_all (p : Program) : p.Within fun _ => True :=
  ⟨fun _ _ t _ => Ty.within_all t, fun _ _ _ t _ => Ty.within_all t, fun _ _ t _ => Ty.within_all t,
    fun _ _ t _ => Ty.within_all t, fun _ _ t _ => Ty.within_all t, fun _ _ t _ => Ty.within_all t⟩

/-! ## Slots -/

theorem exists_of_forall₂ {α β : Type} {R : α → β → Prop} {xs : List α} {ys : List β} {y : β}
    (h : List.Forall₂ R xs ys) (hy : y ∈ ys) : ∃ x ∈ xs, R x y := by
  induction h with
  | nil => simp at hy
  | cons hxy _ ih =>
    rcases List.mem_cons.1 hy with rfl | hy
    · exact ⟨_, List.mem_cons_self, hxy⟩
    · obtain ⟨x, hx, hb⟩ := ih hy
      exact ⟨x, List.mem_cons_of_mem _ hx, hb⟩

/-- What a slot comes to: an expression to another one, anything that may stay to itself. -/
inductive Becomes (R : ExprId → ExprId → Prop) (C : Node → Prop) : Node → Node → Prop
  | same {x : Node} (h : C x) : Becomes R C x x
  | expr {a b : ExprId} (h : R a b) : Becomes R C (.expr a) (.expr b)

/-- Slot by slot, what one list comes to is the other. -/
abbrev Turns (R : ExprId → ExprId → Prop) (C : Node → Prop) : List Node → List Node → Prop :=
  List.Forall₂ (Becomes R C)

/-- Anything may stay in its slot. -/
abbrev Slots (R : ExprId → ExprId → Prop) : List Node → List Node → Prop := Turns R fun _ => True

section

variable {R R' : ExprId → ExprId → Prop} {C C' : Node → Prop} {xs ys : List Node}

theorem Turns.mono (hR : ∀ a b, R a b → R' a b) (hC : ∀ y, C y → C' y) (h : Turns R C xs ys) :
    Turns R' C' xs ys := by
  refine h.imp fun x y hxy => ?_
  cases hxy with
  | same h => exact .same (hC _ h)
  | expr h => exact .expr (hR _ _ h)

theorem Turns.slots (h : Turns R C xs ys) :
    Slots R xs ys := h.mono (fun _ _ h => h) fun _ _ => trivial

theorem Turns.stay (h : ∀ x ∈ xs, C x) :
    Turns R C xs xs := List.forall₂_same.2 fun x hx => .same (h x hx)

theorem Turns.exprs {es es' : List ExprId} (h : List.Forall₂ R es es') :
    Turns R C (es.map .expr) (es'.map .expr) :=
  List.forall₂_map_left_iff.2 (List.forall₂_map_right_iff.2 (h.imp fun _ _ => .expr))

theorem Slots.refl (xs : List Node) : Slots R xs xs := .stay fun _ _ => trivial

theorem Slots.mono (hR : ∀ a b, R a b → R' a b) (h : Slots R xs ys) : Slots R' xs ys :=
  Turns.mono hR (fun _ h => h) h

end

/-- The name of the member that is accessed. -/
def Expr.member : Expr → List Node
  | .binary .dot _ (.expr m) => [.expr m]
  | _ => []

/-- What is looked up is bound. -/
def Finds (look : Resolve.Look) : Prop :=
  ∀ t i name symbol, look t i name = .ok (some symbol) →
    ∃ (j : Nat) (c : Scope), t.scopes[j]? = some c ∧ (name, symbol) ∈ c.bindings

theorem finds_lookup : Finds ScopeTable.lookup := fun _ _ _ _ h => bound_of_search h

theorem finds_lookupMember : Finds lookupMember :=
  fun _ _ _ _ h => bound_of_search h

theorem Arena.mem_of_fetch {k : Kind} {α : Type} {a : Arena k α} {h : Handle k} {x : α}
    (hx : a.fetch h = .ok x) : x ∈ a.toList := Arena.mem_toList_of_get? (Arena.fetch_ok.1 hx)

/-! ## Places and lines -/

/-- Where a rule stands: its file, its method, and the loops and choices around. -/
structure Pass.Spot where
  file : FileId
  method : Option MethodId
  around : List Breakable

/-- Where a pass stands. -/
def Pass.State.place (s : State) : Spot := ⟨s.file, s.method, s.breakables⟩

theorem SamePlace.place {s s' : State} (h : SamePlace s s') : s'.place = s.place := by
  simp [State.place, h.file, h.method, h.breakables]

/-- The lines of a node. Those of its parameters are lines of a method. -/
def Program.lines (p : Program) : Node → List UInt32
  | .classDecl c => (p.classes.get? c).elim [] fun d => [d.line]
  | .enumDecl e => (p.enums.get? e).elim [] fun d => [d.line]
  | .const k => (p.consts.get? k).elim [] fun d => [d.line]
  | .field f => (p.fields.get? f).elim [] fun d => [d.line]
  | .method m => (p.methods.get? m).elim [] fun d =>
    d.line :: d.params.flatMap fun v => (p.vars.get? v).elim [] fun c => [c.line]
  | .var _ => []
  | .stmt x => (p.stmts.get? x).elim [] fun n => [n.line]
  | .expr e => (p.exprs.get? e).elim [] fun n => [n.line]

/-- Where a constant of an owner is declared, if a rule stands at some place. -/
inductive Program.Homes (p : Program) (π : Spot) : Owner → Spot → Prop
  | program (file : FileId) : Homes p π (.program file) { π with file }
  | classDecl {c : ClassId} {d : ClassDecl} (hd : p.classes.get? c = some d) :
      Homes p π (.classDecl c) { π with file := d.file }
  | enumDecl {e : EnumId} {d : EnumDecl} (hd : p.enums.get? e = some d) :
      Homes p π (.enumDecl e) { π with file := d.file }
  | body : Homes p π .body π

/-! ## Jumps -/

/-- The statements inside a statement, with the loops and choices around them. -/
def Stmt.inner (around : List Breakable) : Stmt → List (List Breakable × StmtId)
  | .block body => body.map (around, ·)
  | .ifThen _ onTrue onFalse => (onTrue :: onFalse.toList).map (around, ·)
  | .whileLoop _ body | .doWhile body _ | .forLoop _ _ _ body => [(.loop :: around, body)]
  | .switch _ cases default =>
    (cases.flatMap (·.body) ++ default.getD []).map (.switch :: around, ·)
  | _ => []

theorem Stmt.mem_parts_of_inner {around : List Breakable} {kind : Stmt}
    {b : List Breakable × StmtId}
    (h : b ∈ kind.inner around) : .stmt b.2 ∈ kind.parts := by
  cases kind <;> simp only [Stmt.inner, List.mem_map, List.mem_singleton, List.not_mem_nil] at h
  case block body => obtain ⟨x, hx, rfl⟩ := h; simpa [Stmt.parts] using hx
  case ifThen => obtain ⟨x, hx, rfl⟩ := h; simpa [Stmt.parts] using hx
  case switch => obtain ⟨x, hx, rfl⟩ := h; simp_all [Stmt.parts, Case.parts]
  all_goals subst h; simp [Stmt.parts]

/-- A jump has something to leave or to repeat. -/
def Stmt.Lands (around : List Breakable) : Stmt → Prop
  | .leave => around ≠ []
  | .next => .loop ∈ around
  | _ => True

theorem Stmt.inner_outline (kind : Stmt) (around : List Breakable) :
    kind.outline.inner around = kind.inner around := by
  cases kind <;> simp [Stmt.outline, Stmt.inner, List.flatMap_map, Case.outline]

theorem Stmt.lands_outline (kind : Stmt) (around : List Breakable) :
    kind.outline.Lands around ↔ kind.Lands around := by
  cases kind <;> rfl

/-! ## Disciplines -/

/-- What a part of a pass may rely on and has to keep. -/
structure Discipline (W : Type) [Preorder W] where
  /-- The state belongs to the world. Some nodes may hold what is not covered yet: these slots
  are owed. -/
  Holds : Set (Node × Node) → W → State → Prop
  /-- The node may be visited from the place. -/
  At : W → Spot → Node → Prop
  /-- The second expression may take the place of the first. -/
  Gives : W → ExprId → ExprId → Prop
  /-- The node may stay in a slot. -/
  Covers : W → Node → Prop
  /-- What is in the slots of the node may stay there. -/
  Held : W → Node → Prop
  /-- A name may stand for the symbol. -/
  Means : W → Symbol → Prop
  /-- The constant has been resolved. -/
  Settled : W → ConstId → Prop
  /-- The expression has been of the kind. -/
  Fits : W → ExprId → Expr → Prop
  /-- The statement has been of the kind. -/
  FitsStmt : W → StmtId → Stmt → Prop
  /-- The variable has been this one. -/
  FitsVar : W → VarId → Var → Prop
  /-- The constant is being visited, and it has been this one. -/
  FitsConst : W → ConstId → Const → Prop
  /-- The interval may be in a type. -/
  Family : Interval → Prop
  /-- A fault may be found at the line. -/
  Lines : Spot → UInt32 → Prop
  /-- The pass may stop at the fault. -/
  Blames : Diagnostic → Prop
  /-- The statement has been resolved at the place. -/
  Done : W → Spot → StmtId → Prop
  family : Interval.Family Family
  -- what is known stays known
  at_mono : ∀ {w w' π x}, w ≤ w' → At w π x → At w' π x
  gives_mono : ∀ {w w' a b}, w ≤ w' → Gives w a b → Gives w' a b
  covers_mono : ∀ {w w' x}, w ≤ w' → Covers w x → Covers w' x
  held_mono : ∀ {w w' x}, w ≤ w' → Held w x → Held w' x
  means_mono : ∀ {w w' symbol}, w ≤ w' → Means w symbol → Means w' symbol
  fits_mono : ∀ {w w' e kind}, w ≤ w' → Fits w e kind → Fits w' e kind
  fitsStmt_mono : ∀ {w w' x kind}, w ≤ w' → FitsStmt w x kind → FitsStmt w' x kind
  fitsVar_mono : ∀ {w w' v d}, w ≤ w' → FitsVar w v d → FitsVar w' v d
  fitsConst_mono : ∀ {w w' k d}, w ≤ w' → FitsConst w k d → FitsConst w' k d
  done_mono : ∀ {w w' π x}, w ≤ w' → Done w π x → Done w' π x
  place : ∀ {Δ w} {s s' : State}, s'.program = s.program → s'.table.scopes = s.table.scopes →
    Holds Δ w s → Holds Δ w s'
  at_around : ∀ {w π x around}, (∀ y, x ≠ .stmt y) → At w π x → At w { π with around } x
  -- what is owed
  owe : ∀ {Δ w s} d, Holds Δ w s → Holds (insert d Δ) w s
  pay : ∀ {Δ w s x y}, Holds (insert (x, y) Δ) w s → Covers w y → Holds Δ w s
  gives_covers : ∀ {w a b}, Gives w a b → Covers w (.expr b)
  settled_covers : ∀ {w k}, Settled w k → Covers w (.const k)
  done_covers : ∀ {w π x}, Done w π x → Covers w (.stmt x)
  hold : ∀ {Δ w s e n}, Holds Δ w s → s.program.exprs.get? e = some n →
    (∀ y ∈ n.kind.parts, Covers w y ∨ y ∈ n.kind.member ∨ (.expr e, y) ∈ Δ) →
    ∃ w', w ≤ w' ∧ Holds Δ w' s ∧ Held w' (.expr e)
  held_name : ∀ {w e text known}, Fits w e (.name text known) → Held w (.expr e)
  -- what is found
  types : ∀ {Δ w s}, Holds Δ w s → s.program.Within Family
  line : ∀ {Δ w s π x l}, Holds Δ w s → At w π x → l ∈ s.program.lines x → Lines π l
  blame : ∀ {Δ w s l fault}, Holds Δ w s → Lines s.place l → fault.isJump = false →
    Blames ⟨s.program.path s.file, l, fault⟩
  bound : ∀ {Δ w s name symbol} {i : Nat} {c : Scope}, Holds Δ w s → s.table.scopes[i]? = some c →
    (name, symbol) ∈ c.bindings → Means w symbol
  means_type : ∀ {w t}, Means w (.type t) → t.Within Family
  means_other : ∀ {w symbol}, (∀ t, symbol ≠ .type t) → (∀ k, symbol ≠ .const k) → Means w symbol
  node : ∀ {Δ w s π e n}, Holds Δ w s → At w π (.expr e) → s.program.exprs.get? e = some n →
    Fits w e n.kind ∧ (∀ y ∈ n.kind.parts, At w π y) ∧
      ∀ text symbol, n.kind = .name text (some symbol) → Means w symbol
  var : ∀ {Δ w s π v d}, Holds Δ w s → At w π (.var v) → s.program.vars.get? v = some d →
    FitsVar w v d ∧ ∀ y ∈ d.parts, At w π y
  const : ∀ {Δ w s π k d d'}, Holds Δ w s → At w π (.const k) → FitsConst w k d →
    s.program.consts.get? k = some d' → FitsConst w k d' ∧ ∀ y ∈ d'.parts, At w π y
  stmt : ∀ {Δ w s π x n}, Holds Δ w s → At w π (.stmt x) → s.program.stmts.get? x = some n →
    FitsStmt w x n.kind ∧ (∀ y ∈ n.kind.parts, (∀ z, y ≠ .stmt z) → At w π y) ∧
      ∀ b ∈ n.kind.inner π.around, At w { π with around := b.1 } (.stmt b.2)
  -- what takes the place of an expression
  gives_child : ∀ {w e kind c c'}, Fits w e kind → .expr c ∈ kind.parts →
    Gives w c c' → Gives w e c'
  gives_at : ∀ {w π e e'}, At w π (.expr e) → Gives w e e' → At w π (.expr e')
  replace : ∀ {Δ w s e n kind kind'}, Holds Δ w s → Fits w e kind → kind.isLiteral = false →
    Turns (Gives w) (fun y => Covers w y ∨ y ∈ kind.member ∨ (.expr e, y) ∈ Δ)
    kind.parts kind'.parts →
    kind'.outline = kind.outline → kind'.member = kind.member →
    (∀ text symbol, kind' = .name text (some symbol) → Means w symbol) →
    s.program.exprs.get? e = some n →
    ∃ w', w ≤ w' ∧ Holds Δ w' (s.put e { n with kind := kind' }) ∧ Held w' (.expr e)
  record : ∀ {Δ w s e n kind t}, Holds Δ w s → Fits w e kind → kind.isLiteral = false →
    Held w (.expr e) → (∀ y ∈ kind.member, Covers w y) → t.Within Family →
    s.program.exprs.get? e = some n →
    ∃ w', w ≤ w' ∧ Holds Δ w' (s.put e { n with ty := some t }) ∧ Gives w' e e
  recordLiteral : ∀ {Δ w s π e n v}, Holds Δ w s → At w π (.expr e) → n.kind = .literal v →
    s.program.exprs.get? e = some n →
    ∃ w', w ≤ w' ∧ Holds Δ w' (s.put e { n with ty := some v.ty }) ∧ Gives w' e e
  fold : ∀ {Δ w s π e n v}, Holds Δ w s → At w π (.expr e) → s.program.exprs.get? e = some n →
    s.program.exprs.size < UInt32.size →
    ∃ w', w ≤ w' ∧ Holds Δ w' (s.grow n.line v) ∧ Gives w' e s.program.exprs.next
  -- variables
  varValue : ∀ {Δ w s v d d' a b}, Holds Δ w s → FitsVar w v d → d.value = some a → Gives w a b →
    Covers w (.expr d.typeExpr) → s.program.vars.get? v = some d' →
    ∃ w', w ≤ w' ∧ Holds Δ w' (s.setVar v { d' with value := some b }) ∧ Held w' (.var v)
  varTy : ∀ {Δ w s v d d' t}, Holds Δ w s → FitsVar w v d → t.Within Family →
    Covers w (.expr d.typeExpr) → d.value = none ∨ Held w (.var v) →
    s.program.vars.get? v = some d' →
    ∃ w', w ≤ w' ∧ Holds Δ w' (s.setVar v { d' with ty := some t }) ∧ Covers w' (.var v)
  bindVar : ∀ {Δ w s π v i name t}, Holds Δ w s → At w π (.var v) →
    s.table.define? i name (.var v) = .ok (some t) → Holds Δ w { s with table := t }
  -- constants
  home : ∀ {Δ Δ' w s s' π π' k d}, Holds Δ w s → Means w (.const k) ∨ At w π (.const k) →
    s.program.consts.get? k = some d → Holds Δ' w s' → s'.program.Homes π d.owner π' →
    At w π' (.const k) ∨ Settled w k
  settle : ∀ {Δ w s k d}, Holds Δ w s → s.program.consts.get? k = some d → d.status = .resolved →
    ∃ w', w ≤ w' ∧ Holds Δ w' s ∧ Settled w' k
  resolved : ∀ {Δ w s k d}, Holds Δ w s → Settled w k → s.program.consts.get? k = some d →
    d.status = .resolved
  means_settled : ∀ {Δ w s k}, Holds Δ w s → Settled w k → Means w (.const k)
  visit : ∀ {Δ w s π k d}, Holds Δ w s → At w π (.const k) → s.program.consts.get? k = some d →
    d.status = .unvisited →
    ∃ w', w ≤ w' ∧ Holds Δ w' (s.setConst k { d with status := .inProgress }) ∧ FitsConst w' k d
  constValue : ∀ {Δ w s k d d' a b},
    Holds Δ w s → FitsConst w k d → d.value = some a → Gives w a b →
    (∀ t ∈ d.typeExpr, Covers w (.expr t)) → s.program.consts.get? k = some d' →
    ∃ w', w ≤ w' ∧ Holds Δ w' (s.setConst k { d' with value := some b }) ∧ Held w' (.const k)
  constTy : ∀ {Δ w s k d d' t}, Holds Δ w s → FitsConst w k d → t.Within Family →
    (∀ c, d.owner = .enumDecl c → t = .enumeration c) → s.program.consts.get? k = some d' →
    Holds Δ w (s.setConst k { d' with ty := some t })
  finishConst : ∀ {Δ w s k d d'}, Holds Δ w s → FitsConst w k d →
    (∀ t ∈ d.typeExpr, Covers w (.expr t)) → d.value = none ∨ Held w (.const k) →
    s.program.consts.get? k = some d' →
    ∃ w', w ≤ w' ∧ Holds Δ w' (s.setConst k { d' with status := .resolved }) ∧ Settled w' k
  bindConst : ∀ {Δ w s π x k i name t}, Holds Δ w s → At w π (.stmt x) → Means w (.const k) →
    s.table.define? i name (.const k) = .ok (some t) →
    Holds Δ w { s with table := t }
  -- statements
  addScope : ∀ {Δ w s π x kind parent}, Holds Δ w s → At w π (.stmt x) →
    Holds Δ w { s with table := s.table.add kind parent }
  jump : ∀ {Δ Δ' w s s' π x n fault},
    Holds Δ w s → At w π (.stmt x) → s.program.stmts.get? x = some n →
    ¬ n.kind.Lands π.around → Holds Δ' w s' → s'.place = π →
    Blames ⟨s'.program.path s'.file, n.line, fault⟩
  setStmt : ∀ {Δ w s π x n kind kind'}, Holds Δ w s → FitsStmt w x kind →
    Turns (Gives w) (Covers w) kind.parts kind'.parts → kind'.outline = kind.outline →
    kind.Lands π.around → (∀ b ∈ kind.inner π.around, Done w { π with around := b.1 } b.2) →
    s.program.stmts.get? x = some n →
    ∃ w', w ≤ w' ∧ Holds Δ w' (s.setStmt x { n with kind := kind' }) ∧ Done w' π x

end Ci
