-- Which nodes of a program are left without a hole. A node is covered once it has its
-- type and whatever it holds is covered. The rules of a pass keep what is covered
-- that way, and cover what they visit.
import Ci.Proofs.Discipline.Rules
import Ci.Proofs.Frame.Shape

namespace Ci

open Pass

variable {p q r : Program} {w : Set Node × Set Node} {Δ : Set (Node × Node)} {s s' : State}
  {x y z : Node} {e : ExprId} {n n' : ExprNode} {k : ConstId} {v : VarId}

/-! ## What is live -/

namespace Program

/-- What a node leads to. The value of a parameter is not looked at. -/
def live (p : Program) : Node → List Node
  | .method m => (p.methods.get? m).elim [] fun d =>
    d.typeExpr.toList.map .expr ++
      d.params.flatMap (fun v => (p.vars.get? v).toList.map fun d => .expr d.typeExpr) ++
      d.body.toList.map .stmt
  | y => p.parts y

/-- A node has its type. Only expressions have one. -/
def Typed (p : Program) : Node → Prop
  | .expr e => ∃ n, p.exprs.get? e = some n ∧ n.ty ≠ none
  | _ => True

/-- A node leads to another over any number of steps. -/
def Leads (p : Program) : Node → Node → Prop := Relation.ReflTransGen fun y z => z ∈ p.live y

theorem Leads.refl : p.Leads y y := Relation.ReflTransGen.refl

theorem Leads.tail (h : p.Leads y z) (hx : x ∈ p.live z) : p.Leads y x :=
  Relation.ReflTransGen.tail h hx

/-- Where the walk through a program starts: at its classes, its enumerations and its global
constants. -/
def Top (p : Program) : Node → Prop
  | .classDecl c => c ∈ p.classes.handles
  | .enumDecl d => d ∈ p.enums.handles
  | .const k => k ∈ p.globals
  | _ => False

/-- The name of the member, if the node is the access to one. -/
def member (p : Program) : Node → List Node
  | .expr e => (p.exprs.get? e).elim [] fun n => n.kind.member
  | _ => []

theorem live_expr (h : p.exprs.get? e = some n) : p.live (.expr e) = n.kind.parts := parts_expr h

theorem live_var {d : Var} (h : p.vars.get? v = some d) :
    p.live (.var v) = .expr d.typeExpr :: d.value.toList.map .expr := parts_var h

theorem live_const {d : Const} (h : p.consts.get? k = some d) :
    p.live (.const k) = (d.typeExpr.toList ++ d.value.toList).map .expr := parts_const h

theorem live_stmt {x : StmtId} {m : StmtNode} (h : p.stmts.get? x = some m) :
    p.live (.stmt x) = m.kind.parts := parts_stmt h

theorem member_expr (h : p.exprs.get? e = some n) : p.member (.expr e) = n.kind.member := by
  simp [member, h]

/-- What stays of a program: the outlines of its parts, its lists of declarations, and what
fields and methods lead to. Only literals are added. -/
structure Retains (p q : Program) : Prop where
  exprs : p.exprs.Same (fun n => (n.kind.outline, n.kind.member)) q.exprs
  added : ∀ e n, q.exprs.get? e = some n → p.exprs.get? e = none → n.kind.isLiteral = true
  consts : ∀ k d, q.consts.get? k = some d → ∃ d0,
    p.consts.get? k = some d0 ∧ d.outline = d0.outline
  vars : ∀ v d, q.vars.get? v = some d → ∃ d0, p.vars.get? v = some d0 ∧ d.outline = d0.outline
  fields : ∀ f, q.live (.field f) = p.live (.field f)
  methods : ∀ m, q.live (.method m) = p.live (.method m)
  signatures : ∀ m d, q.methods.get? m = some d → ∃ d0,
    p.methods.get? m = some d0 ∧ d.outline = d0.outline
  classes : q.classes = p.classes
  enums : q.enums = p.enums
  globals : q.globals = p.globals
  ordered : q.ordered = p.ordered

theorem Retains.refl (p : Program) : p.Retains p :=
  ⟨.refl _, fun _ _ h h' => (by simp [h] at h'), fun _ d h => ⟨d, h, rfl⟩, fun _ d h => ⟨d, h, rfl⟩,
    fun _ => rfl, fun _ => rfl, fun _ d h => ⟨d, h, rfl⟩, rfl, rfl, rfl, rfl⟩

theorem Retains.trans (h : p.Retains q) (h' : q.Retains r) : p.Retains r := by
  refine ⟨h.exprs.trans h'.exprs, fun e n hn hp => ?_, fun k d hd => ?_, fun v d hd => ?_,
    fun f => (h'.fields f).trans (h.fields f), fun m => (h'.methods m).trans (h.methods m),
    fun m d hd => ?_,
    h'.classes.trans h.classes, h'.enums.trans h.enums, h'.globals.trans h.globals,
    h'.ordered.trans h.ordered⟩
  · cases hq : q.exprs.get? e with
    | none => exact h'.added e n hn hq
    | some n1 =>
      obtain ⟨n2, hn2, hv⟩ := h'.exprs.part e n1 hq
      obtain rfl := hn.some_unique hn2
      have ho : n.kind.outline = n1.kind.outline := (Prod.ext_iff.1 hv).1
      rw [← Expr.isLiteral_outline, ho, Expr.isLiteral_outline]
      exact h.added e n1 hq hp
  · obtain ⟨d1, hd1, ho1⟩ := h'.consts k d hd
    obtain ⟨d0, hd0, ho0⟩ := h.consts k d1 hd1
    exact ⟨d0, hd0, ho1.trans ho0⟩
  · obtain ⟨d1, hd1, ho1⟩ := h'.vars v d hd
    obtain ⟨d0, hd0, ho0⟩ := h.vars v d1 hd1
    exact ⟨d0, hd0, ho1.trans ho0⟩
  · obtain ⟨d1, hd1, ho1⟩ := h'.signatures m d hd
    obtain ⟨d0, hd0, ho0⟩ := h.signatures m d1 hd1
    exact ⟨d0, hd0, ho1.trans ho0⟩

/-- A change of one node. -/
structure Alters (x : Node) (p q : Program) : Prop extends p.Retains q where
  typed : ∀ y, p.Typed y → q.Typed y
  live : ∀ y, y ≠ x → q.live y = p.live y
  member : ∀ y, q.member y = p.member y

namespace Alters

theorem refl (p : Program) : p.Alters x p := ⟨.refl p, fun _ h => h, fun _ _ => rfl, fun _ => rfl⟩

/-- Another expression of the same outline. -/
theorem put (hn : s.program.exprs.get? e = some n) (ho : n'.kind.outline = n.kind.outline)
    (hm : n'.kind.member = n.kind.member) (ht : n.ty ≠ none → n'.ty ≠ none) :
    s.program.Alters (.expr e) (s.put e n').program := by
  have hself : (s.put e n').program.exprs.get? e = some n' := get?_put_self hn
  refine ⟨{ Retains.refl s.program with
    exprs := (Arena.Same.refl _).set hn (Prod.ext ho hm), added := fun e' m hm hnone => ?_ },
    fun y hy => ?_, fun y hy => ?_, fun y => ?_⟩
  · rcases Arena.get?_set_cases hm with ⟨rfl, -⟩ | hm
    · simp [hn] at hnone
    · simp [hm] at hnone
  · cases y with
    | expr e' =>
      obtain ⟨m, hm, hmt⟩ := hy
      by_cases he : e = e'
      · subst he
        obtain rfl := hn.some_unique hm
        exact ⟨n', hself, ht hmt⟩
      · exact ⟨m, (get?_put_of_ne he).trans hm, hmt⟩
    | _ => trivial
  · cases y with
    | expr e' =>
      have he : e ≠ e' := fun h => hy (by rw [h])
      simp only [Program.live, Program.parts, get?_put_of_ne he]
    | _ => rfl
  · cases y with
    | expr e' => exact Arena.elim_set hn hm
    | _ => rfl

/-- A new literal. -/
theorem grow (room : s.program.exprs.size < UInt32.size) (line : UInt32) (value : Literal) :
    s.program.Alters (.expr s.program.exprs.next) (s.grow line value).program := by
  have hold : ∀ {e n}, s.program.exprs.get? e = some n →
      (s.grow line value).program.exprs.get? e = some n := Arena.get?_push_of_some
  have hother : ∀ {e}, e ≠ s.program.exprs.next →
      (s.grow line value).program.exprs.get? e = s.program.exprs.get? e :=
        Arena.get?_push_of_ne room
  refine ⟨{ Retains.refl s.program with
    exprs := Arena.Follows.push fun _ _ => rfl, added := fun e' m hm hnone => ?_ },
    fun y hy => ?_, fun y hy => ?_, fun y => ?_⟩
  · rcases Arena.get?_push_cases hm with rfl | hm
    · rfl
    · simp [hm] at hnone
  · cases y with
    | expr =>
      obtain ⟨n, hn, ht⟩ := hy
      exact ⟨n, hold hn, ht⟩
    | _ => trivial
  · cases y with
    | expr e =>
      have he : e ≠ s.program.exprs.next := fun h => hy (by rw [h])
      simp only [Program.live, Program.parts, hother he]
    | _ => rfl
  · cases y with
    | expr e =>
      by_cases he : e = s.program.exprs.next
      · subst he
        have hself : (s.grow line value).program.exprs.get? s.program.exprs.next = some _ :=
          Arena.get?_next_push room
        have hnone : s.program.exprs.get? s.program.exprs.next = none :=
          Arena.get?_eq_none (Arena.slot_next room).ge
        simp [Program.member, hself, hnone, Expr.member]
      · simp only [Program.member, hother he]
    | _ => rfl

/-- A change that no expression sees. -/
theorem of_rest (he : q.exprs = p.exprs) (hr : p.Retains q) (hl : ∀ y,
    y ≠ x → q.live y = p.live y) :
    p.Alters x q := by
  refine ⟨hr, fun y hy => ?_, hl, fun y => ?_⟩
  · cases y with
    | expr => simpa only [Program.Typed, he] using hy
    | _ => trivial
  · cases y with
    | expr => simp only [Program.member, he]
    | _ => rfl

theorem setVar {d d' : Var} (hd : s.program.vars.get? v = some d) (ho : d'.outline = d.outline) :
    s.program.Alters (.var v) (s.setVar v d').program := by
  have ht : d'.typeExpr = d.typeExpr := (congrArg Var.typeExpr ho :)
  have hmethods : ∀ m, (s.setVar v d').program.live (.method m) = s.program.live (.method m) := by
    have htypes : ∀ v',
      ((s.setVar v d').program.vars.get? v').toList.map (fun d => Node.expr d.typeExpr) =
        (s.program.vars.get? v').toList.map fun d => Node.expr d.typeExpr := fun v' =>
      Arena.get?_set_of (P := fun o => o.toList.map (fun d : Var => Node.expr d.typeExpr) =
        (s.program.vars.get? v').toList.map fun d => Node.expr d.typeExpr) hd
        (fun heq => by simp [← heq, hd, ht]) rfl
    intro m
    simp only [Program.live, htypes]
    rfl
  refine .of_rest rfl { Retains.refl s.program with methods := hmethods, vars := fun v' c hc => ?_ }
    fun y hy => ?_
  · rcases Arena.get?_set_cases hc with ⟨rfl, rfl⟩ | hc
    · exact ⟨d, hd, ho⟩
    · exact ⟨c, hc, rfl⟩
  · cases y with
    | var v' =>
      have hother := Arena.get?_set_of_ne (a := s.program.vars) (x := d') fun h : v = v' =>
        hy (by rw [h])
      simp only [Program.live, Program.parts, State.setVar, hother]
    | method => exact hmethods _
    | _ => rfl

theorem setConst {d d' : Const} (hd : s.program.consts.get? k = some d)
    (ho : d'.outline = d.outline) :
    s.program.Alters (.const k) (s.setConst k d').program := by
  refine .of_rest rfl { Retains.refl s.program with consts := fun k' c hc => ?_ } fun y hy => ?_
  · rcases Arena.get?_set_cases hc with ⟨rfl, rfl⟩ | hc
    · exact ⟨d, hd, ho⟩
    · exact ⟨c, hc, rfl⟩
  · cases y with
    | const k' =>
      have hother := Arena.get?_set_of_ne (a := s.program.consts) (x := d') fun h : k = k' =>
        hy (by rw [h])
      simp only [Program.live, Program.parts, State.setConst, hother]
    | _ => rfl

theorem setStmt {x : StmtId} {m : StmtNode} :
    s.program.Alters (.stmt x) (s.setStmt x m).program := by
  refine .of_rest rfl { Retains.refl s.program with } fun y hy => ?_
  cases y with
  | stmt x' =>
    have hother := Arena.get?_set_of_ne (a := s.program.stmts) (x := m) fun h : x = x' =>
      hy (by rw [h])
    simp only [Program.live, Program.parts, State.setStmt, hother]
  | _ => rfl

end Alters

end Program

/-! ## What is covered -/

/-- Some nodes have been seen to, and some of them are covered. What a node holds that has been
seen to is covered, or it is the name of the member that it accesses, or it is owed. Whatever is
covered has its type, and so has the member that it accesses. -/
structure Covering (p : Program) (Δ : Set (Node × Node)) (w : Set Node × Set Node) (s : State) :
    Prop where
  slots : ∀ x ∈ w.1, ∀ y ∈ s.program.live x, y ∈ w.2 ∨ y ∈ s.program.member x ∨ (x, y) ∈ Δ
  covered : ∀ x ∈ w.2, x ∈ w.1 ∧ s.program.Typed x ∧ ∀ y ∈ s.program.member x, y ∈ w.2
  settled : ∀ k d, s.program.consts.get? k = some d → (d.status = .resolved ↔ .const k ∈ w.2)
  retains : p.Retains s.program

namespace Covering

/-- The expression is one of the program at the start, with the same outline. -/
def Like (p : Program) (e : ExprId) (kind : Expr) : Prop :=
  ∃ n, p.exprs.get? e = some n ∧ (kind.outline, kind.member) = (n.kind.outline, n.kind.member)

/-- What the node holds has been seen to. A name holds nothing. -/
def Seen (p : Program) (w : Set Node × Set Node) (x : Node) : Prop :=
  x ∈ w.1 ∨ ∃ e text known, x = .expr e ∧ Like p e (.name text known)

section

variable (h : Covering p Δ w s)

include h

/-- After a change of one node, which may have been seen to and may be covered. -/
theorem step {V : Set Node} (ha : s.program.Alters x s'.program)
    (hx : ∀ y ∈ s'.program.live x, y ∈ w.2 ∨ y ∈ s'.program.member x ∨ (x, y) ∈ Δ) (hle : w.2 ⊆ V)
    (hV : ∀ y ∈ V, y ∈ w.2 ∨ y = x ∧ s'.program.Typed x ∧ ∀ z ∈ s'.program.member x, z ∈ w.2)
    (hk : ∀ k d, s'.program.consts.get? k = some d → (d.status = .resolved ↔ .const k ∈ V)) :
    Covering p Δ (insert x w.1, V) s' := by
  refine ⟨fun y hy z hz => ?_, fun y hy => ?_, hk, h.retains.trans ha.toRetains⟩
  · by_cases hyx : y = x
    · subst hyx
      exact (hx z hz).imp_left fun hz => hle hz
    · rw [ha.live y hyx] at hz
      rw [ha.member]
      exact (h.slots y (hy.resolve_left hyx) z hz).imp_left fun hz => hle hz
  · rcases hV y hy with hy | ⟨rfl, ht, hm⟩
    · obtain ⟨hy1, ht, hm⟩ := h.covered y hy
      exact ⟨.inr hy1, ha.typed y ht, fun z hz => hle (hm z (ha.member y ▸ hz))⟩
    · exact ⟨.inl rfl, ht, fun z hz => hle (hm z hz)⟩

/-- The node has been seen to. -/
theorem see (ha : s.program.Alters x s'.program)
    (hx : ∀ y ∈ s'.program.live x, y ∈ w.2 ∨ y ∈ s'.program.member x ∨ (x, y) ∈ Δ)
    (hk : ∀ k d, s'.program.consts.get? k = some d → (d.status = .resolved ↔ .const k ∈ w.2)) :
    ∃ w', w ≤ w' ∧ Covering p Δ w' s' ∧ Seen p w' x :=
  ⟨(insert x w.1, w.2), ⟨Set.subset_insert _ _, le_rfl⟩,
    h.step ha hx le_rfl (fun _ hy => .inl hy) hk, .inl (Set.mem_insert _ _)⟩

/-- The node is covered. -/
theorem cover (ha : s.program.Alters x s'.program) (hc : s'.program.consts = s.program.consts)
    (hn : ∀ k, x ≠ .const k) (ht : s'.program.Typed x) (hm : ∀ y ∈ s'.program.member x, y ∈ w.2)
    (hx : ∀ y ∈ s'.program.live x, y ∈ w.2 ∨ y ∈ s'.program.member x ∨ (x, y) ∈ Δ) :
    ∃ w', w ≤ w' ∧ Covering p Δ w' s' ∧ x ∈ w'.2 := by
  refine ⟨(insert x w.1, insert x w.2), ⟨Set.subset_insert _ _, Set.subset_insert _ _⟩,
    h.step ha hx (Set.subset_insert _ _) (fun _ hy => hy.symm.imp_right fun hy => ⟨hy, ht, hm⟩)
    fun k d hd => ?_, Set.mem_insert _ _⟩
  rw [h.settled k d (hc ▸ hd), Set.mem_insert_iff, or_iff_right (hn k).symm]

/-- A change that no node sees. -/
theorem same (hr : s.program.Retains s'.program) (ht : ∀ y, s.program.Typed y → s'.program.Typed y)
    (hl : ∀ y, s'.program.live y = s.program.live y)
    (hm : ∀ y, s'.program.member y = s.program.member y)
    (hk : ∀ k d, s'.program.consts.get? k = some d → (d.status = .resolved ↔ .const k ∈ w.2)) :
    Covering p Δ w s' := by
  refine ⟨fun y hy z hz => ?_, fun y hy => ?_, hk, h.retains.trans hr⟩
  · rw [hl] at hz
    rw [hm]
    exact h.slots y hy z hz
  · obtain ⟨hy1, ht1, hm1⟩ := h.covered y hy
    exact ⟨hy1, ht y ht1, fun z hz => hm1 z (hm y ▸ hz)⟩

/-- The present expression is like the one that was there before. -/
theorem like {kind : Expr} (hf : Like p e kind) (hn : s.program.exprs.get? e = some n) :
    kind.outline = n.kind.outline ∧ kind.member = n.kind.member := by
  obtain ⟨n0, hn0, hv⟩ := hf
  obtain ⟨n1, hn1, hv1⟩ := h.retains.exprs.part e n0 hn0
  obtain rfl := hn.some_unique hn1
  exact Prod.ext_iff.1 (hv.trans hv1.symm)

theorem slots_of_seen (he : Seen p w (.expr e)) (hn : s.program.exprs.get? e = some n) :
    ∀ y ∈ n.kind.parts, y ∈ w.2 ∨ y ∈ n.kind.member ∨ (.expr e, y) ∈ Δ := by
  rcases he with he | ⟨_, text, known, ⟨⟩, hl⟩
  · have hs := h.slots _ he
    rwa [Program.live_expr hn, Program.member_expr hn] at hs
  · have ho := (h.like hl hn).1
    cases hk : n.kind <;> simp_all

/-- An expression gets its type, and it is covered. -/
theorem record {ty : Ty} (hn : s.program.exprs.get? e = some n) (hm : ∀ y ∈ n.kind.member, y ∈ w.2)
    (hx : ∀ y ∈ n.kind.parts, y ∈ w.2 ∨ y ∈ n.kind.member ∨ (.expr e, y) ∈ Δ) :
    ∃ w', w ≤ w' ∧ Covering p Δ w' (s.put e { n with ty := some ty }) ∧ .expr e ∈ w'.2 := by
  have hself : (s.put e { n with ty := some ty }).program.exprs.get? e = some _ := get?_put_self hn
  refine h.cover (.put hn rfl rfl fun _ => by simp) rfl (by simp) ⟨_, hself, by simp⟩ ?_ ?_
  · rwa [Program.member_expr hself]
  · rwa [Program.live_expr hself, Program.member_expr hself]

/-- The present variable is like the one that was there before. -/
theorem like_var {d d' : Var} (hf : ∃ d0, p.vars.get? v = some d0 ∧ d.outline = d0.outline)
    (hd : s.program.vars.get? v = some d') : d.outline = d'.outline := by
  obtain ⟨d0, hd0, ho⟩ := hf
  obtain ⟨d1, hd1, ho1⟩ := h.retains.vars v d' hd
  obtain rfl := hd0.some_unique hd1
  exact ho.trans ho1.symm

/-- The present constant is like the one that was there before. -/
theorem like_const {d d' : Const} (hf : ∃ d0, p.consts.get? k = some d0 ∧ d.outline = d0.outline)
    (hd : s.program.consts.get? k = some d') : d.outline = d'.outline := by
  obtain ⟨d0, hd0, ho⟩ := hf
  obtain ⟨d1, hd1, ho1⟩ := h.retains.consts k d' hd
  obtain rfl := hd0.some_unique hd1
  exact ho.trans ho1.symm

/-- A constant keeps its status. -/
theorem settled_set {d d' : Const} (hd : s.program.consts.get? k = some d)
    (hs : d'.status = d.status) :
    ∀ k' c, (s.setConst k d').program.consts.get? k' = some c →
    (c.status = .resolved ↔ .const k' ∈ w.2) := by
  intro k' c hc
  rcases Arena.get?_set_cases hc with ⟨rfl, rfl⟩ | hc
  · rw [hs]
    exact h.settled _ d hd
  · exact h.settled k' c hc

/-- A constant keeps what it holds. -/
theorem setConst {d d' : Const} (hd : s.program.consts.get? k = some d)
    (ho : d'.outline = d.outline)
    (hv : d'.value = d.value)
    (hk : ∀ k' c, (s.setConst k d').program.consts.get? k' = some c →
      (c.status = .resolved ↔ .const k' ∈ w.2)) : Covering p Δ w (s.setConst k d') := by
  have ht : d'.typeExpr = d.typeExpr := (congrArg Const.typeExpr ho :)
  have ha := Program.Alters.setConst hd ho
  refine h.same ha.toRetains ha.typed (fun y => ?_) ha.member hk
  cases y with
  | const => exact Arena.elim_set hd (by simp only [Const.parts, ht, hv])
  | _ => rfl

/-- Another type of a field. -/
theorem setField {f : FieldId} {d : Field} {ty : Option Ty}
    (hd : s.program.fields.get? f = some d) :
    Covering p Δ w
    { s with program := { s.program with fields := s.program.fields.set f { d with ty } } } := by
  refine h.same { Program.Retains.refl s.program with fields := fun _ => Arena.elim_set hd rfl }
    (fun _ h => h) (fun y => ?_) (fun _ => rfl) h.settled
  cases y with
  | field => exact Arena.elim_set hd rfl
  | _ => rfl

/-- Another type of a method. -/
theorem setMethod {m : MethodId} {d : Method} {ty : Option Ty}
    (hd : s.program.methods.get? m = some d) :
    Covering p Δ w
    { s with program := { s.program with methods := s.program.methods.set m { d with ty } } } := by
  refine h.same { Program.Retains.refl s.program with
    methods := fun _ => Arena.elim_set hd rfl, signatures := fun m' a ha => ?_ }
    (fun _ h => h) (fun y => ?_) (fun _ => rfl) h.settled
  · rcases Arena.get?_set_cases ha with ⟨rfl, rfl⟩ | ha
    · exact ⟨d, hd, rfl⟩
    · exact ⟨a, ha, rfl⟩
  · cases y with
    | method => exact Arena.elim_set hd rfl
    | _ => rfl

/-- Another type of a variable. -/
theorem setVarTy {d : Var} {ty : Option Ty} (hd : s.program.vars.get? v = some d) :
    Covering p Δ w (s.setVar v { d with ty }) := by
  have ha : s.program.Alters (.var v) (s.setVar v { d with ty }).program := .setVar hd rfl
  refine h.same ha.toRetains ha.typed (fun y => ?_) ha.member h.settled
  by_cases hy : y = .var v
  · subst hy
    exact Arena.elim_set hd rfl
  · exact ha.live y hy

/-! ### The laws -/

omit h in
/-- What is owed and has been covered is owed no more. -/
theorem pay {y : Node} (h : Covering p (insert (x, y) Δ) w s) (hy : y ∈ w.2) :
    Covering p Δ w s := by
  refine { h with slots := fun x' hx y' hy' => ?_ }
  rcases h.slots x' hx y' hy' with h | h | h | h
  · exact .inl h
  · exact .inr (.inl h)
  · cases h
    exact .inl hy
  · exact .inr (.inr h)

/-- All but literals have been there from the start. -/
theorem like_self (hn : s.program.exprs.get? e = some n) (hl : n.kind.isLiteral = false) :
    Like p e n.kind := by
  cases h0 : p.exprs.get? e with
  | none => exact absurd (hl.symm.trans (h.retains.added e n hn h0)) (by simp)
  | some n0 =>
    obtain ⟨n1, hn1, hv⟩ := h.retains.exprs.part e n0 h0
    obtain rfl := hn.some_unique hn1
    exact ⟨n0, h0, hv⟩

theorem replace {kind kind' : Expr} (hf : Like p e kind)
    (ht : Turns (fun _ b => .expr b ∈ w.2)
      (fun y => y ∈ w.2 ∨ y ∈ kind.member ∨ (.expr e, y) ∈ Δ) kind.parts kind'.parts)
    (ho : kind'.outline = kind.outline) (hm : kind'.member = kind.member)
    (hn : s.program.exprs.get? e = some n) :
    ∃ w', w ≤ w' ∧ Covering p Δ w' (s.put e { n with kind := kind' }) ∧ Seen p w' (.expr e) := by
  obtain ⟨hko, hkm⟩ := h.like hf hn
  have hself : (s.put e { n with kind := kind' }).program.exprs.get? e = some _ :=
    get?_put_self hn
  refine h.see (.put hn (ho.trans hko) (hm.trans hkm) id) ?_ h.settled
  rw [Program.live_expr hself, Program.member_expr hself, hm]
  intro y hy
  obtain ⟨_, -, hb⟩ := exists_of_forall₂ ht hy
  cases hb with
  | same h => exact h
  | expr h => exact .inl h

theorem fold {line : UInt32} {u : Literal} (room : s.program.exprs.size < UInt32.size) :
    ∃ w', w ≤ w' ∧ Covering p Δ w' (s.grow line u) ∧ .expr s.program.exprs.next ∈ w'.2 := by
  have hself : (s.grow line u).program.exprs.get? s.program.exprs.next = some _ :=
    Arena.get?_next_push room
  refine h.cover (.grow room _ _) rfl (by simp) ⟨_, hself, by simp⟩ ?_ ?_
  · simp [Program.member_expr hself, Expr.member]
  · simp [Program.live_expr hself]

section

variable {d d' : Var} (hf : ∃ d0, p.vars.get? v = some d0 ∧ d.outline = d0.outline)
  (ht : .expr d.typeExpr ∈ w.2) (hd : s.program.vars.get? v = some d')

include hf ht hd

theorem varValue {a b : ExprId} (hv : d.value = some a) (hg : .expr b ∈ w.2) :
    ∃ w', w ≤ w' ∧ Covering p Δ w' (s.setVar v { d' with value := some b }) ∧
      Seen p w' (.var v) := by
  have ho := h.like_var hf hd
  have hte : d.typeExpr = d'.typeExpr := (congrArg Var.typeExpr ho :)
  have hval := congrArg Var.value ho
  have hself : (s.setVar v { d' with value := some b }).program.vars.get? v = some _ :=
    Arena.get?_set_self hd
  refine h.see (.setVar hd (by simp_all [Var.outline])) (fun y hy => .inl ?_) h.settled
  rw [Program.live_var hself] at hy
  rcases List.mem_cons.1 hy with rfl | hy
  · exact hte ▸ ht
  · obtain rfl := List.mem_singleton.1 hy
    exact hg

theorem varTy {t : Ty} (hh : d.value = none ∨ Seen p w (.var v)) :
    ∃ w', w ≤ w' ∧ Covering p Δ w' (s.setVar v { d' with ty := some t }) ∧ .var v ∈ w'.2 := by
  have ho := h.like_var hf hd
  have hte : d.typeExpr = d'.typeExpr := (congrArg Var.typeExpr ho :)
  have hval := congrArg Var.value ho
  have hself : (s.setVar v { d' with ty := some t }).program.vars.get? v = some _ :=
    Arena.get?_set_self hd
  refine h.cover (.setVar hd rfl) rfl (by simp) trivial (by simp [Program.member]) fun y hy => ?_
  rcases hh with hnone | hh | ⟨_, _, _, ⟨⟩, -⟩
  · have hnone' : d'.value = none := by simpa [Var.outline, hnone] using hval.symm
    rw [Program.live_var hself, hnone'] at hy
    obtain rfl := List.mem_singleton.1 hy
    exact .inl (hte ▸ ht)
  · refine h.slots _ hh y ?_
    rwa [Program.live_var hd, ← Program.live_var hself]

end

/-- A constant that is visited has not been resolved. -/
theorem visit {d : Const} (hd : s.program.consts.get? k = some d) (hs : d.status = .unvisited) :
    Covering p Δ w (s.setConst k { d with status := .inProgress }) := by
  refine h.setConst hd rfl rfl fun k' c hc => ?_
  rcases Arena.get?_set_cases hc with ⟨rfl, rfl⟩ | hc
  · rw [← h.settled _ d hd, hs]
    simp
  · exact h.settled k' c hc

section

variable {d d' : Const} (hf : ∃ d0, p.consts.get? k = some d0 ∧ d.outline = d0.outline)
  (ht : ∀ t ∈ d.typeExpr, .expr t ∈ w.2) (hd : s.program.consts.get? k = some d')

include hf ht hd

theorem constValue {a b : ExprId} (hv : d.value = some a) (hg : .expr b ∈ w.2) :
    ∃ w', w ≤ w' ∧ Covering p Δ w' (s.setConst k { d' with value := some b }) ∧
      Seen p w' (.const k) := by
  have ho := h.like_const hf hd
  have hte : d.typeExpr = d'.typeExpr := (congrArg Const.typeExpr ho :)
  have hval := congrArg Const.value ho
  have hself : (s.setConst k { d' with value := some b }).program.consts.get? k = some _ :=
    Arena.get?_set_self hd
  refine h.see (.setConst hd (by simp_all [Const.outline])) (fun y hy => .inl ?_)
    (h.settled_set hd rfl)
  rw [Program.live_const hself] at hy
  obtain ⟨i, hi, rfl⟩ := List.mem_map.1 hy
  rcases List.mem_append.1 hi with hi | hi
  · exact ht i (hte ▸ Option.mem_toList.1 hi)
  · obtain rfl := List.mem_singleton.1 hi
    exact hg

/-- What a constant holds at the end of its visit is covered, and so is the constant. -/
theorem finishConst (hh : d.value = none ∨ Seen p w (.const k)) :
    ∃ w', w ≤ w' ∧ Covering p Δ w' (s.setConst k { d' with status := .resolved }) ∧
      .const k ∈ w'.2 := by
  have ho := h.like_const hf hd
  have hte : d.typeExpr = d'.typeExpr := (congrArg Const.typeExpr ho :)
  have hval := congrArg Const.value ho
  have hself : (s.setConst k { d' with status := .resolved }).program.consts.get? k = some _ :=
    Arena.get?_set_self hd
  have ha : s.program.Alters (.const k) (s.setConst k { d' with status := .resolved }).program :=
    .setConst hd rfl
  refine ⟨(insert (.const k) w.1, insert (.const k) w.2),
    ⟨Set.subset_insert _ _, Set.subset_insert _ _⟩,
    h.step ha (fun y hy => ?_) (Set.subset_insert _ _) (fun y hy => ?_) fun k' c hc => ?_,
    Set.mem_insert _ _⟩
  · rw [Program.live_const hself] at hy
    rcases hh with hnone | hh | ⟨_, _, _, ⟨⟩, -⟩
    · obtain ⟨i, hi, rfl⟩ := List.mem_map.1 hy
      have hnone' : d'.value = none := by simpa [Const.outline, hnone] using hval.symm
      exact .inl (ht i (by simpa [hte, hnone'] using hi))
    · refine h.slots _ hh y ?_
      rwa [Program.live_const hd]
  · exact hy.symm.imp_right fun hy => ⟨hy, trivial, by simp [Program.member]⟩
  · by_cases hk : k' = k
    · subst hk
      obtain rfl := hself.some_unique hc
      exact iff_of_true rfl (Set.mem_insert _ _)
    · rw [h.settled k' c ((Arena.get?_set_of_ne (Ne.symm hk)).symm.trans hc), Set.mem_insert_iff,
        or_iff_right (by simpa using hk)]

end

theorem setStmt {i : StmtId} {n : StmtNode} {kind kind' : Stmt}
    (ht : Turns (fun _ b => .expr b ∈ w.2) (· ∈ w.2) kind.parts kind'.parts)
    (hn : s.program.stmts.get? i = some n) :
    ∃ w', w ≤ w' ∧ Covering p Δ w' (s.setStmt i { n with kind := kind' }) ∧ .stmt i ∈ w'.2 := by
  have hself : (s.setStmt i { n with kind := kind' }).program.stmts.get? i = some _ :=
    Arena.get?_set_self hn
  refine h.cover .setStmt rfl (by simp) trivial (by simp [Program.member]) fun y hy => .inl ?_
  rw [Program.live_stmt hself] at hy
  obtain ⟨_, -, hb⟩ := exists_of_forall₂ ht hy
  cases hb with
  | same h => exact h
  | expr h => exact h

end

/-- What a rule visits is covered at its end. -/
def discipline (p : Program) : Discipline (Set Node × Set Node) where
  Holds := Covering p
  At _ _ _ := True
  Gives w _ e := .expr e ∈ w.2
  Covers w x := x ∈ w.2
  Held := Seen p
  Means _ _ := True
  Settled w k := .const k ∈ w.2
  Fits _ e kind := kind.isLiteral = false → Like p e kind
  FitsStmt _ _ _ := True
  FitsVar _ v d := ∃ d0, p.vars.get? v = some d0 ∧ d.outline = d0.outline
  FitsConst _ k d := ∃ d0, p.consts.get? k = some d0 ∧ d.outline = d0.outline
  Family _ := True
  Lines _ _ := True
  Blames _ := True
  Done w _ x := .stmt x ∈ w.2
  family := Interval.family_all
  at_mono _ h := h
  gives_mono hw h := hw.2 h
  covers_mono hw h := hw.2 h
  held_mono hw := Or.imp_left fun h => hw.1 h
  means_mono _ h := h
  fits_mono _ h := h
  fitsStmt_mono _ h := h
  fitsVar_mono _ h := h
  fitsConst_mono _ h := h
  done_mono hw h := hw.2 h
  place hp _ h := by
    obtain ⟨hs, hc, hk, hr⟩ := h
    rw [← hp] at hs hc hk hr
    exact ⟨hs, hc, hk, hr⟩
  at_around _ h := h
  owe d h := { h with
    slots := fun x hx y hy => (h.slots x hx y hy).imp_right (Or.imp_right (.inr ·)) }
  pay h hy := h.pay hy
  gives_covers h := h
  settled_covers h := h
  done_covers h := h
  hold h hn hx := h.see (.refl _) (by rwa [Program.live_expr hn, Program.member_expr hn]) h.settled
  held_name h := .inr ⟨_, _, _, rfl, h rfl⟩
  types _ := Program.within_all _
  line _ _ _ := trivial
  blame _ _ _ := trivial
  bound _ _ _ := trivial
  means_type _ := Ty.within_all _
  means_other _ _ := trivial
  node h _ hn := ⟨h.like_self hn, fun _ _ => trivial, fun _ _ _ => trivial⟩
  var h _ hd := ⟨h.retains.vars _ _ hd, fun _ _ => trivial⟩
  const h _ _ hd := ⟨h.retains.consts _ _ hd, fun _ _ => trivial⟩
  stmt _ _ _ := ⟨trivial, fun _ _ _ => trivial, fun _ _ => trivial⟩
  gives_child _ _ h := h
  gives_at _ _ := trivial
  replace h hf hl ht ho hm _ hn := h.replace (hf hl) ht ho hm hn
  record h hf hl hh hm _ hn :=
    h.record hn ((h.like (hf hl) hn).2 ▸ hm) (h.slots_of_seen hh hn)
  recordLiteral h _ hv hn := h.record hn (by simp [hv, Expr.member]) (by simp [hv])
  fold h _ _ room := h.fold room
  varValue h hf hv hg ht hd := h.varValue hf ht hd hv hg
  varTy h hf _ ht hh hd := h.varTy hf ht hd hh
  bindVar h _ _ := { h with }
  home _ _ _ _ _ := .inl trivial
  settle h hd hs := ⟨_, le_rfl, h, (h.settled _ _ hd).1 hs⟩
  resolved h hk hd := (h.settled _ _ hd).2 hk
  means_settled _ _ := trivial
  visit h _ hd hs := ⟨_, le_rfl, h.visit hd hs, h.retains.consts _ _ hd⟩
  constValue h hf hv hg ht hd := h.constValue hf ht hd hv hg
  constTy h _ _ _ hd := h.setConst hd rfl rfl (h.settled_set hd rfl)
  finishConst h hf ht hh hd := h.finishConst hf ht hd hh
  bindConst h _ _ _ := { h with }
  addScope h _ := { h with }
  jump _ _ _ _ _ _ := trivial
  setStmt h _ ht _ _ _ hn := h.setStmt ht hn

end Covering

end Ci
