-- What the resolution of an expression, a type, a constant or a statement can do to
-- the state of a pass. It works inside a region of the program, which holds all that
-- can be reached from where it starts. Outside the region nothing changes, inside
-- it the outlines stay, and what is added are literals that have their types.
import Ci.Proofs.Pass.Keeps
import Ci.Proofs.Program.Parts

namespace Ci

variable {D : Set Node} {n : ExprNode} {c : Scope} {name : String} {symbol : Symbol} {i : ScopeId}

/-! ## Programs -/

/-- How an expression may change. A literal that has its type is never changed. -/
structure ExprStep (D : Set Node) (e : ExprId) (n n' : ExprNode) : Prop where
  outline : n'.kind.outline = n.kind.outline
  line : n'.line = n.line
  outside : .expr e ∉ D → n' = n
  literal : ∀ v, n.kind = .literal v → n.ty = some v.ty → n' = n

/-- How a statement may change. -/
structure StmtStep (D : Set Node) (x : StmtId) (n n' : StmtNode) : Prop where
  outline : n'.kind.outline = n.kind.outline
  line : n'.line = n.line
  outside : .stmt x ∉ D → n' = n

/-- What no change of a constant takes away: its owner, and that the value of an enumeration gets
no other type than that enumeration. -/
structure Const.Kept (d d' : Const) : Prop where
  owner : d'.owner = d.owner
  type : ∀ c, d.owner = .enumDecl c → d'.ty = d.ty ∨ d'.ty = some (.enumeration c)

theorem Const.Kept.refl (d : Const) : d.Kept d := ⟨rfl, fun _ _ => .inl rfl⟩

theorem Const.Kept.trans {d d' d'' : Const} (h : d.Kept d') (h' : d'.Kept d'') : d.Kept d'' := by
  refine ⟨h'.owner.trans h.owner, fun c hc => ?_⟩
  rcases h'.type c (h.owner.trans hc) with ht | ht
  · rw [ht]
    exact h.type c hc
  · exact .inr ht

/-- How a constant may change. Once it has been visited, it is the visit that changes it. -/
structure ConstStep (D : Set Node) (k : ConstId) (d d' : Const) : Prop where
  outline : d'.outline = d.outline
  outside : .const k ∉ D → d' = d
  visited : d.status ≠ .unvisited → d' = d
  kept : d.Kept d'

/-- How a variable may change. -/
structure VarStep (D : Set Node) (v : VarId) (d d' : Var) : Prop where
  outline : d'.outline = d.outline
  outside : .var v ∉ D → d' = d

theorem ExprStep.refl (e : ExprId) (n : ExprNode) : ExprStep D e n n :=
  ⟨rfl, rfl, fun _ => rfl, fun _ _ _ => rfl⟩

theorem ExprStep.trans (e : ExprId) (n n' n'' : ExprNode) (h : ExprStep D e n n')
    (h' : ExprStep D e n' n'') : ExprStep D e n n'' := by
  refine ⟨h'.outline.trans h.outline, h'.line.trans h.line, fun hd => ?_, fun v hk ht => ?_⟩
  · exact (h'.outside hd).trans (h.outside hd)
  · obtain rfl := h.literal v hk ht
    exact h'.literal v hk ht

theorem StmtStep.refl (x : StmtId) (n : StmtNode) : StmtStep D x n n :=
  ⟨rfl, rfl, fun _ => rfl⟩

theorem StmtStep.trans (x : StmtId) (n n' n'' : StmtNode) (h : StmtStep D x n n')
    (h' : StmtStep D x n' n'') : StmtStep D x n n'' :=
  ⟨h'.outline.trans h.outline, h'.line.trans h.line, fun hd => (h'.outside hd).trans (h.outside hd)⟩

theorem ConstStep.refl (k : ConstId) (d : Const) : ConstStep D k d d :=
  ⟨rfl, fun _ => rfl, fun _ => rfl, .refl d⟩

theorem ConstStep.trans (k : ConstId) (d d' d'' : Const) (h : ConstStep D k d d')
    (h' : ConstStep D k d' d'') : ConstStep D k d d'' := by
  refine ⟨h'.outline.trans h.outline, fun hd => (h'.outside hd).trans (h.outside hd), fun hs => ?_,
    h.kept.trans h'.kept⟩
  obtain rfl := h.visited hs
  exact h'.visited hs

theorem VarStep.refl (v : VarId) (d : Var) : VarStep D v d d :=
  ⟨rfl, fun _ => rfl⟩

theorem VarStep.trans (v : VarId) (d d' d'' : Var) (h : VarStep D v d d')
    (h' : VarStep D v d' d'') : VarStep D v d d'' :=
  ⟨h'.outline.trans h.outline, fun hd => (h'.outside hd).trans (h.outside hd)⟩

theorem Arena.Follows.imp {k : Kind} {α : Type} {R R' : Handle k → α → α → Prop} {a b : Arena k α}
    (hr : ∀ h x y, R h x y → R' h x y) (h : Arena.Follows R a b) : Arena.Follows R' a b := by
  refine ⟨h.size_le, fun i x hx => ?_⟩
  obtain ⟨y, hy, hxy⟩ := h.part i x hx
  exact ⟨y, hy, hr i x y hxy⟩

/-- One program comes from another by changes in a region. -/
structure Program.Changes (D : Set Node) (p q : Program) : Prop where
  rest : q = { p with exprs := q.exprs, stmts := q.stmts, consts := q.consts, vars := q.vars }
  exprs : p.exprs.Follows (ExprStep D) q.exprs
  added : ∀ e : ExprId, p.exprs.size ≤ e.slot → e.slot < q.exprs.size → q.TypedLiteral e
  stmts : p.stmts.Follows (StmtStep D) q.stmts
  stmts_size : q.stmts.size = p.stmts.size
  consts : p.consts.Follows (ConstStep D) q.consts
  consts_size : q.consts.size = p.consts.size
  vars : p.vars.Follows (VarStep D) q.vars
  vars_size : q.vars.size = p.vars.size

namespace Program

variable {D : Set Node} {p q r : Program} {e : ExprId}

theorem TypedLiteral.step (h : p.TypedLiteral e) (hs : p.exprs.Follows (ExprStep D) q.exprs) :
    q.TypedLiteral e := by
  obtain ⟨v, line, hv⟩ := h
  obtain ⟨n', hn', hstep⟩ := hs.part e _ hv
  rw [hstep.literal v rfl rfl] at hn'
  exact ⟨v, line, hn'⟩

namespace Changes

theorem refl (p : Program) : Changes D p p where
  rest := rfl
  exprs := .refl ExprStep.refl _
  added _ h h' := absurd h' (Nat.not_lt.2 h)
  stmts := .refl StmtStep.refl _
  stmts_size := rfl
  consts := .refl ConstStep.refl _
  consts_size := rfl
  vars := .refl VarStep.refl _
  vars_size := rfl

theorem trans (h : Changes D p q) (h' : Changes D q r) : Changes D p r where
  rest := by
    have := h'.rest
    rw [h.rest] at this
    exact this
  exprs := h.exprs.trans ExprStep.trans h'.exprs
  added e hp hr := by
    rcases Nat.lt_or_ge e.slot q.exprs.size with hq | hq
    · exact (h.added e hp hq).step h'.exprs
    · exact h'.added e hq hr
  stmts := h.stmts.trans StmtStep.trans h'.stmts
  stmts_size := h'.stmts_size.trans h.stmts_size
  consts := h.consts.trans ConstStep.trans h'.consts
  consts_size := h'.consts_size.trans h.consts_size
  vars := h.vars.trans VarStep.trans h'.vars
  vars_size := h'.vars_size.trans h.vars_size

theorem mono {D' : Set Node} (h : Changes D p q) (hD : D ⊆ D') : Changes D' p q :=
  { h with
    exprs := h.exprs.imp fun _ _ _ hs =>
      ⟨hs.outline, hs.line, fun hn => hs.outside fun hd => hn (hD hd), hs.literal⟩
    stmts := h.stmts.imp fun _ _ _ hs =>
      ⟨hs.outline, hs.line, fun hn => hs.outside fun hd => hn (hD hd)⟩
    consts := h.consts.imp fun _ _ _ hs =>
      ⟨hs.outline, fun hn => hs.outside fun hd => hn (hD hd), hs.visited, hs.kept⟩
    vars := h.vars.imp fun _ _ _ hs => ⟨hs.outline, fun hn => hs.outside fun hd => hn (hD hd)⟩ }

/-! ### Single changes -/

theorem setExpr {n' : ExprNode} (hn : p.exprs.get? e = some n) (hs : ExprStep D e n n') :
    Changes D p { p with exprs := p.exprs.set e n' } :=
  { refl p with
    rest := rfl
    exprs := .set ExprStep.refl hn hs
    added := fun _ h h' => absurd h' (by simpa using h) }

theorem setStmt {x : StmtId} {n n' : StmtNode} (hn : p.stmts.get? x = some n)
    (hs : StmtStep D x n n') : Changes D p { p with stmts := p.stmts.set x n' } :=
  { refl p with rest := rfl, stmts := .set StmtStep.refl hn hs, stmts_size := by simp }

/-- A constant that was not visited at the start may change in any way that keeps its outline. -/
theorem setConst {k : ConstId} {d0 d d' : Const} (h : Changes D p q) (hk : .const k ∈ D)
    (h0 : p.consts.get? k = some d0) (hs : d0.status = .unvisited) (hd : q.consts.get? k = some d)
    (ho : d'.outline = d.outline) (ht : d.Kept d') :
    Changes D p { q with consts := q.consts.set k d' } :=
  { h with
    rest := by
      have := h.rest
      rw [Program.mk.injEq] at this ⊢
      simp_all
    consts_size := by simpa using h.consts_size
    consts := by
      refine ⟨by simpa using h.consts.size_le, fun k' x hx => ?_⟩
      obtain ⟨y, hy, hstep⟩ := h.consts.part k' x hx
      by_cases hkk : k = k'
      · subst hkk
        obtain rfl := h0.some_unique hx
        obtain rfl := hd.some_unique hy
        exact ⟨d', Arena.get?_set_self hd, ho.trans hstep.outline, fun hn => absurd hk hn,
          fun hn => absurd hs hn, hstep.kept.trans ht⟩
      · exact ⟨y, (Arena.get?_set_of_ne hkk).trans hy, hstep⟩ }

theorem setVar {v : VarId} {d d' : Var} (hd : p.vars.get? v = some d) (hs : VarStep D v d d') :
    Changes D p { p with vars := p.vars.set v d' } :=
  { refl p with rest := rfl, vars := .set VarStep.refl hd hs, vars_size := by simp }

theorem addTyped {line : UInt32} {value : Literal} : Changes D p (p.addTyped line value).2 :=
  { refl p with
    rest := rfl
    exprs := .push ExprStep.refl
    added := fun e h h' => by
      simp only [Program.addTyped, Arena.size_push] at h'
      exact ⟨value, line, Arena.get?_push_of_size (by omega)⟩ }

/-! ### What is kept -/

section

variable (h : Changes D p q)

include h

theorem typedLiteral (he : p.TypedLiteral e) : q.TypedLiteral e :=
  he.step h.exprs

theorem classes : q.classes = p.classes := by rw [h.rest]

theorem enums : q.enums = p.enums := by rw [h.rest]

theorem fields : q.fields = p.fields := by rw [h.rest]

theorem methods : q.methods = p.methods := by rw [h.rest]

theorem globals : q.globals = p.globals := by rw [h.rest]

theorem ordered : q.ordered = p.ordered := by rw [h.rest]

/-- An expression that is no literal has been there from the start. -/
theorem get?_of_not_literal (hn : q.exprs.get? e = some n)
    (hl : n.kind.isLiteral = false) : ∃ n0, p.exprs.get? e = some n0 ∧ ExprStep D e n0 n := by
  rcases Nat.lt_or_ge e.slot p.exprs.size with hs | hs
  · obtain ⟨n0, hn0⟩ := Arena.exists_get? hs
    obtain ⟨n', hn', hstep⟩ := h.exprs.part e n0 hn0
    obtain rfl : n' = n := hn'.some_unique hn
    exact ⟨n0, hn0, hstep⟩
  · obtain ⟨v, line, hv⟩ := h.added e hs (Arena.lt_size_of_get? hn)
    obtain rfl := hv.some_unique hn
    simp at hl

end

end Changes

end Program

/-! ## Scopes -/

/-- Local variables and constants, which are bound on the way. -/
def Symbol.isLocal : Symbol → Bool
  | .var _ | .const _ => true
  | _ => false

/-- How a scope may change: it binds more local names. -/
structure ScopeStep (c c' : Scope) : Prop where
  kind : c'.kind = c.kind
  parent : c'.parent = c.parent
  bindings : ∃ new, c'.bindings = new ++ c.bindings ∧ ∀ b ∈ new, b.2.isLocal

theorem ScopeStep.refl (c : Scope) : ScopeStep c c := ⟨rfl, rfl, [], rfl, by simp⟩

theorem ScopeStep.trans {c' c'' : Scope} (h : ScopeStep c c') (h' : ScopeStep c' c'') :
    ScopeStep c c'' := by
  obtain ⟨new, hn, hl⟩ := h.bindings
  obtain ⟨new', hn', hl'⟩ := h'.bindings
  refine ⟨h'.kind.trans h.kind, h'.parent.trans h.parent, new' ++ new, by simp [hn', hn], ?_⟩
  intro b hb
  rcases List.mem_append.1 hb with hb | hb
  · exact hl' b hb
  · exact hl b hb

theorem Scope.mem_of_find? (h : c.find? name = some symbol) : (name, symbol) ∈ c.bindings := by
  obtain ⟨before, after, hb, -⟩ := List.lookup_eq_some_iff.1 h
  simp [hb]

/-- One table comes from another by new scopes and new local names. -/
def ScopeTable.Extends (t t' : ScopeTable) : Prop :=
  ∀ (i : Nat) c, t.scopes[i]? = some c → ∃ c', t'.scopes[i]? = some c' ∧ ScopeStep c c'

namespace ScopeTable

variable {t t' t'' : ScopeTable}

theorem Extends.refl (t : ScopeTable) : Extends t t := fun _ c hc => ⟨c, hc, .refl c⟩

theorem Extends.trans (h : Extends t t') (h' : Extends t' t'') : Extends t t'' := by
  intro i c hc
  obtain ⟨c', hc', hs⟩ := h i c hc
  obtain ⟨c'', hc'', hs'⟩ := h' i c' hc'
  exact ⟨c'', hc'', hs.trans hs'⟩

theorem Extends.add (t : ScopeTable) (kind : ScopeKind) (parent : ScopeId) :
    Extends t (t.add kind parent) := by
  intro i c hc
  obtain ⟨hi, -⟩ := Array.getElem?_eq_some_iff.1 hc
  refine ⟨c, ?_, .refl c⟩
  simp [ScopeTable.add, Array.getElem?_push, hi.ne, hc]

@[simp] theorem fetch_ok : t.fetch i = .ok c ↔ t.scopes[i.slot]? = some c := by
  unfold fetch
  cases t.scopes[i.slot]? <;> simp

/-- What becomes of a scope that binds a name. -/
theorem define?_ok (h : t.define? i name symbol = .ok (some t')) :
    ∃ c, t.scopes[i.slot]? = some c ∧ c.find? name = none ∧
      t' = t.set i { c with bindings := (name, symbol) :: c.bindings } := by
  simp only [define?, Query.bind_ok, fetch_ok] at h
  obtain ⟨c, hc, h⟩ := h
  refine ⟨c, hc, ?_⟩
  cases hf : c.find? name with
  | some _ => simp [hf] at h
  | none =>
    simp only [hf, Query.pure_ok, Option.some.injEq] at h
    exact ⟨rfl, h.symm⟩

theorem getElem?_set_self {c' : Scope} (h : t.scopes[i.slot]? = some c) :
    (t.set i c').scopes[i.slot]? = some c' := by
  obtain ⟨hi, -⟩ := Array.getElem?_eq_some_iff.1 h
  simp [set, hi]

theorem getElem?_set_of_ne {j : Nat} (h : i.slot ≠ j) : (t.set i c).scopes[j]? = t.scopes[j]? := by
    simp [set, h]

theorem Extends.define
    (h : t.define? i name symbol = .ok (some t')) (hl : symbol.isLocal) : Extends t t' := by
  obtain ⟨c, hc, -, rfl⟩ := define?_ok h
  intro j d hd
  by_cases hij : i.slot = j
  · subst hij
    obtain rfl : c = d := hc.some_unique hd
    exact ⟨_, getElem?_set_self hc, rfl, rfl, [(name, symbol)], rfl, by simpa using hl⟩
  · exact ⟨d, (getElem?_set_of_ne hij).trans hd, .refl d⟩

/-- What a search finds is bound in a scope. -/
theorem bound_of_search {admits : ScopeKind → Bool} {n : Nat} {i : Option ScopeId}
    (h : t.search admits name n i = .ok (some symbol)) :
    ∃ (j : Nat) (c : Scope), t.scopes[j]? = some c ∧ (name, symbol) ∈ c.bindings := by
  induction n generalizing i with
  | zero => cases i <;> simp [search] at h
  | succ n ih =>
    cases i with
    | none => simp [search] at h
    | some i =>
      simp only [search, Query.bind_ok, fetch_ok] at h
      obtain ⟨c, hc, h⟩ := h
      split at h
      · split at h
        · rename_i found hf
          simp only [Query.pure_ok, Option.some.injEq] at h
          subst h
          exact ⟨i.slot, c, hc, Scope.mem_of_find? hf⟩
        · exact ih h
      · simp at h

end ScopeTable

/-! ## States -/

/-- A constant that can be reached by its name is in the region, or it has been visited. -/
def Known (D : Set Node) (p : Program) (k : ConstId) : Prop :=
  .const k ∈ D ∨ ∃ d, p.consts.get? k = some d ∧ d.status ≠ .unvisited

/-- A node is in the region, or there is nothing left to do for it. -/
def Inside (D : Set Node) (p : Program) (x : Node) : Prop :=
  x ∈ D ∨ ∃ e, x = .expr e ∧ p.TypedLiteral e

/-- Nothing leads out of the region. -/
structure Closed (D : Set Node) (p : Program) (t : ScopeTable) : Prop where
  parts : ∀ x ∈ D, ∀ y ∈ p.parts x, Inside D p y
  named : ∀ e n text k, .expr e ∈ D → p.exprs.get? e = some n →
    n.kind = .name text (some (.const k)) → Known D p k
  bound : ∀ (i : Nat) c name k, t.scopes[i]? = some c → (name, .const k) ∈ c.bindings → Known D p k

/-- Where a pass is: its file, its scope, its method and the loops around. -/
structure SamePlace (s s' : Pass.State) : Prop where
  current : s'.table.current = s.table.current
  file : s'.file = s.file
  method : s'.method = s.method
  breakables : s'.breakables = s.breakables
  classScopes : s'.classScopes = s.classScopes
  enumScopes : s'.enumScopes = s.enumScopes

/-- Something in the region may bind a name: the declaration of a variable, or a statement. -/
def Binds (D : Set Node) : Prop := (∃ v, .var v ∈ D) ∨ ∃ x, .stmt x ∈ D

/-- One state comes from another by work inside a region. Only statements open scopes, and only
statements and declarations of variables bind names. -/
structure Moves (D : Set Node) (s s' : Pass.State) : Prop where
  place : SamePlace s s'
  program : s.program.Changes D s'.program
  table : s.table.Extends s'.table
  scopes : (∀ x, .stmt x ∉ D) → s'.table.scopes.size = s.table.scopes.size
  names : ¬ Binds D → s'.table = s.table
  closed : Closed D s'.program s'.table

section

variable {D : Set Node} {p q : Program} {s s1 s2 : Pass.State}

theorem Known.step {k : ConstId} (h : Known D p k) (hs : p.Changes D q) : Known D q k := by
  rcases h with h | ⟨d, hd, hr⟩
  · exact .inl h
  · obtain ⟨d', hd', hstep⟩ := hs.consts.part k d hd
    rw [hstep.visited hr] at hd'
    exact .inr ⟨d, hd', hr⟩

theorem Inside.step {x : Node} (h : Inside D p x) (hs : p.Changes D q) : Inside D q x := by
  rcases h with h | ⟨e, rfl, he⟩
  · exact .inl h
  · exact .inr ⟨e, rfl, hs.typedLiteral he⟩

/-- An expression that is no literal is in the region itself. -/
theorem Inside.of_not_literal {e : ExprId} (h : Inside D p (.expr e))
    (hn : p.exprs.get? e = some n) (hl : n.kind.isLiteral = false) : .expr e ∈ D := by
  rcases h with h | ⟨e', he, v, line, hv⟩
  · exact h
  · obtain rfl : e = e' := by simpa using he
    obtain rfl := hv.some_unique hn
    simp at hl

theorem SamePlace.refl (s : Pass.State) : SamePlace s s := ⟨rfl, rfl, rfl, rfl, rfl, rfl⟩

theorem SamePlace.trans (h : SamePlace s s1) (h' : SamePlace s1 s2) : SamePlace s s2 :=
  ⟨h'.current.trans h.current, h'.file.trans h.file, h'.method.trans h.method,
    h'.breakables.trans h.breakables, h'.classScopes.trans h.classScopes,
    h'.enumScopes.trans h.enumScopes⟩

theorem SamePlace.set_program (h : SamePlace s s1) : SamePlace s { s1 with program := q } :=
  ⟨h.current, h.file, h.method, h.breakables, h.classScopes, h.enumScopes⟩

theorem Moves.refl (h : Closed D s.program s.table) : Moves D s s :=
  ⟨.refl s, .refl _, .refl _, fun _ => rfl, fun _ => rfl, h⟩

theorem Moves.trans (h : Moves D s s1) (h' : Moves D s1 s2) : Moves D s s2 :=
  ⟨h.place.trans h'.place, h.program.trans h'.program, h.table.trans h'.table,
    fun hx => (h'.scopes hx).trans (h.scopes hx), fun hx => (h'.names hx).trans (h.names hx),
    h'.closed⟩

end

end Ci
