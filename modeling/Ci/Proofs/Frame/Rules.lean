-- The rules of a pass work inside a region. That is a discipline: it lets a rule
-- visit what is in the region and what is done already, and each single change
-- that a rule makes is a move inside the region.
import Ci.Proofs.Discipline.Rules
import Ci.Proofs.Frame.Steps

namespace Ci

open Pass

variable {D : Set Node} {p q : Program} {s0 s s' : State} {e : ExprId} {k : ConstId} {n : ExprNode}
  {d : Const} {n' : ExprNode}

/-! ## What is done already -/

/-- The literals that have their types, the constants that have been visited, and those that have
been resolved. -/
abbrev Facts : Type := Set ExprId × Set ConstId × Set ConstId

/-- What is done already in a program. -/
def Program.facts (p : Program) : Facts :=
  ({e | p.TypedLiteral e}, {k | ∃ d, p.consts.get? k = some d ∧ d.status ≠ .unvisited},
    {k | ∃ d, p.consts.get? k = some d ∧ d.status = .resolved})

theorem Program.Changes.facts_le (h : p.Changes D q) : p.facts ≤ q.facts := by
  refine ⟨fun e he => h.typedLiteral he, ?_, ?_⟩
  · rintro k ⟨d, hd, hs⟩
    obtain ⟨d', hd', hstep⟩ := h.consts.part k d hd
    exact ⟨d', hd', by rwa [hstep.visited hs]⟩
  · rintro k ⟨d, hd, hs⟩
    obtain ⟨d', hd', hstep⟩ := h.consts.part k d hd
    exact ⟨d', hd', by rwa [hstep.visited (by simp [hs])]⟩

/-- What is no literal has no part in what is done. -/
theorem facts_put (hn : s.program.exprs.get? e = some n) (hl : n.kind.isLiteral = false)
    (hl' : n'.kind.isLiteral = false) : (s.put e n').program.facts = s.program.facts := by
  refine Prod.ext (Set.ext fun e' => ?_) rfl
  by_cases hee : e = e'
  · subst hee
    have hno : ∀ {p : Program} {m}, p.exprs.get? e = some m → m.kind.isLiteral = false →
      ¬ p.TypedLiteral e := by
      rintro p m hm hlit ⟨v, line, hv⟩
      obtain rfl := hv.some_unique hm
      simp at hlit
    exact iff_of_false (hno (get?_put_self hn) hl') (hno hn hl)
  · show (∃ v line, _) ↔ ∃ v line, _
    rw [get?_put_of_ne hee]

theorem facts_setConst {d' : Const} (hd : s.program.consts.get? k = some d)
    (hs : d'.status = d.status) :
    (s.setConst k d').program.facts = s.program.facts := by
  have hiff : ∀ (P : Status → Prop) k',
    (∃ c, (s.setConst k d').program.consts.get? k' = some c ∧ P c.status) ↔
      ∃ c, s.program.consts.get? k' = some c ∧ P c.status := by
    intro P k'
    by_cases hkk : k = k'
    · subst hkk
      simp [State.setConst, Arena.get?_set_self hd, hd, hs]
    · simp [State.setConst, Arena.get?_set_of_ne hkk]
  exact Prod.ext rfl (Prod.ext (Set.ext (hiff (· ≠ .unvisited))) (Set.ext (hiff (· = .resolved))))

theorem facts_le_setConst {d' : Const} (hd : s.program.consts.get? k = some d)
    (hv : d'.status ≠ .unvisited)
    (hr : d.status = .resolved → d'.status = .resolved) :
    s.program.facts ≤ (s.setConst k d').program.facts := by
  have hle : ∀ P : Status → Prop, (P d.status → P d'.status) →
      ∀ k', (∃ c, s.program.consts.get? k' = some c ∧ P c.status) →
        ∃ c, (s.setConst k d').program.consts.get? k' = some c ∧ P c.status := by
    rintro P hP k' ⟨c, hc, hs⟩
    by_cases hkk : k = k'
    · subst hkk
      obtain rfl := hd.some_unique hc
      exact ⟨d', Arena.get?_set_self hd, hP hs⟩
    · exact ⟨c, (Arena.get?_set_of_ne hkk).trans hc, hs⟩
  exact ⟨le_rfl, hle (· ≠ .unvisited) fun _ => hv, hle (· = .resolved) hr⟩

/-! ## Back in place -/

/-- One state in the place of another. -/
def Pass.State.inPlaceOf (s s0 : State) : State :=
  { s0 with program := s.program, table := s.table.enter s0.table.current }

theorem SamePlace.inPlaceOf (h : SamePlace s s') : s'.inPlaceOf s = s' := by
  obtain ⟨program, ⟨scopes, current⟩, classScopes, enumScopes, file, method, breakables⟩ := s'
  obtain ⟨rfl, rfl, rfl, rfl, rfl, rfl⟩ := h
  rfl

theorem Arena.Follows.back {k : Kind} {α : Type} {R : Handle k → α → α → Prop} {a b : Arena k α}
    {h : Handle k} {y : α} (hf : a.Follows R b) (hs : b.size = a.size) (hy : b.get? h = some y) :
    ∃ x, a.get? h = some x ∧ R h x y := by
  obtain ⟨x, hx⟩ := Arena.exists_get? (a := a) (h := h) (hs ▸ Arena.lt_size_of_get? hy)
  obtain ⟨y', hy', hr⟩ := hf.part h x hx
  obtain rfl := hy.some_unique hy'
  exact ⟨x, hx, hr⟩

/-! ## The region -/

/-- A node is in the region, or it is a literal that has its type. -/
def Facts.Inside (D : Set Node) (w : Facts) (x : Node) : Prop := x ∈ D ∨ ∃ e, x = .expr e ∧ e ∈ w.1

/-- A constant is in the region, or it has been visited. -/
def Facts.Known (D : Set Node) (w : Facts) (k : ConstId) : Prop := .const k ∈ D ∨ k ∈ w.2.1

/-- A node may be visited: it is inside the region, or a constant that has been visited. -/
def Facts.At (D : Set Node) (w : Facts) (x : Node) : Prop :=
  w.Inside D x ∨ ∃ k, x = .const k ∧ k ∈ w.2.1

namespace Facts.At

variable {w : Facts}

theorem expr (h : w.At D (.expr e)) : w.Inside D (.expr e) := h.resolve_right (by simp)

theorem var {v : VarId} (h : w.At D (.var v)) : .var v ∈ D :=
  (h.resolve_right (by simp)).resolve_right (by simp)

theorem stmt {x : StmtId} (h : w.At D (.stmt x)) : .stmt x ∈ D :=
  (h.resolve_right (by simp)).resolve_right (by simp)

end Facts.At

namespace Moves

variable {w w' : Facts} {x y : Node} {kind kind' : Expr}

theorem inside_mono (hw : w ≤ w') (h : w.Inside D x) : w'.Inside D x :=
  h.imp_right (Exists.imp fun _ h => ⟨h.1, hw.1 h.2⟩)

theorem known_mono (hw : w ≤ w') (h : w.Known D k) : w'.Known D k := h.imp_right fun hk => hw.2.1 hk

/-- The expression may take the place of another. -/
def Follows (D : Set Node) (s0 : State) (w : Facts) (e : ExprId) : Prop :=
  e ∈ w.1 ∨ .expr e ∈ D ∧ ∃ kind, Shaped s0.program e kind

theorem Follows.inside (h : Follows D s0 w e) : w.Inside D (.expr e) :=
  h.elim (fun h => .inr ⟨_, rfl, h⟩) fun h => .inl h.1

/-- What is put in the slots is inside the region. -/
theorem inside_of_slots {xs ys : List Node} (h : Slots (fun _ => Follows D s0 w) xs ys)
    (hx : ∀ x ∈ xs, w.Inside D x) : ∀ y ∈ ys, w.Inside D y := by
  intro y hy
  obtain ⟨x, hmem, hb⟩ := exists_of_forall₂ h hy
  cases hb with
  | same => exact hx _ hmem
  | expr h => exact h.inside

/-- The state has come from another by work inside a region. -/
def Works (D : Set Node) (s0 : State) (w : Facts) (s : State) : Prop :=
  Moves D s0 (s.inPlaceOf s0) ∧ w = s.program.facts

/-- The constant is being visited: it is in the region, and it was not visited at the start. -/
def Visits (D : Set Node) (s0 : State) (k : ConstId) (d : Const) : Prop :=
  .const k ∈ D ∧ ∃ d0, s0.program.consts.get? k = some d0 ∧ d0.status = .unvisited ∧
  d0.outline = d.outline

namespace Works

variable {v : VarId} {c c' : Var} {x : StmtId} {m : StmtNode} {d' : Const}

section

variable (h : Works D s0 w s)

include h

theorem parts (hx : y ∈ D) : ∀ z ∈ s.program.parts y, w.Inside D z := by
  obtain ⟨h, rfl⟩ := h
  exact h.closed.parts y hx

theorem put (hn : s.program.exprs.get? e = some n)
    (hs : ExprStep D e n n') (hp : ∀ y ∈ n'.kind.parts, w.Inside D y)
    (hk : ∀ text k, n'.kind = .name text (some (.const k)) → w.Known D k) :
    Works D s0 (s.put e n').program.facts (s.put e n') ∧ w ≤ (s.put e n').program.facts := by
  obtain ⟨h, rfl⟩ := h
  exact ⟨⟨h.set_program (.setExpr hn hs) (h.closed.setExpr hn hs hp hk), rfl⟩,
    (Program.Changes.setExpr hn hs).facts_le⟩

/-- An expression of the region that is no literal changes as its outline allows. -/
theorem putShaped (he : .expr e ∈ D) (hsh : Shaped s0.program e kind)
    (hn : s.program.exprs.get? e = some n) (ho : n'.kind.outline = n.kind.outline)
    (hl : n'.line = n.line)
    (hp : ∀ y ∈ n'.kind.parts, w.Inside D y)
    (hk : ∀ text k, n'.kind = .name text (some (.const k)) → w.Known D k) :
    Works D s0 w (s.put e n') := by
  obtain ⟨m, hm, -, hlit⟩ := hsh.step h.1.program
  obtain rfl := hn.some_unique hm
  have hlit' : n'.kind.isLiteral = false := by
    rw [← Expr.isLiteral_outline, ho, Expr.isLiteral_outline, hlit]
  have hs : ExprStep D e n n' := ⟨ho, hl, fun hd => absurd he hd, fun v hv => by simp [hv] at hlit⟩
  have hput := (h.put hn hs hp hk).1
  rwa [facts_put hn hlit hlit', ← h.2] at hput

theorem expr (he : w.Inside D (.expr e)) (hn : s.program.exprs.get? e = some n) :
    (n.kind.isLiteral = false → .expr e ∈ D ∧ Shaped s0.program e n.kind) ∧
      (∀ y ∈ n.kind.parts, w.Inside D y) ∧
        ∀ text k, n.kind = .name text (some (.const k)) → w.Known D k := by
  have hparts := h.parts (y := .expr e)
  obtain ⟨h, rfl⟩ := h
  refine ⟨fun hl => ?_, fun y hy => ?_, fun text k hk => ?_⟩
  · obtain ⟨n0, hn0, hs⟩ := h.program.get?_of_not_literal hn hl
    refine ⟨Inside.of_not_literal he hn hl, n0, hn0, hs.outline.symm, ?_⟩
    rw [← Expr.isLiteral_outline, ← hs.outline, Expr.isLiteral_outline, hl]
  · rcases he with he | ⟨_, ⟨⟩, v, line, hv⟩
    · exact hparts he y (by rwa [Program.parts_expr hn])
    · obtain rfl := hv.some_unique hn
      simp at hy
  · rcases he with he | ⟨_, ⟨⟩, v, line, hv⟩
    · exact h.closed.named e n text k he hn hk
    · obtain rfl := hv.some_unique hn
      simp at hk

theorem literal {v : Literal} (he : w.Inside D (.expr e)) (hv : n.kind = .literal v)
    (hn : s.program.exprs.get? e = some n) : ExprStep D e n { n with ty := some v.ty } := by
  obtain ⟨h, rfl⟩ := h
  refine ⟨rfl, rfl, fun hd => ?_, fun u hu ht => ?_⟩
  · obtain ⟨_, ⟨⟩, u, line, hu⟩ := he.resolve_left hd
    obtain rfl := hu.some_unique hn
    cases hv
    rfl
  · obtain rfl : u = v := by simpa [hv] using hu.symm
    rw [← ht]

theorem var (hd : s.program.vars.get? v = some c) :
    ∃ d0, s0.program.vars.get? v = some d0 ∧ d0.outline = c.outline := by
  obtain ⟨d0, hd0, hs⟩ := h.1.program.vars.back h.1.program.vars_size hd
  exact ⟨d0, hd0, hs.outline.symm⟩

theorem setVar (hv : .var v ∈ D) (hd : s.program.vars.get? v = some c)
    (ho : c'.outline = c.outline) (hp : ∀ y ∈ c'.value, w.Inside D (.expr y)) :
    Works D s0 w (s.setVar v c') := by
  obtain ⟨h, rfl⟩ := h
  have hs : VarStep D v c c' := ⟨ho, fun hn => absurd hv hn⟩
  exact ⟨h.set_program (.setVar hd hs) (h.closed.setVar hd hs hp), rfl⟩

theorem stmt (hn : s.program.stmts.get? x = some m) :
    ∃ n, s0.program.stmts.get? x = some n ∧ n.kind.outline = m.kind.outline := by
  obtain ⟨n, hn', hs⟩ := h.1.program.stmts.back h.1.program.stmts_size hn
  exact ⟨n, hn', hs.outline.symm⟩

theorem const (hd : s.program.consts.get? k = some d) :
    ∃ d0, s0.program.consts.get? k = some d0 ∧ ConstStep D k d0 d :=
  h.1.program.consts.back h.1.program.consts_size hd

theorem outline (hv : Visits D s0 k d) (hd : s.program.consts.get? k = some d') :
    d'.outline = d.outline := by
  obtain ⟨-, d0, hd0, -, ho⟩ := hv
  obtain ⟨d1, hd1, hs⟩ := h.const hd
  obtain rfl := hd0.some_unique hd1
  exact hs.outline.trans ho

theorem constValue (hk : .const k ∈ D) (hd : s.program.consts.get? k = some d) :
    ∀ y ∈ d.value, w.Inside D (.expr y) := fun y hy =>
  h.parts hk _ (by simp [Program.parts_const hd, Option.mem_def.1 hy])

/-- A constant that was not visited at the start changes as its outline allows. -/
theorem setConst {d'' : Const} (hv : Visits D s0 k d)
    (hd : s.program.consts.get? k = some d') (ho : d''.outline = d'.outline) (ht : d'.Kept d'')
    (hp : ∀ y ∈ d''.value, w.Inside D (.expr y)) :
    Works D s0 (s.setConst k d'').program.facts (s.setConst k d'') := by
  obtain ⟨h, rfl⟩ := h
  obtain ⟨hk, d0, hd0, hu, -⟩ := hv
  exact ⟨⟨h.place.set_program, h.program.setConst hk hd0 hu hd ho ht, h.table, h.scopes, h.names,
    h.closed.setConst hk hd ho hp⟩, rfl⟩

theorem setConstHere {d'' : Const} (hv : Visits D s0 k d)
    (hd : s.program.consts.get? k = some d') (hs : d''.status = d'.status)
    (ho : d''.outline = d'.outline)
    (ht : d'.Kept d'') (hp : ∀ y ∈ d''.value, w.Inside D (.expr y)) :
    Works D s0 w (s.setConst k d'') := by
  have hset := h.setConst hv hd ho ht hp
  rwa [facts_setConst hd hs, ← h.2] at hset

theorem define {i : ScopeId} {name : String} {symbol : Symbol} {t : ScopeTable}
    (hb : Binds D) (hl : symbol.isLocal) (hk : ∀ k, symbol = .const k → w.Known D k)
    (ht : s.table.define? i name symbol = .ok (some t)) : Works D s0 w { s with table := t } := by
  obtain ⟨h, rfl⟩ := h
  have hcl : Closed D s.program s.table := ⟨h.closed.parts, h.closed.named, h.closed.bound⟩
  have hcl' := hcl.define ht hk
  have hext : s.table.Extends t := .define ht hl
  refine ⟨⟨⟨rfl, rfl, rfl, rfl, rfl, rfl⟩, h.program, h.table.trans hext, fun hx => ?_,
    fun hx => absurd hb hx, hcl'.parts, hcl'.named, hcl'.bound⟩, rfl⟩
  obtain ⟨c, -, -, rfl⟩ := ScopeTable.define?_ok ht
  exact (Array.size_setIfInBounds ..).trans (h.scopes hx)

theorem addScope {scope : ScopeKind} {parent : ScopeId} (hx : .stmt x ∈ D) :
    Works D s0 w { s with table := s.table.add scope parent } := by
  obtain ⟨h, rfl⟩ := h
  refine ⟨⟨⟨rfl, rfl, rfl, rfl, rfl, rfl⟩, h.program, h.table.trans (.add _ _ _),
    fun hno => absurd hx (hno x),
    fun hno => absurd (.inr ⟨x, hx⟩) hno, h.closed.parts, h.closed.named,
    fun i c name k hi hb => ?_⟩, rfl⟩
  simp only [State.inPlaceOf, ScopeTable.enter, ScopeTable.add, Array.getElem?_push] at hi
  split at hi
  · obtain rfl := Option.some.inj hi
    simp at hb
  · exact h.closed.bound i c name k hi hb

/-! ### The laws -/

theorem fits (he : w.Inside D (.expr e)) (hn : s.program.exprs.get? e = some n) :
    (n.kind.isLiteral = false →
      .expr e ∈ D ∧ Shaped s0.program e n.kind ∧ ∀ y ∈ n.kind.parts, w.Inside D y) ∧
    (∀ y ∈ n.kind.parts, w.At D y) ∧
      ∀ text symbol, n.kind = .name text (some symbol) → ∀ k, symbol = .const k → w.Known D k := by
  obtain ⟨hf, hp, hk⟩ := h.expr he hn
  exact ⟨fun hl => ⟨(hf hl).1, (hf hl).2, hp⟩, fun y hy => .inl (hp y hy),
    fun text symbol hn k heq => hk text k (heq ▸ hn)⟩

theorem fitsVar (hv : .var v ∈ D) (hd : s.program.vars.get? v = some c) :
    (.var v ∈ D ∧ ∃ d0, s0.program.vars.get? v = some d0 ∧ d0.outline = c.outline) ∧
      ∀ y ∈ c.parts, w.At D y := by
  refine ⟨⟨hv, h.var hd⟩, fun y hy => .inl (h.parts hv y ?_)⟩
  rwa [Program.parts, hd]

theorem fitsConst (hf : Visits D s0 k d) (hd : s.program.consts.get? k = some d') :
    Visits D s0 k d' ∧ ∀ y ∈ d'.parts, w.At D y := by
  have ho := h.outline hf hd
  obtain ⟨hk, d0, hd0, hu, ho0⟩ := hf
  refine ⟨⟨hk, d0, hd0, hu, ho0.trans ho.symm⟩, fun y hy => .inl (h.parts hk y ?_)⟩
  rwa [Program.parts, hd]

theorem inside_stmt (hx : .stmt x ∈ D) (hn : s.program.stmts.get? x = some m) :
    ∀ y ∈ m.kind.parts, w.Inside D y := by
  have hp := h.parts hx
  rwa [Program.parts_stmt hn] at hp

theorem replace (he : .expr e ∈ D) (hsh : Shaped s0.program e kind)
    (hp : ∀ y ∈ kind.parts, w.Inside D y)
    (hs : Slots (fun _ => Follows D s0 w) kind.parts kind'.parts)
    (ho : kind'.outline = kind.outline)
    (hm : ∀ text symbol, kind' = .name text (some symbol) → ∀ k, symbol = .const k → w.Known D k)
    (hn : s.program.exprs.get? e = some n) : Works D s0 w (s.put e { n with kind := kind' }) := by
  obtain ⟨m, hm', hmo, -⟩ := hsh.step h.1.program
  obtain rfl := hn.some_unique hm'
  exact h.putShaped he hsh hn (ho.trans hmo.symm) rfl (inside_of_slots hs hp)
    fun text k hk => hm text _ hk k rfl

theorem fold {line : UInt32} {u : Literal} (room : s.program.exprs.size < UInt32.size) :
    ∃ w', w ≤ w' ∧ Works D s0 w' (s.grow line u) ∧ Follows D s0 w' s.program.exprs.next := by
  obtain ⟨h, rfl⟩ := h
  exact ⟨_, (Program.Changes.addTyped (D := D)).facts_le,
    ⟨h.set_program .addTyped (h.closed.addTyped room), rfl⟩,
    .inl ⟨u, line, Arena.get?_next_push room⟩⟩

theorem varValue {d : Var} {a b : ExprId} (hv : .var v ∈ D)
    (hf : ∃ d0, s0.program.vars.get? v = some d0 ∧ d0.outline = d.outline)
    (ha : d.value = some a) (hb : Follows D s0 w b) (hd : s.program.vars.get? v = some c) :
    Works D s0 w (s.setVar v { c with value := some b }) := by
  obtain ⟨d0, hd0, ho⟩ := h.var hd
  obtain ⟨d1, hd1, ho1⟩ := hf
  obtain rfl := hd0.some_unique hd1
  refine h.setVar hv hd ?_ fun y hy => ?_
  · have := congrArg Var.value (ho.symm.trans ho1)
    simp_all [Var.outline]
  · cases hy
    exact hb.inside

theorem varTy {t : Ty} (hv : .var v ∈ D) (hd : s.program.vars.get? v = some c) :
    Works D s0 w (s.setVar v { c with ty := some t }) := by
  refine h.setVar hv hd rfl fun y hy => h.parts hv _ ?_
  rw [Program.parts_var hd]
  exact List.mem_cons_of_mem _ (List.mem_map_of_mem (Option.mem_toList.2 hy))

/-- A constant that has not been visited is in the region, and it was not visited at the start. -/
theorem visits (hk : w.At D (.const k)) (hd : s.program.consts.get? k = some d)
    (hs : d.status = .unvisited) : Visits D s0 k d := by
  have hmem : .const k ∈ D := by
    obtain ⟨-, rfl⟩ := h
    rcases hk with hk | ⟨_, ⟨⟩, d', hd', hv⟩
    · exact hk.resolve_right (by simp)
    · obtain rfl := hd.some_unique hd'
      exact absurd hs hv
  obtain ⟨d0, hd0, hstep⟩ := h.const hd
  have hu : d0.status = .unvisited := by
    by_contra hne
    exact hne (by rw [← hstep.visited hne, hs])
  exact ⟨hmem, d0, hd0, hu, hstep.outline.symm⟩

/-- The visit of a constant goes on. -/
theorem mark (status : Status) (hf : Visits D s0 k d) (hd : s.program.consts.get? k = some d')
    (hv : status ≠ .unvisited) (hr : d'.status = .resolved → status = .resolved) :
    Works D s0 (s.setConst k { d' with status }).program.facts (s.setConst k { d' with status }) ∧
      w ≤ (s.setConst k { d' with status }).program.facts := by
  refine ⟨h.setConst hf hd rfl ⟨rfl, fun _ _ => .inl rfl⟩ fun y hy => h.constValue hf.1 hd y hy, ?_⟩
  rw [h.2]
  exact facts_le_setConst hd hv hr

theorem giveConst {a b : ExprId} (hf : Visits D s0 k d) (ha : d.value = some a)
    (hb : Follows D s0 w b) (hd : s.program.consts.get? k = some d') :
    Works D s0 w (s.setConst k { d' with value := some b }) := by
  have ho := congrArg Const.value (h.outline hf hd)
  refine h.setConstHere hf hd rfl (by simp_all [Const.outline]) ⟨rfl, fun _ _ => .inl rfl⟩
    fun y hy => ?_
  cases hy
  exact hb.inside

theorem typeConst {t : Ty} (hf : Visits D s0 k d)
    (ht : ∀ c, d.owner = .enumDecl c → t = .enumeration c)
    (hd : s.program.consts.get? k = some d') :
    Works D s0 w (s.setConst k { d' with ty := some t }) := by
  have ho : d'.owner = d.owner := (congrArg Const.owner (h.outline hf hd) :)
  exact h.setConstHere hf hd rfl rfl ⟨rfl, fun c hc => .inr (by rw [ht c (ho.symm.trans hc)])⟩
    fun y hy => h.constValue hf.1 hd y hy

theorem setStmt {kind kind' : Stmt} (hx : .stmt x ∈ D)
    (hf : ∃ n, s0.program.stmts.get? x = some n ∧ n.kind.outline = kind.outline)
    (hp : ∀ y ∈ kind.parts, w.Inside D y)
    (hs : Slots (fun _ => Follows D s0 w) kind.parts kind'.parts)
    (ho : kind'.outline = kind.outline) (hn : s.program.stmts.get? x = some m) :
    Works D s0 w (s.setStmt x { m with kind := kind' }) := by
  obtain ⟨h, rfl⟩ := h
  obtain ⟨n0, hn0, ho0⟩ := hf
  obtain ⟨n', hn', hstep⟩ := h.program.stmts.part x n0 hn0
  obtain rfl := hn.some_unique hn'
  have hstmt : StmtStep D x m { m with kind := kind' } :=
    ⟨(ho.trans ho0.symm).trans hstep.outline.symm, rfl, fun hd => absurd hx hd⟩
  exact ⟨h.set_program (.setStmt hn hstmt)
    (h.closed.setStmt hn hstmt (inside_of_slots hs hp)), rfl⟩

end

end Works

/-- Work inside a region, from a state on. -/
def frame (D : Set Node) (s0 : State) : Discipline Facts where
  Holds _ := Works D s0
  At w _ := w.At D
  Gives w _ := Follows D s0 w
  Covers _ _ := True
  Held _ _ := True
  Means w symbol := ∀ k, symbol = .const k → w.Known D k
  Settled w k := k ∈ w.2.2
  Fits w e kind := kind.isLiteral = false →
    .expr e ∈ D ∧ Shaped s0.program e kind ∧ ∀ y ∈ kind.parts, w.Inside D y
  FitsStmt w x kind := .stmt x ∈ D ∧
    (∃ n, s0.program.stmts.get? x = some n ∧ n.kind.outline = kind.outline) ∧
      ∀ y ∈ kind.parts, w.Inside D y
  FitsVar _ v d := .var v ∈ D ∧ ∃ d0, s0.program.vars.get? v = some d0 ∧ d0.outline = d.outline
  FitsConst _ := Visits D s0
  Family _ := True
  Lines _ _ := True
  Blames _ := True
  Done _ _ _ := True
  family := Interval.family_all
  at_mono hw := .imp (inside_mono hw) (Exists.imp fun _ h => ⟨h.1, hw.2.1 h.2⟩)
  gives_mono hw h := h.imp_left fun he => hw.1 he
  covers_mono _ h := h
  held_mono _ h := h
  means_mono hw h k hk := known_mono hw (h k hk)
  fits_mono hw h hl := by
    obtain ⟨he, hsh, hp⟩ := h hl
    exact ⟨he, hsh, fun y hy => inside_mono hw (hp y hy)⟩
  fitsStmt_mono hw h := ⟨h.1, h.2.1, fun y hy => inside_mono hw (h.2.2 y hy)⟩
  fitsVar_mono _ h := h
  fitsConst_mono _ h := h
  done_mono _ h := h
  place := by
    rintro _ _ ⟨_, ⟨_, _⟩⟩ ⟨_, ⟨_, _⟩⟩ rfl rfl h
    exact h
  at_around _ h := h
  owe _ h := h
  pay h _ := h
  gives_covers _ := trivial
  settled_covers _ := trivial
  done_covers _ := trivial
  hold h _ _ := ⟨_, le_rfl, h, trivial⟩
  held_name _ := trivial
  types _ := Program.within_all _
  line _ _ _ := trivial
  blame _ _ _ := trivial
  bound := by
    rintro _ _ s name symbol i c ⟨h, rfl⟩ hc hb k rfl
    exact h.closed.bound i c name k hc hb
  means_type _ := Ty.within_all _
  means_other _ hk k heq := absurd heq (hk k)
  node h he hn := h.fits he.expr hn
  var h hv hd := h.fitsVar hv.var hd
  const h _ hf hd := h.fitsConst hf hd
  stmt h hx hn := by
    have hp := h.inside_stmt hx.stmt hn
    exact ⟨⟨hx.stmt, h.stmt hn, hp⟩, fun y hy _ => .inl (hp y hy),
      fun b hb => .inl (hp _ (Stmt.mem_parts_of_inner hb))⟩
  gives_child _ _ h := h
  gives_at _ h := .inl h.inside
  replace h hf hl hs ho _ hm hn := by
    obtain ⟨he, hsh, hp⟩ := hf hl
    exact ⟨_, le_rfl, h.replace he hsh hp hs.slots ho hm hn, trivial⟩
  record h hf hl _ _ _ hn := by
    obtain ⟨he, hsh, -⟩ := hf hl
    obtain ⟨-, hp, hk⟩ := h.expr (.inl he) hn
    exact ⟨_, le_rfl, h.putShaped he hsh hn rfl rfl hp hk, .inr ⟨he, _, hsh⟩⟩
  recordLiteral h he hv hn := by
    have hput := h.put hn (h.literal he.expr hv hn) (by simp [hv]) (by simp [hv])
    exact ⟨_, hput.2, hput.1, .inl ⟨_, _, (get?_put_self hn).trans (by rw [hv])⟩⟩
  fold h _ _ room := h.fold room
  varValue h hf hv hg _ hd := ⟨_, le_rfl, h.varValue hf.1 hf.2 hv hg hd, trivial⟩
  varTy h hf _ _ _ hd := ⟨_, le_rfl, h.varTy hf.1 hd, trivial⟩
  bindVar h hv ht := h.define (.inl ⟨_, hv.var⟩) rfl (by simp) ht
  home _ hk _ _ _ := by
    refine .inl (hk.elim (fun h => ?_) id)
    exact (h _ rfl).elim (fun h => .inl (.inl h)) fun h => .inr ⟨_, rfl, h⟩
  settle := by
    rintro _ _ s k d ⟨h, rfl⟩ hd hs
    exact ⟨_, le_rfl, ⟨h, rfl⟩, d, hd, hs⟩
  resolved := by
    rintro _ _ s k d ⟨h, rfl⟩ ⟨d', hd', hs⟩ hd
    obtain rfl := hd.some_unique hd'
    exact hs
  means_settled := by
    rintro _ _ s k ⟨h, rfl⟩ ⟨d, hd, hs⟩ _ ⟨⟩
    exact .inr ⟨d, hd, by simp [hs]⟩
  visit h hk hd hs := by
    have hv := h.visits hk hd hs
    obtain ⟨hset, hle⟩ := h.mark .inProgress hv hd (by simp) (by simp [hs])
    exact ⟨_, hle, hset, hv⟩
  constValue h hf hv hg _ hd := ⟨_, le_rfl, h.giveConst hf hv hg hd, trivial⟩
  constTy h hf _ ht hd := h.typeConst hf ht hd
  finishConst h hf _ _ hd := by
    obtain ⟨hset, hle⟩ := h.mark .resolved hf hd (by simp) (by simp)
    exact ⟨_, hle, hset, _, Arena.get?_set_self hd, rfl⟩
  bindConst h hx hk ht := h.define (.inr ⟨_, hx.stmt⟩) rfl hk ht
  setStmt h hf hs ho _ _ hn := ⟨_, le_rfl, h.setStmt hf.1 hf.2.1 hf.2.2 hs.slots ho hn, trivial⟩
  addScope h hx := h.addScope hx.stmt
  jump _ _ _ _ _ _ := trivial

end Moves

/-! ## The rules -/

/-- The rules that are called work inside a region. -/
structure Pass.Calls.Stay (calls : Calls) (D : Set Node) : Prop where
  expr : ∀ (s : State) (e : ExprId), Inside D s.program (.expr e) →
    Keeps (Moves D s) (calls.expr e) s fun e' s' => Moves.Stands D s'.program e'
  type : ∀ (s : State) (e : ExprId), Inside D s.program (.expr e) →
    Keeps (Moves D s) (calls.type e) s fun _ _ => True
  const : ∀ (s : State) (k : ConstId), Known D s.program k →
    Keeps (Moves D s) (calls.const k) s fun _ s' =>
      ∃ d, s'.program.consts.get? k = some d ∧ d.status = .resolved

namespace Moves

/-- What follows the discipline of a region works inside the region. -/
theorem of_obeys {α : Type} {x : Pass α} {Q : Facts → α → Prop}
    (h : Obeys (frame D s) s.place s.program.facts x Q) :
    Keeps (Moves D s) x s fun a s' => Q s'.program.facts a := by
  refine .of_inv fun hm => ⟨fun _ => ?_⟩
  obtain ⟨w, -, hx⟩ := h (Δ := ∅) s ⟨.refl hm.closed, rfl⟩ rfl
  cases heq : x s with
  | ok =>
    rw [heq] at hx
    obtain ⟨⟨hw, rfl⟩, hsame, hq⟩ := hx
    rw [hsame.inPlaceOf] at hw
    exact ⟨hw, hq⟩
  | error =>
    rw [heq] at hx
    obtain ⟨⟨_, hw, -⟩, hsame, -⟩ := hx
    rwa [hsame.inPlaceOf] at hw

/-- Whatever the rules do when they call each other stays inside a closed region. -/
theorem stay_callsWithin (D : Set Node) (n : Nat) : (Resolve.callsWithin n).Stay D where
  expr s e he := (of_obeys ((Obeys.callsWithin _ n).expr (.inl he))).mono fun _ _ hm hg =>
    hg.imp_right fun h => ⟨h.1, h.2.imp fun _ hsh => hsh.step hm.program⟩
  type s e he := (of_obeys ((Obeys.callsWithin _ n).type (.inl he))).mono fun _ _ _ _ => trivial
  const s k hk :=
    of_obeys ((Obeys.callsWithin _ n).const (.inl fun _ heq => by cases heq; exact hk))

theorem resolveExpr (he : Inside D s.program (.expr e)) :
    Keeps (Moves D s) (Resolve.resolveExpr e) s fun e' s' => Inside D s'.program (.expr e') :=
  Keeps.get_bind (((stay_callsWithin D _).expr s e he).mono fun _ _ _ h => h.inside)

theorem resolveType (he : Inside D s.program (.expr e)) :
    Keeps (Moves D s) (Resolve.resolveType e) s fun _ _ => True :=
  Keeps.get_bind ((stay_callsWithin D _).type s e he)

theorem resolveConst (hk : Known D s.program k) :
    Keeps (Moves D s) (Resolve.resolveConst k) s fun _ s' =>
      ∃ d, s'.program.consts.get? k = some d ∧ d.status = .resolved :=
  Keeps.get_bind ((stay_callsWithin D _).const s k hk)

theorem stmtWithin (n : Nat) {x : StmtId} (hx : .stmt x ∈ D) :
    Keeps (Moves D s) (Resolve.stmtWithin n x) s fun _ _ => True :=
  of_obeys (.imp (Obeys.stmtWithin (L := frame D s) (.inl (.inl hx)) n) fun _ _ _ _ => trivial)

theorem resolveStmt {x : StmtId} (hx : .stmt x ∈ D) :
    Keeps (Moves D s) (Resolve.resolveStmt x) s fun _ _ => True := Keeps.get_bind (stmtWithin _ hx)

end Moves

end Ci
