-- The steps of a pass inside a region: an expression that is replaced or typed, a
-- literal that is added, and a name that is bound. They keep the region closed.
import Ci.Proofs.Frame.Moves

namespace Ci

open Pass Program

variable {D : Set Node} {p q : Program} {t : ScopeTable} {s0 s : State} {e : ExprId}

/-! ## Closed regions -/

section

variable (h : Closed D p t)

include h

/-- A region stays closed if one node alone gets other parts, which are inside. -/
theorem Closed.step {x : Node} (hin : ∀ y, Inside D p y → Inside D q y)
    (hkn : ∀ k, Known D p k → Known D q k) (hsame : ∀ y, y ≠ x → q.parts y = p.parts y)
    (hnew : x ∈ D → ∀ y ∈ q.parts x, Inside D p y)
    (hnames : ∀ e n text k, q.exprs.get? e = some n → n.kind = .name text (some (.const k)) →
      p.exprs.get? e = some n ∨ Known D p k) : Closed D q t := by
  refine ⟨fun y hy z hz => ?_, fun e n text k he hn hk => ?_, fun i c name k hi hb => ?_⟩
  · by_cases hxy : y = x
    · subst hxy
      exact hin z (hnew hy z hz)
    · exact hin z (h.parts y hy z (hsame y hxy ▸ hz))
  · rcases hnames e n text k hn hk with hn' | hn'
    · exact hkn k (h.named e n text k he hn' hk)
    · exact hkn k hn'
  · exact hkn k (h.bound i c name k hi hb)

theorem Closed.setExpr {n n' : ExprNode} (hn : p.exprs.get? e = some n)
    (hs : ExprStep D e n n') (hp : ∀ y ∈ n'.kind.parts, Inside D p y)
    (hk : ∀ text k, n'.kind = .name text (some (.const k)) → Known D p k) :
    Closed D { p with exprs := p.exprs.set e n' } t := by
  have hc : p.Changes D { p with exprs := p.exprs.set e n' } := .setExpr hn hs
  refine h.step (x := .expr e) (fun _ h => h.step hc) (fun _ h => h.step hc) (fun x hx => ?_)
    (fun _ y hy => ?_)
    fun e' m text k hm hmk => ?_
  · cases x with
    | expr e' =>
      have hne : e ≠ e' := fun h' => hx (by rw [h'])
      simp [Program.parts, Arena.get?_set_of_ne hne]
    | _ => rfl
  · rw [parts_expr (Arena.get?_set_self hn)] at hy
    exact hp y hy
  · by_cases hee : e = e'
    · subst hee
      obtain rfl := (Arena.get?_set_self hn).some_unique hm
      exact .inr (hk text k hmk)
    · exact .inl ((Arena.get?_set_of_ne hee).symm.trans hm)

theorem Closed.addTyped {line : UInt32} {value : Literal}
    (hs : p.exprs.size < UInt32.size) : Closed D (p.addTyped line value).2 t := by
  -- the new slot was empty before, and a literal has no parts
  have hget : ∀ e, e ≠ p.exprs.next → (p.addTyped line value).2.exprs.get? e = p.exprs.get? e :=
    fun _ he => Arena.get?_push_of_ne hs he
  have hself : (p.addTyped line value).2.exprs.get? p.exprs.next
      = some ⟨.literal value, line, some value.ty⟩ := Arena.get?_next_push hs
  have hc : p.Changes D (p.addTyped line value).2 := .addTyped
  refine h.step (x := .expr p.exprs.next) (fun _ h => h.step hc) (fun _ h => h.step hc)
    (fun x hx => ?_) (fun _ y hy => ?_)
    fun e m text k hm hmk => ?_
  · cases x with
    | expr e => simp [Program.parts, hget e fun h' => hx (by rw [h'])]
    | _ => rfl
  · rw [parts_expr hself] at hy
    simp at hy
  · by_cases he : e = p.exprs.next
    · subst he
      obtain rfl := hself.some_unique hm
      simp at hmk
    · exact .inl (hget e he ▸ hm)

theorem Closed.setVar {v : VarId} {d d' : Var} (hd : p.vars.get? v = some d)
    (hs : VarStep D v d d') (hp : ∀ y ∈ d'.value, Inside D p (.expr y)) :
    Closed D { p with vars := p.vars.set v d' } t := by
  have hc : p.Changes D { p with vars := p.vars.set v d' } := .setVar hd hs
  refine h.step (x := .var v) (fun _ h => h.step hc) (fun _ h => h.step hc) (fun x hx => ?_)
    (fun hv y hy => ?_)
    fun e m text k hm hmk => .inl hm
  · cases x with
    | var v' =>
      have hne : v ≠ v' := fun h' => hx (by rw [h'])
      simp [Program.parts, Arena.get?_set_of_ne hne]
    | _ => rfl
  · rw [parts_var (Arena.get?_set_self hd)] at hy
    rcases List.mem_cons.1 hy with rfl | hy
    · have hte : d'.typeExpr = d.typeExpr := by
        simpa [Var.outline] using congrArg Var.typeExpr hs.outline
      rw [hte]
      exact h.parts _ hv _ (by simp [parts_var hd])
    · simp only [List.mem_map, Option.mem_toList] at hy
      obtain ⟨z, hz, rfl⟩ := hy
      exact hp z hz

/-- A constant of the region may change in any way that keeps its outline. -/
theorem Closed.setConst {k : ConstId} {d d' : Const} (hk : .const k ∈ D)
    (hd : p.consts.get? k = some d) (ho : d'.outline = d.outline)
    (hp : ∀ y ∈ d'.value, Inside D p (.expr y)) :
    Closed D { p with consts := p.consts.set k d' } t := by
  refine h.step (x := .const k) (fun _ h => h) (fun k' h => ?_) (fun x hx => ?_)
    (fun _ y hy => ?_) fun e m text k hm hmk => .inl hm
  · by_cases hkk : k = k'
    · exact .inl (hkk ▸ hk)
    · exact h.imp_right fun ⟨d, hd, hr⟩ => ⟨d, (Arena.get?_set_of_ne hkk).trans hd, hr⟩
  · cases x with
    | const k' =>
      have hne : k ≠ k' := fun h' => hx (by rw [h'])
      simp [Program.parts, Arena.get?_set_of_ne hne]
    | _ => rfl
  · rw [parts_const (Arena.get?_set_self hd)] at hy
    have hte : d'.typeExpr = d.typeExpr := by
      simpa [Const.outline] using congrArg Const.typeExpr ho
    simp only [List.mem_map, List.mem_append, Option.mem_toList] at hy
    obtain ⟨z, hz | hz, rfl⟩ := hy
    · refine h.parts _ hk _ ?_
      rw [hte] at hz
      simp [parts_const hd, Option.mem_def.1 hz]
    · exact hp z hz

theorem Closed.setStmt {x : StmtId} {n n' : StmtNode}
    (hn : p.stmts.get? x = some n) (hs : StmtStep D x n n')
    (hp : ∀ y ∈ n'.kind.parts, Inside D p y) :
    Closed D { p with stmts := p.stmts.set x n' } t := by
  have hc : p.Changes D { p with stmts := p.stmts.set x n' } := .setStmt hn hs
  refine h.step (x := .stmt x) (fun _ h => h.step hc) (fun _ h => h.step hc) (fun y hy => ?_)
    (fun _ y hy => ?_)
    fun e m text k hm hmk => .inl hm
  · cases y with
    | stmt x' =>
      have hne : x ≠ x' := fun h' => hy (by rw [h'])
      simp [Program.parts, Arena.get?_set_of_ne hne]
    | _ => rfl
  · rw [parts_stmt (Arena.get?_set_self hn)] at hy
    exact hp y hy

theorem Closed.define {t' : ScopeTable} {i : ScopeId} {name : String} {symbol : Symbol}
    (hd : t.define? i name symbol = .ok (some t'))
    (hk : ∀ k, symbol = .const k → Known D p k) : Closed D p t' := by
  obtain ⟨c, hc, -, rfl⟩ := ScopeTable.define?_ok hd
  refine ⟨h.parts, h.named, fun j c' name' k hj hb => ?_⟩
  by_cases hij : i.slot = j
  · subst hij
    obtain rfl := (ScopeTable.getElem?_set_self hc).some_unique hj
    rcases List.mem_cons.1 hb with hb | hb
    · exact hk k (Prod.ext_iff.1 hb).2.symm
    · exact h.bound i.slot c name' k hc hb
  · exact h.bound j c' name' k ((ScopeTable.getElem?_set_of_ne hij).symm.trans hj) hb

end

/-- Nothing leads out of the whole program. -/
theorem Closed.univ : Closed Set.univ p t :=
  ⟨fun _ _ _ _ => .inl trivial, fun _ _ _ _ _ _ _ => .inl trivial, fun _ _ _ _ _ _ => .inl trivial⟩

/-! ## What stands in a region -/

namespace Moves

/-- The expression was there at the start and had a kind of an outline that is no literal. -/
def Shaped (p : Program) (e : ExprId) (kind : Expr) : Prop :=
  ∃ n, p.exprs.get? e = some n ∧ n.kind.outline = kind.outline ∧ n.kind.isLiteral = false

variable {kind : Expr}

theorem Shaped.step (h : Shaped p e kind) (hc : p.Changes D q) : Shaped q e kind := by
  obtain ⟨n, hn, hk, hl⟩ := h
  obtain ⟨n', hn', hs⟩ := hc.exprs.part e n hn
  refine ⟨n', hn', hs.outline.trans hk, ?_⟩
  rw [← Expr.isLiteral_outline, hs.outline, Expr.isLiteral_outline, hl]

/-- What may take the place of an expression: a literal that has its type, or an expression of the
region that is no literal. -/
def Stands (D : Set Node) (p : Program) (e : ExprId) : Prop :=
  p.TypedLiteral e ∨ .expr e ∈ D ∧ ∃ kind, Shaped p e kind

theorem Stands.inside (h : Stands D p e) : Inside D p (.expr e) :=
  h.elim (fun h => .inr ⟨e, rfl, h⟩) fun h => .inl h.1

theorem Stands.step (h : Stands D p e) (hc : p.Changes D q) : Stands D q e :=
  h.imp hc.typedLiteral fun h => ⟨h.1, h.2.imp fun _ hsh => hsh.step hc⟩

theorem set_program (h : Moves D s0 s) (hc : s.program.Changes D q)
    (hq : Closed D q s.table) : Moves D s0 { s with program := q } :=
  ⟨h.place.set_program, h.program.trans hc, h.table, h.scopes, h.names, hq⟩

/-- An invariant that no work inside a region can break. -/
theorem weaken {α : Type} {x : Pass α} {R : α → State → Prop} {I : State → Prop}
    (hcl : Closed D s.program s.table) (h : Keeps (Moves D s) x s R)
    (hI : ∀ s', Moves D s s' → I s → I s') : Keeps I x s R := by
  refine ⟨fun hi => ?_⟩
  have := h.holds (.refl hcl)
  cases hx : x s with
  | ok _ s' =>
    rw [hx] at this
    exact ⟨hI s' this.1 hi, this.2⟩
  | error _ s' =>
    rw [hx] at this
    exact hI s' this hi

end Moves

end Ci
