-- The state of a pass over a program. The scopes have parents that are there, and the
-- names in them stand for something, as far as handles are known to lead somewhere.
import Ci.Proofs.Pass.Endings
import Ci.Proofs.Safety.Queries

namespace Ci

open Pass

variable {ρ : Ranking} {kind : ScopeKind} {parent i : ScopeId} {n : ExprNode}

/-- One part of an arena is replaced, and others are counted as before. -/
theorem Arena.countP_set {k : Kind} {α : Type} {a : Arena k α} {i : Handle k} {x y : α}
    {P : α → Bool} (hx : a.get? i = some x) :
    (a.set i y).toList.countP P + (if P x then 1 else 0) =
      a.toList.countP P + if P y then 1 else 0 := by
  obtain ⟨hlt, hget⟩ := Array.getElem?_eq_some_iff.1 hx
  have hlt' : i.slot < a.toList.length := by simpa [toList] using hlt
  have hget' : a.toList[i.slot] = x := by simpa [toList] using hget
  have hset : (a.set i y).toList = a.toList.set i.slot y := by
    simp [toList, set, Array.toList_setIfInBounds]
  have hpos : P x = true → 0 < a.toList.countP P := fun h =>
    List.countP_pos_iff.2 ⟨x, mem_toList_of_get? hx, h⟩
  rw [hset, List.countP_set hlt', hget']
  by_cases h : P x = true
  · have := hpos h
    simp only [h, if_true]
    omega
  · simp only [h, Bool.false_eq_true, if_false]
    omega

/-! ## The invariant -/

/-- How many constants have not been visited. -/
def Program.pending (p : Program) : Nat := p.consts.toList.countP fun d => d.status = .unvisited

/-- No slot is lost. Only expressions are added. -/
structure Program.Grows (p q : Program) : Prop where
  exprs : p.exprs.size ≤ q.exprs.size
  others : ∀ y, (∀ e, y ≠ .expr e) → q.room y = p.room y

/-- A scope is recorded and in a table. Where handles may lead nowhere it may not be recorded. -/
def Ranking.Records (ρ : Ranking) (t : ScopeTable) (i : Option ScopeId) : Prop :=
  i.elim ρ.loose (·.slot < t.scopes.size)

theorem Ranking.Records.mono {t t' : ScopeTable} {i : Option ScopeId}
    (h : ρ.Records t i) (ht : t.scopes.size ≤ t'.scopes.size) : ρ.Records t' i := by
  cases i with
  | none => exact h
  | some => exact Nat.lt_of_lt_of_le h ht

/-- Names are bound to symbols of one sort only. -/
def ScopeTable.BindsOnly (t : ScopeTable) (P : Symbol → Prop) : Prop :=
  ∀ (i : Nat) c name symbol, t.scopes[i]? = some c → (name, symbol) ∈ c.bindings → P symbol

namespace ScopeTable.BindsOnly

variable {t : ScopeTable} {P : Symbol → Prop}

theorem add (h : t.BindsOnly P) : (t.add kind parent).BindsOnly P := by
  intro i c name symbol hc hb
  simp only [ScopeTable.add, Array.getElem?_push] at hc
  split at hc
  · obtain rfl := Option.some.inj hc
    cases hb
  · exact h i c name symbol hc hb

theorem set {c c' : Scope} (h : t.BindsOnly P) (hc : t.scopes[i.slot]? = some c)
    (hb : ∀ b ∈ c'.bindings, b ∈ c.bindings ∨ P b.2) : (t.set i c').BindsOnly P := by
  intro j d name symbol hd hmem
  by_cases hij : i.slot = j
  · subst hij
    rw [ScopeTable.getElem?_set_self hc] at hd
    obtain rfl := Option.some.inj hd
    exact (hb _ hmem).elim (h i.slot c name symbol hc) id
  · rw [ScopeTable.getElem?_set_of_ne hij] at hd
    exact h j d name symbol hd hmem

end ScopeTable.BindsOnly

/-- All the handles in the state of a pass lead somewhere, unless they may lead nowhere, and the
ways along them come to an end. -/
structure Sound (ρ : Ranking) (s : State) : Prop where
  handles : ρ.Covers s.program
  ranks : ρ.Fits s.program
  exprs : ρ.exprs ≤ s.program.exprs.size
  stmts : ρ.stmts ≤ s.program.stmts.size
  scopes : s.table.Nested
  bound : s.table.BindsOnly fun symbol => ρ.SeesAll s.program symbol.refs
  current : s.table.current.slot < s.table.scopes.size
  classScopes : ∀ c, ρ.Sees s.program (.classDecl c) →
    ρ.Records s.table (s.classScopes.get? c)
  enumScopes : ∀ d, ρ.Sees s.program (.enumDecl d) →
    ρ.Records s.table (s.enumScopes.get? d)
  method : ∀ m, s.method = some m → ρ.Sees s.program (.method m)

/-- What a pass leaves is there as before, and there is no more to visit. -/
structure Wider (s s' : State) : Prop where
  program : s.program.Grows s'.program
  scopes : s.table.scopes.size ≤ s'.table.scopes.size
  pending : s'.program.pending ≤ s.program.pending

namespace Program

variable {p q r : Program} {y : Node} {ws : List Node}

namespace Grows

theorem refl (p : Program) : Grows p p := ⟨Nat.le_refl _, fun _ _ => rfl⟩

section

variable (h : Grows p q)

include h

theorem trans (h' : Grows q r) : Grows p r :=
  ⟨h.exprs.trans h'.exprs, fun y hy => (h'.others y hy).trans (h.others y hy)⟩

theorem has (hy : p.Has y) : q.Has y := by
  cases y with
  | expr => exact Nat.lt_of_lt_of_le hy h.exprs
  | _ => rwa [Has, h.others _ (by simp)]

theorem sees (hy : ρ.Sees p y) : ρ.Sees q y := hy.imp id h.has

theorem seesAll (hw : ρ.SeesAll p ws) : ρ.SeesAll q ws :=
  fun w hm => h.sees (hw w hm)

theorem hasClass {c : ClassId} : q.Has (.classDecl c) ↔ p.Has (.classDecl c) := by
  rw [Has, Has, h.others _ (by simp)]

theorem hasEnum {d : EnumId} : q.Has (.enumDecl d) ↔ p.Has (.enumDecl d) := by
  rw [Has, Has, h.others _ (by simp)]

theorem stmts : q.stmts.size = p.stmts.size := h.others (.stmt ⟨0⟩) (by simp)

end

theorem setExpr {e : ExprId} : Grows p { p with exprs := p.exprs.set e n } :=
  ⟨by simp, fun y _ => by cases y <;> simp [room]⟩

theorem addExpr : Grows p { p with exprs := p.exprs.push n } :=
  ⟨by simp, fun y hy => by cases y <;> simp_all [room]⟩

theorem setStmt {x : StmtId} {n : StmtNode} : Grows p { p with stmts := p.stmts.set x n } :=
  ⟨by simp, fun y _ => by cases y <;> simp [room]⟩

theorem setClass {c : ClassId} {d : ClassDecl} : Grows p { p with classes := p.classes.set c d } :=
  ⟨by simp, fun y _ => by cases y <;> simp [room]⟩

theorem setConst {k : ConstId} {d : Const} : Grows p { p with consts := p.consts.set k d } :=
  ⟨by simp, fun y _ => by cases y <;> simp [room]⟩

theorem setField {f : FieldId} {d : Field} : Grows p { p with fields := p.fields.set f d } :=
  ⟨by simp, fun y _ => by cases y <;> simp [room]⟩

theorem setMethod {m : MethodId} {d : Method} : Grows p { p with methods := p.methods.set m d } :=
  ⟨by simp, fun y _ => by cases y <;> simp [room]⟩

theorem setVar {v : VarId} {d : Var} : Grows p { p with vars := p.vars.set v d } :=
  ⟨by simp, fun y _ => by cases y <;> simp [room]⟩

end Grows

theorem pending_le (p : Program) : p.pending ≤ p.consts.size := by
  simpa [pending, Arena.size, Arena.toList] using
    List.countP_le_length (p := fun d : Const => d.status = .unvisited) (l := p.consts.toList)

theorem pending_setConst {k : ConstId} {d : Const} (d' : Const) (hd : p.consts.get? k = some d) :
    { p with consts := p.consts.set k d' }.pending + (if d.status = .unvisited then 1 else 0) =
      p.pending + if d'.status = .unvisited then 1 else 0 := by
  simpa [pending] using Arena.countP_set (P := fun d : Const => d.status = .unvisited) (y := d') hd

end Program

namespace Ranking.Fits

variable {ρ : Ranking} {p q : Program}

theorem congr (h : ρ.Fits p) (he : q.exprs = p.exprs) (hv : q.vars = p.vars)
    (hs : q.stmts = p.stmts) : ρ.Fits q :=
  ⟨he ▸ h.expr, hv ▸ h.var, hs ▸ h.stmt⟩

theorem setExpr {e : ExprId} (h : ρ.Fits p)
    (hc : ∀ c ∈ n.kind.children, ρ.rank (.expr c) < ρ.rank (.expr e))
    (hv : ∀ v, n.kind = .var v → ρ.rank (.var v) ≤ ρ.rank (.expr e)) :
    ρ.Fits { p with exprs := p.exprs.set e n } := by
  refine { h with expr := fun e' n' hn' => ?_ }
  rcases Arena.get?_set_cases hn' with ⟨rfl, rfl⟩ | hn'
  · exact ⟨hc, hv⟩
  · exact h.expr e' n' hn'

theorem addLiteral {line : UInt32} {value : Literal} (h : ρ.Fits p) :
    ρ.Fits (p.addTyped line value).2 := by
  refine { h with expr := fun e' n' hn' => ?_ }
  rcases Arena.get?_push_cases hn' with rfl | hn'
  · simp
  · exact h.expr e' n' hn'

theorem setVar {v : VarId} {d : Var} (h : ρ.Fits p)
    (hd : ∀ c, .expr c ∈ d.parts → ρ.rank (.expr c) < ρ.rank (.var v)) :
    ρ.Fits { p with vars := p.vars.set v d } := by
  refine { h with var := fun v' d' hd' => ?_ }
  rcases Arena.get?_set_cases hd' with ⟨rfl, rfl⟩ | hd'
  · exact hd
  · exact h.var v' d' hd'

theorem setStmt {x : StmtId} {n : StmtNode} (h : ρ.Fits p)
    (hn : ∀ y, .stmt y ∈ n.kind.parts → ρ.rank (.stmt y) < ρ.rank (.stmt x)) :
    ρ.Fits { p with stmts := p.stmts.set x n } := by
  refine { h with stmt := fun x' n' hn' => ?_ }
  rcases Arena.get?_set_cases hn' with ⟨rfl, rfl⟩ | hn'
  · exact hn
  · exact h.stmt x' n' hn'

end Ranking.Fits

namespace Wider

variable {s s' s'' : State}

theorem refl (s : State) : Wider s s := ⟨.refl _, Nat.le_refl _, Nat.le_refl _⟩

theorem trans (h : Wider s s') (h' : Wider s' s'') : Wider s s'' :=
  ⟨h.program.trans h'.program, h.scopes.trans h'.scopes, h'.pending.trans h.pending⟩

/-- Another program with the same constants. -/
theorem of_program {q : Program} (h : s.program.Grows q) (hk : q.consts = s.program.consts) :
    Wider s { s with program := q } :=
  ⟨h, Nat.le_refl _, by simp [Program.pending, hk]⟩

theorem of_table {t : ScopeTable} (h : s.table.scopes.size ≤ t.scopes.size) :
    Wider s { s with table := t } := ⟨.refl _, h, Nat.le_refl _⟩

end Wider

namespace Sound

variable {ρ : Ranking} {s s' : State}

section

variable (h : Sound ρ s)

include h

theorem setProgram {q : Program} (hg : s.program.Grows q) (hr : ρ.Covers q)
    (hf : ρ.Fits q) : Sound ρ { s with program := q } :=
  { h with
    handles := hr
    ranks := hf
    exprs := h.exprs.trans hg.exprs
    stmts := hg.stmts ▸ h.stmts
    bound := fun i c name symbol hc hb => hg.seesAll (h.bound i c name symbol hc hb)
    classScopes := fun c hc => h.classScopes c (hc.imp id hg.hasClass.1)
    enumScopes := fun d hd => h.enumScopes d (hd.imp id hg.hasEnum.1)
    method := fun m hm => hg.sees (h.method m hm) }

/-- Another place. -/
theorem enter {f : FileId} (hi : i.slot < s.table.scopes.size) :
    Sound ρ { s with file := f, table := s.table.enter i } := { h with current := hi }

theorem back (h' : Sound ρ s') (hw : s.table.scopes.size ≤ s'.table.scopes.size) :
    Sound ρ (s'.backTo s) := { h' with current := Nat.lt_of_lt_of_le h.current hw }

/-- A scope in the table is replaced by one with the same parent. -/
theorem setScope {c : Scope} {name : String} {symbol : Symbol}
    (hc : s.table.scopes[i.slot]? = some c) (hs : ρ.SeesAll s.program symbol.refs) :
    Sound ρ { s with
      table := s.table.set i { c with bindings := (name, symbol) :: c.bindings } } := by
  have hsize : (s.table.set i { c with bindings := (name, symbol) :: c.bindings }).scopes.size =
      s.table.scopes.size := by simp [ScopeTable.set]
  refine { h with
    scopes := ?_
    bound := h.bound.set hc (by simp +contextual [hs])
    current := hsize ▸ h.current
    classScopes := fun c hc => (h.classScopes c hc).mono (Nat.le_of_eq hsize.symm)
    enumScopes := fun d hd => (h.enumScopes d hd).mono (Nat.le_of_eq hsize.symm) }
  obtain ⟨height, hh⟩ := h.scopes
  refine ⟨height, fun j c' k hc' hk => ?_⟩
  rw [hsize]
  by_cases hij : i.slot = j
  · subst hij
    rw [ScopeTable.getElem?_set_self hc] at hc'
    obtain rfl := Option.some.inj hc'
    exact hh i.slot c k hc hk
  · rw [ScopeTable.getElem?_set_of_ne hij] at hc'
    exact hh j c' k hc' hk

theorem addScope
    (hp : parent.slot < s.table.scopes.size) :
    Sound ρ { s with table := s.table.add kind parent } := by
  have hsize : (s.table.add kind parent).scopes.size = s.table.scopes.size + 1 := by
    simp [ScopeTable.add]
  refine { h with
    scopes := ?_
    bound := h.bound.add
    current := hsize ▸ Nat.lt_succ_of_lt h.current
    classScopes := fun c hc => (h.classScopes c hc).mono (hsize ▸ Nat.le_succ _)
    enumScopes := fun d hd => (h.enumScopes d hd).mono (hsize ▸ Nat.le_succ _) }
  obtain ⟨height, hh⟩ := h.scopes
  refine ⟨fun j => if j = s.table.scopes.size then height parent.slot + 1 else height j,
    fun j c' k hc' hk => ?_⟩
  rw [hsize]
  simp only [ScopeTable.add, Array.getElem?_push] at hc'
  split at hc'
  · subst j
    obtain rfl := Option.some.inj hc'
    obtain rfl := Option.some.inj hk
    exact ⟨by omega, by simp [Nat.ne_of_lt hp]⟩
  · obtain ⟨hk', hlt⟩ := hh j c' k hc' hk
    have hj : j < s.table.scopes.size := (Array.getElem?_eq_some_iff.1 hc').1
    exact ⟨by omega, by simpa [Nat.ne_of_lt hk', Nat.ne_of_lt hj] using hlt⟩

/-- A search comes to an end, and what it finds is there. -/
theorem search {admits : ScopeKind → Bool} {name : String} (hi : i.slot < s.table.scopes.size) :
    ∃ found, s.table.search admits name s.table.scopes.size (some i) = .ok found ∧
      ∀ x, found = some x → ρ.SeesAll s.program x.refs := by
  obtain ⟨found, hfound⟩ := h.scopes.search hi
  refine ⟨found, hfound, ?_⟩
  rintro x rfl
  obtain ⟨j, c, hc, hb⟩ := ScopeTable.bound_of_search hfound
  exact h.bound j c name x hc hb

end

end Sound

end Ci
