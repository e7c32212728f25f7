-- Passes that keep to handles that lead somewhere. No step stops because of a handle,
-- unless no handle is left, a class derives from itself or handles may lead nowhere.
import Ci.Proofs.Safety.Sound

namespace Ci

open Pass Arena

variable {α β ι : Type} {ρ : Ranking} {s s' : State} {x : Pass α} {f : α → Pass β}
  {P Q : α → State → Prop} {R : β → State → Prop} {line : UInt32} {symbol : Symbol}
  {kind : ScopeKind} {A : α → Prop} {q : Program → Query α} {g : ι → Pass Unit} {xs : List ι}

/-- The pass starts and ends where all handles lead somewhere. If it stops early, they still do,
and they are the reason only if nothing else is possible. -/
structure Safe (ρ : Ranking) (x : Pass α) (s : State) (Q : α → State → Prop) : Prop where
  holds : Sound ρ s → match x s with
    | .ok a s' => Sound ρ s' ∧ Wider s s' ∧ Q a s'
    | .error b s' => ρ.Covers s'.program ∧ ∀ w, b = .broken w → ρ.Excuses s'.program w

namespace Safe

/-! ## Putting steps together -/

theorem of_ok {a : α} (h : Safe ρ x s Q) (hs : Sound ρ s) (hx : x s = .ok a s') :
    Sound ρ s' ∧ Wider s s' ∧ Q a s' := by
  have := h.holds hs
  rwa [hx] at this

theorem of_error {b : Abort} (h : Safe ρ x s Q) (hs : Sound ρ s) (hx : x s = .error b s') :
    ρ.Covers s'.program ∧ ∀ w, b = .broken w → ρ.Excuses s'.program w := by
  have := h.holds hs
  rwa [hx] at this

theorem intro (hok : ∀ a s', Sound ρ s → x s = .ok a s' → Sound ρ s' ∧ Wider s s' ∧ Q a s')
    (herror : ∀ b s', Sound ρ s → x s = .error b s' →
      ρ.Covers s'.program ∧ ∀ w, b = .broken w → ρ.Excuses s'.program w) : Safe ρ x s Q := by
  refine ⟨fun hs => ?_⟩
  split
  · exact hok _ _ hs (by assumption)
  · exact herror _ _ hs (by assumption)

theorem of_sound (h : Sound ρ s → Safe ρ x s Q) : Safe ρ x s Q := ⟨fun hs => (h hs).holds hs⟩

theorem mono (h : Safe ρ x s P) (hq : ∀ a s', Sound ρ s' → Wider s s' → P a s' → Q a s') :
    Safe ρ x s Q := by
  refine intro (fun a s' hs hx => ?_) fun b s' hs hx => h.of_error hs hx
  obtain ⟨hs', hw, hp⟩ := h.of_ok hs hx
  exact ⟨hs', hw, hq a s' hs' hw hp⟩

theorem bind (h : Safe ρ x s P) (hf : ∀ a s', Wider s s' → P a s' → Safe ρ (f a) s' R) :
    Safe ρ (x >>= f) s R := by
  refine intro (fun b s'' hs run => ?_) fun b s'' hs run => ?_
  · obtain ⟨a, s', hx, hy⟩ := bind_eq_ok.1 run
    obtain ⟨hs', hw, hp⟩ := h.of_ok hs hx
    obtain ⟨hs'', hw', hr⟩ := (hf a s' hw hp).of_ok hs' hy
    exact ⟨hs'', hw.trans hw', hr⟩
  · cases hx : x s with
    | ok a s' =>
      obtain ⟨hs', hw, hp⟩ := h.of_ok hs hx
      rw [bind_ok hx] at run
      exact (hf a s' hw hp).of_error hs' run
    | error b' s' =>
      have hbind : (x >>= f) s = .error b' s' := by simp [Bind.bind, EStateM.bind, hx]
      rw [hbind] at run
      cases run
      exact h.of_error hs hx

theorem pure {a : α} (h : Sound ρ s → Q a s) : Safe ρ (Pure.pure a) s Q :=
  ⟨fun hs => ⟨hs, .refl s, h hs⟩⟩

theorem get_bind {g : State → Pass β} (h : Safe ρ (g s) s R) : Safe ρ (get >>= g) s R := ⟨h.holds⟩

/-- A step that leaves the state as it is. -/
theorem silent_bind {es : List ExprId} (hx : Silent es x) (h : Safe ρ x s P) (hf : ∀ a,
    P a s → Safe ρ (f a) s R) :
    Safe ρ (x >>= f) s R := by
  have h' : Safe ρ x s fun a s' => s' = s ∧ P a s := by
    refine intro (fun a s' hs hrun => ?_) fun b s' hs hrun => h.of_error hs hrun
    obtain ⟨hs', hw, hp⟩ := h.of_ok hs hrun
    obtain rfl := hx.of_ok hrun
    exact ⟨hs', hw, rfl, hp⟩
  refine h'.bind ?_
  rintro a _ - ⟨rfl, hp⟩
  exact hf a hp

/-! ## Questions -/

theorem answer {q : Query α} (h : Sound ρ s → Answers ρ s.program q A) :
    Safe ρ (Pass.answer q) s fun a s' => s' = s ∧ A a := by
  refine intro (fun a s' hs hx => ?_) fun b s' hs hx => ?_
  · obtain ⟨hq, rfl⟩ := answer_eq_ok.1 hx
    exact ⟨hs, .refl _, rfl, (h hs).ok a hq⟩
  · unfold Pass.answer at hx
    cases q with
    | ok => cases hx
    | error w =>
      cases hx
      refine ⟨hs.handles, fun w' hw' => ?_⟩
      cases hw'
      exact (h hs).error w rfl

theorem answer_bind {q : Query α} (h : Sound ρ s → Answers ρ s.program q A)
    (hf : ∀ a, A a → Safe ρ (f a) s R) : Safe ρ (Pass.answer q >>= f) s R := by
  refine (answer h).bind ?_
  rintro a _ - ⟨rfl, ha⟩
  exact hf a ha

theorem ask_bind
    (h : Sound ρ s → Answers ρ s.program (q s.program) A) (hf : ∀ a, A a → Safe ρ (f a) s R) :
    Safe ρ (Pass.ask q >>= f) s R := ⟨(answer_bind h hf).holds⟩

theorem ask (h : Sound ρ s → Answers ρ s.program (q s.program) A) :
    Safe ρ (Pass.ask q) s fun a s' => s' = s ∧ A a := ⟨(answer h).holds⟩

theorem askTable {q : ScopeTable → Query α} (h : Sound ρ s → ∃ a, q s.table = .ok a ∧ A a) :
    Safe ρ (Pass.askTable q) s fun a s' => s' = s ∧ A a := by
  refine ⟨(answer (q := q s.table) fun hs => ?_).holds⟩
  obtain ⟨a, ha, hA⟩ := h hs
  exact .of_ok ha hA

theorem askTable_bind {q : ScopeTable → Query α}
    (h : Sound ρ s → ∃ a, q s.table = .ok a ∧ A a) (hf : ∀ a, A a → Safe ρ (f a) s R) :
    Safe ρ (Pass.askTable q >>= f) s R := by
  refine (askTable h).bind ?_
  rintro a _ - ⟨rfl, ha⟩
  exact hf a ha

variable {e l r : ExprId} {t u : Ty}

theorem node_bind {f : ExprNode → Pass β} (he : ρ.Sees s.program (.expr e))
    (hf : ∀ n, s.program.exprs.get? e = some n → Safe ρ (f n) s R) : Safe ρ (node e >>= f) s R :=
  ask_bind (fun _ => .fetch he) hf

theorem valueTy_bind {f : Ty → Pass β} (he : ρ.Sees s.program (.expr e))
    (hf : ∀ t, ρ.SeesAll s.program t.refs → Safe ρ (f t) s R) : Safe ρ (valueTy e >>= f) s R :=
  ask_bind (fun hs => Program.answers_valueTy hs.handles he) hf

theorem literal_bind {f : Option Literal → Pass β} (he : ρ.Sees s.program (.expr e))
    (hf : ∀ v, Safe ρ (f v) s R) : Safe ρ (literal? e >>= f) s R :=
  ask_bind (fun _ => Program.answers_literal? he) fun v _ => hf v

theorem answers_scope {k : Kind} {a : Arena k ScopeId} {i : Handle k} {p : Program} {t : ScopeTable}
    (h : ρ.Records t (a.get? i)) :
    Answers ρ p (a.fetch i) fun j => a.get? i = some j ∧ j.slot < t.scopes.size := by
  cases hj : a.get? i with
  | none =>
    rw [hj] at h
    rw [fetch, hj]
    exact .of_error (.inr ⟨h, rfl⟩)
  | some =>
    rw [hj] at h
    exact .of_ok (fetch_ok.2 hj) ⟨rfl, h⟩

theorem classScope_bind {c : ClassId} {f : ScopeId → Pass β} (hc : ρ.Sees s.program (.classDecl c))
    (hf : ∀ i, s.classScopes.get? c = some i → i.slot < s.table.scopes.size → Safe ρ (f i) s R) :
    Safe ρ (classScope c >>= f) s R := by
  refine ⟨(answer_bind (q := s.classScopes.fetch c) (fun hs => answers_scope (hs.classScopes c hc))
    fun i hi => hf i hi.1 hi.2).holds⟩

theorem enumScope_bind {d : EnumId} {f : ScopeId → Pass β} (hd : ρ.Sees s.program (.enumDecl d))
    (hf : ∀ i, i.slot < s.table.scopes.size → Safe ρ (f i) s R) :
    Safe ρ (enumScope d >>= f) s R :=
  ⟨(answer_bind (q := s.enumScopes.fetch d) (fun hs => answers_scope (hs.enumScopes d hd))
    fun i hi => hf i hi.2).holds⟩

/-! ## Faults -/

theorem fail {fault : Fault} : Safe ρ (Pass.fail line fault) s Q :=
  ⟨fun hs => ⟨hs.handles, fun _ hw => by cases hw⟩⟩

theorem failAt {fault : Fault} (he : ρ.Sees s.program (.expr e)) :
    Safe ρ (Pass.failAt e fault) s Q :=
  node_bind he fun _ _ => fail

section

variable (he : ρ.Sees s.program (.expr e)) (ht : ρ.SeesAll s.program t.refs)

include he ht

theorem mismatchAt {expected : String} : Safe ρ (Pass.mismatchAt e expected t) s Q :=
  ask_bind (fun _ => Program.answers_describe ht) fun _ _ => failAt he

theorem mismatchTy (hu : ρ.SeesAll s.program u.refs) : Safe ρ (Pass.mismatchTy e t u) s Q :=
  ask_bind (fun _ => Program.answers_describe ht) fun _ _ => mismatchAt he hu

theorem coerce : Safe ρ (Pass.coerce e t) s fun _ _ => True := by
  refine valueTy_bind he fun got hgot => ask_bind
    (fun hs => Program.answers_assignable hs.handles hgot ht) fun b _ => ?_
  split
  · exact pure fun _ => trivial
  · exact mismatchTy he ht hgot

end

/-! ## Changes -/

/-- What a change may make of a program. -/
structure Changed (ρ : Ranking) (p q : Program) : Prop where
  grows : p.Grows q
  pending : q.pending ≤ p.pending
  handles : ρ.Covers q
  ranks : ρ.Fits q

theorem change {g : Program → Query Program}
    (h : Sound ρ s → Answers ρ s.program (g s.program) (Changed ρ s.program)) :
    Safe ρ (Pass.change g) s fun _ s' => ∃ q,
    g s.program = .ok q ∧ s' = { s with program := q } := by
  refine intro (fun a s' hs hx => ?_) fun b s' hs hx => ?_
  · obtain ⟨q, hq, rfl⟩ := change_eq_ok.1 hx
    have hc := (h hs).ok q hq
    exact ⟨hs.setProgram hc.grows hc.handles hc.ranks, ⟨hc.grows, Nat.le_refl _, hc.pending⟩,
      q, hq, rfl⟩
  · unfold Pass.change at hx
    cases hg : g s.program with
    | ok =>
      rw [hg] at hx
      cases hx
    | error w =>
      rw [hg] at hx
      cases hx
      refine ⟨hs.handles, fun w' hw' => ?_⟩
      cases hw'
      exact (h hs).error w hg

/-- One part changes, if it is there. -/
theorem changePart {k : Kind} {τ : Type} {i : Handle k} {g : τ → τ} {a : Program → Arena k τ}
    {m : Program → Arena k τ → Program} (hi : ρ.loose ∨ i.slot < (a s.program).size)
    (h : ∀ x, Sound ρ s → (a s.program).get? i = some x →
      Changed ρ s.program (m s.program ((a s.program).set i (g x)))) :
    Safe ρ (Pass.change fun p => do return m p (← (a p).update i g)) s fun _ s' =>
      ∃ x, (a s.program).get? i = some x ∧
        s' = { s with program := m s.program ((a s.program).set i (g x)) } := by
  refine (change fun hs => (Answers.update hi).bind ?_).mono ?_
  · rintro _ ⟨x, hx, rfl⟩
    exact .pure (h x hs hx)
  · rintro _ _ - - ⟨q, hq, rfl⟩
    obtain ⟨x, hx, rfl⟩ := update_then.1 hq
    exact ⟨x, hx, rfl⟩

section

variable (he : ρ.Sees s.program (.expr e))

include he

theorem replace {kind : Expr} (hk : ρ.SeesAll s.program kind.refs)
    (hc : ∀ c ∈ kind.children, ρ.rank (.expr c) < ρ.rank (.expr e))
    (hv : ∀ v, kind ≠ .var v) : Safe ρ (Pass.replace e kind) s fun _ _ => True := by
  refine (changePart (m := fun p a => { p with exprs := a }) he fun n hs hn =>
    ⟨.setExpr, Nat.le_refl _, ?_, ?_⟩).mono fun _ _ _ _ _ => trivial
  · refine (hs.handles.mono fun _ => Program.Grows.setExpr.sees).setExpr fun w hw => ?_
    refine Program.Grows.setExpr.sees ?_
    rcases List.mem_append.1 hw with hw | hw
    · exact hk w hw
    · exact hs.handles.exprs n (mem_toList_of_get? hn) w (List.mem_append_right _ hw)
  · exact hs.ranks.setExpr hc fun v h => absurd h (hv v)

theorem record (ht : ρ.SeesAll s.program t.refs) : Safe ρ (Pass.record e t) s fun _ _ => True := by
  refine (changePart (m := fun p a => { p with exprs := a }) he fun n hs hn =>
    ⟨.setExpr, Nat.le_refl _, ?_, ?_⟩).mono fun _ _ _ _ _ => trivial
  · refine (hs.handles.mono fun _ => Program.Grows.setExpr.sees).setExpr fun w hw => ?_
    refine Program.Grows.setExpr.sees ?_
    rcases List.mem_append.1 hw with hw | hw
    · exact hs.handles.kind hn hw
    · exact ht w hw
  · exact hs.ranks.setExpr (hs.ranks.expr e n hn).1 (hs.ranks.expr e n hn).2

theorem typed (ht : ρ.SeesAll s.program t.refs) : Safe ρ (Pass.typed e t) s fun e' _ => e' = e :=
  (record he ht).bind fun _ _ _ _ => pure fun _ => rfl

/-- A literal that is added has nothing inside. -/
theorem fold {value : Literal} : Safe ρ (Pass.fold e value) s fun e' s' =>
      ρ.Sees s'.program (.expr e') ∧ ρ.rank (.expr e') = 0 := by
  refine node_bind he fun n hn => intro (fun e' s' hs run => ?_) fun b s' hs run => ?_
  · unfold addLiteral at run
    split at run
    · rename_i hlt
      cases run
      have hg : s.program.Grows (s.program.addTyped n.line value).2 := .addExpr
      have hr : ρ.Covers (s.program.addTyped n.line value).2 := by
        refine (hs.handles.mono fun _ => hg.sees).addExpr fun w hw => ?_
        cases value <;> simp [ExprNode.refs, Expr.refs, Expr.parts, Expr.children,
          Ty.recordedRefs, Literal.ty, Ty.refs, Ty.double] at hw
      refine ⟨hs.setProgram hg hr hs.ranks.addLiteral, .of_program hg rfl, ?_, ?_⟩
      · refine .inr ?_
        show s.program.exprs.next.slot < (s.program.exprs.push _).size
        rw [slot_next hlt, size_push]
        exact Nat.lt_succ_self _
      · refine ρ.added _ ?_
        show ρ.exprs ≤ s.program.exprs.next.slot
        rw [slot_next hlt]
        exact hs.exprs
    · cases run
  · unfold addLiteral at run
    split at run
    · cases run
    · cases run
      refine ⟨hs.handles, fun w hw => ?_⟩
      cases hw
      exact .inl (Nat.not_lt.1 (by assumption))

end

theorem updateVar {v : VarId} {g : Var → Var} (hv : ρ.Sees s.program (.var v))
    (hr : ∀ d, Sound ρ s → s.program.vars.get? v = some d → ρ.SeesAll s.program (g d).refs)
    (hc : ∀ d, Sound ρ s → s.program.vars.get? v = some d →
      ∀ c, .expr c ∈ (g d).parts → ρ.rank (.expr c) < ρ.rank (.var v)) :
    Safe ρ (Pass.change (·.updateVar v g)) s fun _ _ => True :=
  (changePart (m := fun p a => { p with vars := a }) hv fun d hs hd =>
    ⟨.setVar, Nat.le_refl _, (hs.handles.mono fun _ => Program.Grows.setVar.sees).setVar
      (Program.Grows.setVar.seesAll (hr d hs hd)), hs.ranks.setVar (hc d hs hd)⟩).mono
    fun _ _ _ _ _ => trivial

theorem updateStmt {y : StmtId} {g : StmtNode → StmtNode} (hy : ρ.Sees s.program (.stmt y))
    (hr : ∀ n, ρ.SeesAll s.program (g n).refs)
    (hc : ∀ n z, .stmt z ∈ (g n).kind.parts → ρ.rank (.stmt z) < ρ.rank (.stmt y)) :
    Safe ρ (Pass.change (·.updateStmt y g)) s fun _ _ => True :=
  (changePart (m := fun p a => { p with stmts := a }) hy fun n hs _ =>
    ⟨.setStmt, Nat.le_refl _, (hs.handles.mono fun _ => Program.Grows.setStmt.sees).setStmt
      (Program.Grows.setStmt.seesAll (hr n)), hs.ranks.setStmt (hc n)⟩).mono
    fun _ _ _ _ _ => trivial

theorem updateField {m : FieldId} {g : Field → Field} (hm : ρ.Sees s.program (.field m))
    (hr : ∀ d, Sound ρ s → s.program.fields.get? m = some d → ρ.SeesAll s.program (g d).refs) :
    Safe ρ (Pass.change (·.updateField m g)) s fun _ _ => True :=
  (changePart (m := fun p a => { p with fields := a }) hm fun d hs hd =>
    ⟨.setField, Nat.le_refl _, (hs.handles.mono fun _ => Program.Grows.setField.sees).setField
      (Program.Grows.setField.seesAll (hr d hs hd)), hs.ranks.congr rfl rfl rfl⟩).mono
    fun _ _ _ _ _ => trivial

theorem updateMethod {m : MethodId} {g : Method → Method} (hm : ρ.Sees s.program (.method m))
    (hr : ∀ d, Sound ρ s → s.program.methods.get? m = some d → ρ.SeesAll s.program (g d).refs) :
    Safe ρ (Pass.change (·.updateMethod m g)) s fun _ _ => True :=
  (changePart (m := fun p a => { p with methods := a }) hm fun d hs hd =>
    ⟨.setMethod, Nat.le_refl _, (hs.handles.mono fun _ => Program.Grows.setMethod.sees).setMethod
      (Program.Grows.setMethod.seesAll (hr d hs hd)), hs.ranks.congr rfl rfl rfl⟩).mono
    fun _ _ _ _ _ => trivial

/-- A constant changes, and it is not the case that it is to be visited again. -/
theorem updateConst {k : ConstId} {g : Const → Const} (hk : ρ.Sees s.program (.const k))
    (hr : ∀ d, Sound ρ s → s.program.consts.get? k = some d → ρ.SeesAll s.program (g d).refs)
    (hv : ∀ d, (g d).status = .unvisited → d.status = .unvisited) :
    Safe ρ (Pass.change (·.updateConst k g)) s fun _ s' => ∃ d, s.program.consts.get? k = some d ∧
      s'.program.pending + (if d.status = .unvisited then 1 else 0) =
        s.program.pending + (if (g d).status = .unvisited then 1 else 0) := by
  refine (changePart (m := fun p a => { p with consts := a }) hk fun d hs hd =>
    ⟨.setConst, ?_, (hs.handles.mono fun _ => Program.Grows.setConst.sees).setConst
      (Program.Grows.setConst.seesAll (hr d hs hd)), hs.ranks.congr rfl rfl rfl⟩).mono ?_
  · have hpending := Program.pending_setConst (g d) hd
    by_cases hg : (g d).status = .unvisited
    · simp only [hg, hv d hg, if_true] at hpending
      omega
    · simp only [hg, if_false] at hpending
      omega
  · rintro _ _ - - ⟨d, hd, rfl⟩
    exact ⟨d, hd, Program.pending_setConst (g d) hd⟩

/-! ## Names and places -/

theorem defineIn {i : ScopeId} {name : String}
    (hi : i.slot < s.table.scopes.size) (hs : ρ.SeesAll s.program symbol.refs) :
    Safe ρ (Pass.defineIn i line name symbol) s fun _ s' => ∃ c, s.table.scopes[i.slot]? = some c ∧
      s' = { s with
        table := s.table.set i { c with bindings := (name, symbol) :: c.bindings } } := by
  have hc : s.table.scopes[i.slot]? = some s.table.scopes[i.slot] := Array.getElem?_eq_getElem hi
  refine askTable_bind (A := fun found => ∀ t, found = some t →
    t = s.table.set i { s.table.scopes[i.slot] with
      bindings := (name, symbol) :: s.table.scopes[i.slot].bindings }) (fun _ => ?_)
        fun found hf => ?_
  · simp only [ScopeTable.define?, ScopeTable.fetch, hc, Bind.bind, Except.bind]
    cases s.table.scopes[i.slot].find? name with
    | some _ => exact ⟨none, rfl, by simp⟩
    | none => exact ⟨_, rfl, fun t ht => (Option.some.inj ht).symm⟩
  · split
    · rename_i t
      obtain rfl := hf t rfl
      exact ⟨fun h => ⟨h.setScope hc hs, .of_table (by simp [ScopeTable.set]), _, hc, rfl⟩⟩
    · exact fail

theorem define {name : String}
    (h : ρ.SeesAll s.program symbol.refs) :
    Safe ρ (Pass.define line name symbol) s fun _ _ => True :=
  get_bind (of_sound fun hs => (defineIn hs.current h).mono fun _ _ _ _ _ => trivial)

theorem addScope {parent : ScopeId} (hp : parent.slot < s.table.scopes.size) :
    Safe ρ (Pass.addScope kind parent) s fun i s' => i.slot < s'.table.scopes.size :=
  ⟨fun hs => ⟨hs.addScope hp, .of_table (by simp [ScopeTable.add]), by
    simp [ScopeTable.next, ScopeTable.add]⟩⟩

/-- A part that runs in another place. -/
theorem within {file : FileId} {scope : ScopeId} (hi : scope.slot < s.table.scopes.size)
    (h : Safe ρ x { s with file := file, table := s.table.enter scope } fun a s' =>
      Q a (s'.backTo s)) :
    Safe ρ (Pass.within file scope x) s Q := by
  refine intro (fun a s' hs run => ?_) fun b s' hs run => ?_
  · obtain ⟨t, hx, rfl⟩ := within_eq_ok.1 run
    obtain ⟨ht, hw, hq⟩ := h.of_ok (hs.enter hi) hx
    exact ⟨hs.back ht hw.scopes, ⟨hw.program, hw.scopes, hw.pending⟩, hq⟩
  · unfold Pass.within at run
    split at run
    · cases run
    · rename_i hx
      cases run
      have hstop := h.of_error (hs.enter hi) hx
      exact hstop

theorem inScope (h : ∀ s', Wider s s' → Safe ρ x s' fun a s'' => ∀ t, Q a (s''.backTo t)) :
    Safe ρ (Pass.inScope kind x) s Q := by
  refine get_bind (of_sound fun hs => (addScope hs.current).bind fun i s1 hw hi => within hi ?_)
  refine (h _ ?_).mono fun a s' _ _ hq => hq s1
  exact ⟨hw.program, hw.scopes, hw.pending⟩

theorem inside {b : Breakable} (h : Safe ρ x { s with breakables := b :: s.breakables }
      fun a s' => Q a { s' with breakables := s'.breakables.tail }) :
    Safe ρ (Pass.inside b x) s Q := by
  refine intro (fun a s' hs run => ?_) fun b s' hs run => ?_
  · obtain ⟨t, hx, rfl⟩ := inside_eq_ok.1 run
    obtain ⟨ht, hw, hq⟩ := h.of_ok { hs with } hx
    exact ⟨{ ht with }, ⟨hw.program, hw.scopes, hw.pending⟩, hq⟩
  · unfold Pass.inside at run
    split at run
    · cases run
    · rename_i hx
      cases run
      have hstop := h.of_error { hs with } hx
      exact hstop

theorem inMethod {m : MethodId} (hm : ρ.Sees s.program (.method m))
    (h : Safe ρ x { s with method := some m } fun a s' => Q a { s' with method := none }) :
    Safe ρ (Pass.inMethod m x) s Q := by
  have hin : Sound ρ s → Sound ρ { s with method := some m } := fun hs =>
    { hs with method := fun m' hm' => by cases hm'; exact hm }
  refine intro (fun a s' hs run => ?_) fun b s' hs run => ?_
  · obtain ⟨t, hx, rfl⟩ := inMethod_eq_ok.1 run
    obtain ⟨ht, hw, hq⟩ := h.of_ok (hin hs) hx
    exact ⟨{ ht with method := fun m hm => by cases hm },
      ⟨hw.program, hw.scopes, hw.pending⟩, hq⟩
  · unfold Pass.inMethod at run
    split at run
    · cases run
    · rename_i hx
      cases run
      have hstop := h.of_error (hin hs) hx
      exact hstop

/-! ## Lists -/

theorem forM_inv {I : State → Prop}
    (h : ∀ i ∈ xs, ∀ s', Wider s s' → I s' → Safe ρ (g i) s' fun _ s'' => I s'') (hi : I s) :
    Safe ρ (xs.forM g) s fun _ s' => I s' := by
  induction xs generalizing s with
  | nil => exact pure fun _ => hi
  | cons i xs ih =>
    change Safe ρ (g i >>= fun _ => xs.forM g) s _
    refine (h i List.mem_cons_self s (.refl s) hi).bind fun _ s1 hw hi1 =>
      ih (fun j hj s' hw' => ?_) hi1
    exact h j (List.mem_cons_of_mem i hj) s' (hw.trans hw')

theorem forM (h : ∀ i ∈ xs, ∀ s', Wider s s' → Safe ρ (g i) s' fun _ _ => True) :
    Safe ρ (xs.forM g) s fun _ _ => True :=
  forM_inv (I := fun _ => True) (fun i hi s' hw _ => h i hi s' hw) trivial

theorem mapM {g : ι → Pass α} {A : α → State → Prop}
    (h : ∀ i ∈ xs, ∀ s', Wider s s' → Safe ρ (g i) s' A)
    (hA : ∀ a s' s'', Wider s' s'' → A a s' → A a s'') :
    Safe ρ (xs.mapM g) s fun as s' => ∀ a ∈ as, A a s' := by
  induction xs generalizing s with
  | nil => exact pure (by simp)
  | cons i _ ih =>
    rw [List.mapM_cons]
    refine (h i List.mem_cons_self s (.refl s)).bind fun a s1 hw ha => ?_
    refine (ih fun j hj s' hw' => h j (List.mem_cons_of_mem i hj) s' (hw.trans hw')).bind
      fun as s2 hw' has => pure fun _ b hb => ?_
    rcases List.mem_cons.1 hb with rfl | hb
    · exact hA b s1 s2 hw' ha
    · exact has b hb

end Safe

end Ci
