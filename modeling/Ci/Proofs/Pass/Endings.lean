-- What a pass has done if it ends. Each step has an equation that says when it ends
-- and where, so that a rule that has ended is taken apart into its steps.
import Ci.Proofs.Pass.Keeps
import Ci.Proofs.Frame.Moves

namespace Ci.Pass

variable {α β ι : Type} {s s' t : State} {x : Pass α} {f : α → Pass β} {a : α} {b : β}
  {e : ExprId} {n : ExprNode} {line : UInt32} {fault : Fault} {i : ScopeId} {ty : Ty}
  {name : String} {symbol : Option Symbol} {u : Unit} {e' : ExprId} {kind : ScopeKind}
  {g : ι → Pass Unit} {xs : List ι}

/-! ## Steps -/

@[simp] theorem bind_eq_ok :
    (x >>= f) s = .ok b s' ↔ ∃ a s1, x s = .ok a s1 ∧ f a s1 = .ok b s' := by
  show EStateM.bind x f s = .ok b s' ↔ _
  unfold EStateM.bind
  cases x s <;> simp

theorem bind_ok (h : x s = .ok a t) : (x >>= f) s = f a t := by
  show EStateM.bind x f s = f a t
  simp [EStateM.bind, h]

@[simp] theorem pure_eq_ok {a' : α} : (pure a : Pass α) s = .ok a' s' ↔ a' = a ∧ s' = s := by
  show EStateM.Result.ok a s = .ok a' s' ↔ _
  simp [eq_comm]

@[simp] theorem get_eq_ok : (get : Pass State) s = .ok t s' ↔ t = s ∧ s' = s := by
  show EStateM.Result.ok s s = .ok t s' ↔ _
  simp [eq_comm]

@[simp] theorem modify_eq_ok {g : State → State} {u : PUnit} :
    (modify g : Pass PUnit) s = .ok u s' ↔ s' = g s := by
  show EStateM.Result.ok PUnit.unit (g s) = .ok u s' ↔ _
  simp [eq_comm]

/-! ## Questions -/

@[simp] theorem answer_eq_ok {q : Query α} : answer q s = .ok a s' ↔ q = .ok a ∧ s' = s := by
  unfold answer
  cases q <;> simp [eq_comm]

@[simp] theorem ask_eq_ok {q : Program → Query α} :
    ask q s = .ok a s' ↔ q s.program = .ok a ∧ s' = s := answer_eq_ok

@[simp] theorem askTable_eq_ok {q : ScopeTable → Query α} :
    askTable q s = .ok a s' ↔ q s.table = .ok a ∧ s' = s := answer_eq_ok

@[simp] theorem classScope_eq_ok {c : ClassId} :
    classScope c s = .ok i s' ↔ s.classScopes.get? c = some i ∧ s' = s := by
  simp [classScope]

@[simp] theorem enumScope_eq_ok {d : EnumId} :
    enumScope d s = .ok i s' ↔ s.enumScopes.get? d = some i ∧ s' = s := by
  simp [enumScope]

@[simp] theorem node_eq_ok : node e s = .ok n s' ↔ s.program.exprs.get? e = some n ∧ s' = s := by
  simp [node]

@[simp] theorem valueTy_eq_ok :
    valueTy e s = .ok ty s' ↔ s.program.valueTy e = .ok ty ∧ s' = s := ask_eq_ok

@[simp] theorem literal?_eq_ok {v : Option Literal} :
    literal? e s = .ok v s' ↔ s.program.literal? e = .ok v ∧ s' = s := ask_eq_ok

@[simp] theorem lookup_eq_ok : lookup name s = .ok symbol s' ↔
      s.table.lookup s.table.current name = .ok symbol ∧ s' = s := askTable_eq_ok

@[simp] theorem lookupGlobal_eq_ok : lookupGlobal name s = .ok symbol s' ↔
      s.table.lookup .program name = .ok symbol ∧ s' = s := askTable_eq_ok

/-! ## Faults -/

@[simp] theorem fail_ne_ok : (fail line fault : Pass α) s ≠ .ok a s' := by
  unfold fail
  simp

@[simp] theorem failAt_ne_ok : (failAt e fault : Pass α) s ≠ .ok a s' := by
  simp [failAt]

@[simp] theorem mismatchAt_ne_ok {expected : String} {got : Ty} :
    (mismatchAt e expected got : Pass α) s ≠ .ok a s' := by
  simp [mismatchAt]

@[simp] theorem mismatchTy_ne_ok {expected got : Ty} :
    (mismatchTy e expected got : Pass α) s ≠ .ok a s' := by
  simp [mismatchTy]

/-- A value of a type stands where another type is expected. -/
def Coerces (p : Program) (e : ExprId) (expected : Ty) : Prop :=
  ∃ got, p.valueTy e = .ok got ∧ p.assignable got expected = .ok true

@[simp] theorem coerce_eq_ok {expected : Ty} :
    coerce e expected s = .ok u s' ↔ Coerces s.program e expected ∧ s' = s := by
  simp only [coerce, bind_eq_ok, valueTy_eq_ok, ask_eq_ok, Coerces]
  constructor
  · rintro ⟨got, _, ⟨hg, rfl⟩, b, _, ⟨hb, rfl⟩, h⟩
    cases b with
    | true =>
      simp only [if_true, pure_eq_ok] at h
      exact ⟨⟨got, hg, hb⟩, h.2⟩
    | false => simp at h
  · rintro ⟨⟨got, hg, hb⟩, rfl⟩
    exact ⟨got, _, ⟨hg, rfl⟩, true, _, ⟨hb, rfl⟩, rfl⟩

/-! ## Changes -/

theorem change_eq_ok {g : Program → Query Program} :
    change g s = .ok u s' ↔ ∃ q, g s.program = .ok q ∧ s' = { s with program := q } := by
  unfold change
  cases g s.program <;> simp [eq_comm]

/-- A change that is known by what it makes of one part. -/
theorem change_eq_ok_of {δ : Type} {g : Program → Query Program} {P : δ → Prop} {q : δ → Program}
    (h : ∀ r, g s.program = .ok r ↔ ∃ d, P d ∧ r = q d) :
    change g s = .ok u s' ↔ ∃ d, P d ∧ s' = { s with program := q d } := by
  rw [change_eq_ok]
  constructor
  · rintro ⟨_, hr, rfl⟩
    obtain ⟨d, hd, rfl⟩ := (h _).1 hr
    exact ⟨d, hd, rfl⟩
  · rintro ⟨d, hd, rfl⟩
    exact ⟨_, (h _).2 ⟨d, hd, rfl⟩, rfl⟩

/-- The state with another expression in a slot. -/
def State.put (s : State) (e : ExprId) (n : ExprNode) : State :=
  { s with program := { s.program with exprs := s.program.exprs.set e n } }

theorem get?_put_self {m : ExprNode} (hn : s.program.exprs.get? e = some n) :
    (s.put e m).program.exprs.get? e = some m := Arena.get?_set_self hn

theorem get?_put_of_ne {n' : ExprNode} (hne : e ≠ e') :
    (s.put e n').program.exprs.get? e' = s.program.exprs.get? e' := Arena.get?_set_of_ne hne

@[simp] theorem put_put {n' : ExprNode} : (s.put e n).put e n' = s.put e n' := by
  simp [State.put, Arena.set]

theorem put_get? (hn : s.program.exprs.get? e = some n) : s.put e n = s := by
  simp [State.put, Arena.set_get? hn]

@[simp] theorem replace_eq_ok {kind : Expr} :
    replace e kind s = .ok u s' ↔
      ∃ n, s.program.exprs.get? e = some n ∧ s' = s.put e { n with kind } :=
  change_eq_ok_of fun _ => Program.updateExpr_ok

@[simp] theorem record_eq_ok :
    record e ty s = .ok u s' ↔
      ∃ n, s.program.exprs.get? e = some n ∧ s' = s.put e { n with ty := some ty } :=
  change_eq_ok_of fun _ => Program.updateExpr_ok

@[simp] theorem typed_eq_ok :
    typed e ty s = .ok e' s' ↔ e' = e ∧
      ∃ n, s.program.exprs.get? e = some n ∧ s' = s.put e { n with ty := some ty } := by
  simp only [typed, bind_eq_ok, record_eq_ok, pure_eq_ok]
  constructor
  · rintro ⟨_, _, ⟨n, hn, rfl⟩, rfl, rfl⟩
    exact ⟨rfl, n, hn, rfl⟩
  · rintro ⟨rfl, n, hn, rfl⟩
    exact ⟨(), _, ⟨n, hn, rfl⟩, rfl, rfl⟩

/-- The state with a literal that has its type in a slot of its own. -/
def State.grow (s : State) (line : UInt32) (value : Literal) : State :=
  { s with program := (s.program.addTyped line value).2 }

@[simp] theorem fold_eq_ok {value : Literal} :
    fold e value s = .ok e' s' ↔ s.program.exprs.size < UInt32.size ∧ e' = s.program.exprs.next ∧
        ∃ n, s.program.exprs.get? e = some n ∧ s' = s.grow n.line value := by
  simp only [fold, bind_eq_ok, node_eq_ok, addLiteral]
  constructor
  · rintro ⟨n, _, ⟨hn, rfl⟩, h⟩
    split at h
    · cases h
      exact ⟨by assumption, rfl, n, hn, rfl⟩
    · cases h
  · rintro ⟨hs, rfl, n, hn, rfl⟩
    exact ⟨n, _, ⟨hn, rfl⟩, by rw [if_pos hs]; rfl⟩

/-- The state with another variable in a slot. -/
def State.setVar (s : State) (v : VarId) (d : Var) : State :=
  { s with program := { s.program with vars := s.program.vars.set v d } }

/-- The state with another constant in a slot. -/
def State.setConst (s : State) (k : ConstId) (d : Const) : State :=
  { s with program := { s.program with consts := s.program.consts.set k d } }

/-- The state with another statement in a slot. -/
def State.setStmt (s : State) (x : StmtId) (n : StmtNode) : State :=
  { s with program := { s.program with stmts := s.program.stmts.set x n } }

@[simp] theorem setVar_setVar {v : VarId} {d d' : Var} :
    (s.setVar v d).setVar v d' = s.setVar v d' := by
  simp [State.setVar, Arena.set]

@[simp] theorem setConst_setConst {k : ConstId} {d d' : Const} :
    (s.setConst k d).setConst k d' = s.setConst k d' := by
  simp [State.setConst, Arena.set]

@[simp] theorem updateVar_eq_ok {v : VarId} {g : Var → Var} :
    change (·.updateVar v g) s = .ok u s' ↔
      ∃ d, s.program.vars.get? v = some d ∧ s' = s.setVar v (g d) :=
  change_eq_ok_of fun _ => Program.updateVar_ok

@[simp] theorem updateConst_eq_ok {k : ConstId} {g : Const → Const} :
    change (·.updateConst k g) s = .ok u s' ↔
      ∃ d, s.program.consts.get? k = some d ∧ s' = s.setConst k (g d) :=
  change_eq_ok_of fun _ => Program.updateConst_ok

@[simp] theorem updateStmt_eq_ok {x : StmtId} {g : StmtNode → StmtNode} :
    change (·.updateStmt x g) s = .ok u s' ↔
      ∃ n, s.program.stmts.get? x = some n ∧ s' = s.setStmt x (g n) :=
  change_eq_ok_of fun _ => Program.updateStmt_ok

/-! ## Names -/

@[simp] theorem defineIn_eq_ok {symbol : Symbol} :
    defineIn i line name symbol s = .ok u s' ↔
      ∃ T, s.table.define? i name symbol = .ok (some T) ∧ s' = { s with table := T } := by
  simp only [defineIn, bind_eq_ok, askTable_eq_ok]
  constructor
  · rintro ⟨found, _, ⟨hf, rfl⟩, h⟩
    cases found with
    | none => simp at h
    | some T => exact ⟨T, hf, by simpa using h⟩
  · rintro ⟨T, hT, rfl⟩
    exact ⟨some T, s, ⟨hT, rfl⟩, rfl⟩

@[simp] theorem define_eq_ok {symbol : Symbol} : define line name symbol s = .ok u s' ↔
      ∃ T, s.table.define? s.table.current name symbol = .ok (some T) ∧
        s' = { s with table := T } := by
  simp [define]

@[simp] theorem addScope_eq_ok {parent : ScopeId} : addScope kind parent s = .ok i s' ↔
      i = s.table.next ∧ s' = { s with table := s.table.add kind parent } := by
  unfold addScope
  simp [eq_comm]

/-! ## Other places -/

@[simp] theorem within_eq_ok {file : FileId} {scope : ScopeId} : within file scope x s = .ok a s' ↔
      ∃ t, x { s with file := file, table := s.table.enter scope } = .ok a t ∧ s' = t.backTo s := by
  unfold within
  cases x { s with file := file, table := s.table.enter scope } <;> simp [eq_comm]

@[simp] theorem inside_eq_ok {breakable : Breakable} : inside breakable x s = .ok a s' ↔
      ∃ t, x { s with breakables := breakable :: s.breakables } = .ok a t ∧
        s' = { t with breakables := t.breakables.tail } := by
  unfold inside
  cases x { s with breakables := breakable :: s.breakables } <;> simp [eq_comm]

@[simp] theorem inMethod_eq_ok {m : MethodId} : inMethod m x s = .ok a s' ↔
      ∃ t, x { s with method := some m } = .ok a t ∧ s' = { t with method := none } := by
  unfold inMethod
  cases x { s with method := some m } <;> simp [eq_comm]

/-- The state inside a new scope. -/
def State.deeper (s : State) (kind : ScopeKind) : State :=
  { s with table := (s.table.add kind s.table.current).enter s.table.next }

@[simp] theorem inScope_eq_ok :
    inScope kind x s = .ok a s' ↔ ∃ t, x (s.deeper kind) = .ok a t ∧ s' = t.backTo s := by
  simp only [inScope, bind_eq_ok, get_eq_ok, addScope_eq_ok, within_eq_ok]
  constructor
  · rintro ⟨_, _, ⟨rfl, rfl⟩, _, _, ⟨rfl, rfl⟩, t, ht, rfl⟩
    exact ⟨t, ht, rfl⟩
  · rintro ⟨t, ht, rfl⟩
    exact ⟨s, s, ⟨rfl, rfl⟩, _, _, ⟨rfl, rfl⟩, t, ht, rfl⟩

/-! ## Lists -/

theorem forM_nil_eq_ok : ([] : List ι).forM g s = .ok u s' ↔ s' = s := by
  show (pure () : Pass Unit) s = .ok u s' ↔ _
  simp

theorem forM_cons_eq_ok {i : ι} : (i :: xs).forM g s = .ok u s' ↔
      ∃ s1, g i s = .ok () s1 ∧ xs.forM g s1 = .ok () s' := by
  show (g i >>= fun _ => xs.forM g) s = .ok u s' ↔ _
  rw [bind_eq_ok]
  constructor
  · rintro ⟨_, s1, hi, hxs⟩
    exact ⟨s1, hi, hxs⟩
  · rintro ⟨s1, hi, hxs⟩
    exact ⟨(), s1, hi, hxs⟩

/-- What each turn of a loop adds to what has been done so far. -/
theorem forM_prefix {P : List ι → State → Prop}
    (h : P [] s) (hstep : ∀ seen x s s', P seen s → g x s = .ok () s' → P (seen ++ [x]) s')
    (run : xs.forM g s = .ok u s') : P xs s' := by
  have main : ∀ (rest seen : List ι) s, P seen s → rest.forM g s = .ok u s' →
      P (seen ++ rest) s' := by
    intro rest
    induction rest with
    | nil =>
      intro seen s h run
      obtain rfl := forM_nil_eq_ok.1 run
      simpa using h
    | cons x _ ih =>
      intro seen s h run
      obtain ⟨s1, hx, hrest⟩ := forM_cons_eq_ok.1 run
      simpa using ih (seen ++ [x]) s1 (hstep seen x s s1 h hx) hrest
  exact main xs [] s h run

theorem mapM_nil_eq_ok {g : ι → Pass α} {as : List α} :
    ([] : List ι).mapM g s = .ok as s' ↔ as = [] ∧ s' = s := by
  simp

theorem mapM_cons_eq_ok {g : ι → Pass α} {i : ι} {as : List α} : (i :: xs).mapM g s = .ok as s' ↔
      ∃ a s1 as', g i s = .ok a s1 ∧ xs.mapM g s1 = .ok as' s' ∧ as = a :: as' := by
  rw [List.mapM_cons]
  simp only [bind_eq_ok, pure_eq_ok]
  constructor
  · rintro ⟨a, s1, ha, as', s2, has, rfl, rfl⟩
    exact ⟨a, s1, as', ha, has, rfl⟩
  · rintro ⟨a, s1, as', ha, has, rfl⟩
    exact ⟨a, s1, ha, as', s', has, rfl, rfl⟩

/-! ## Collections -/

theorem collection_ok {calls : Calls} {items : List ExprId}
    (run : Resolve.collection calls e items s = .ok e' s') :
    ∃ first rest t u s1 m, items.mapM calls.expr s = .ok (first :: rest) s1 ∧
      s1.program.valueTy first = .ok t ∧ Resolve.commonTy t rest s1 = .ok u s1 ∧
      rest.length + 1 < UInt32.size ∧ s1.program.exprs.get? e = some m ∧ e' = e ∧
      s' = s1.put e { m with
        kind := .collection (first :: rest),
        ty := some (.arrayStorage u (UInt32.ofNat (rest.length + 1))) } := by
  simp only [Resolve.collection, bind_eq_ok] at run
  obtain ⟨items', s1, hitems, run⟩ := run
  cases items' with
  | nil => simp at run
  | cons first rest =>
    simp only [bind_eq_ok, valueTy_eq_ok] at run
    obtain ⟨t, _, ⟨ht, rfl⟩, u, _, hu, run⟩ := run
    obtain rfl := Silent.commonTy.of_ok hu
    split at run
    · simp at run
    · rename_i hsize
      simp only [bind_eq_ok, replace_eq_ok, typed_eq_ok] at run
      obtain ⟨_, _, ⟨m, hm, rfl⟩, he', m', hm', rfl⟩ := run
      obtain rfl := (get?_put_self hm).some_unique hm'
      exact ⟨first, rest, t, u, _, m, hitems, ht, hu, Nat.lt_of_not_le hsize, hm, he', put_put⟩

end Ci.Pass
