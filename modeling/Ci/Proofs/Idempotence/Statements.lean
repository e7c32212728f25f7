-- Statements that are resolved again. They open the same scopes in the same order, and
-- bind the same names in them, so every statement is put back as it stands.
import Ci.Proofs.Idempotence.Expressions
import Ci.Proofs.Work.Remains

namespace Ci

open Pass Resolve Arena

variable {α : Type} {p q : Program} {n N : Nat} {s s1 s2 s' t : State} {e e' : ExprId} {k : ConstId}
  {x : StmtId} {m : MethodId} {d : Method} {y : Pass α} {a : α} {ty : Ty}

/-! ## Places -/

theorem Mirrors.deeper {u : State} (h : Mirrors s u) (kind : ScopeKind) :
    Mirrors (s.deeper kind) (u.deeper kind) := by
  have hadd := (h.add kind s.table.current).enter (f := s.file) (g := u.file) s.table.next
  have hnext : u.table.next = s.table.next := by simp [ScopeTable.next, h.size]
  rw [State.deeper, State.deeper, hnext, h.current]
  exact hadd

namespace Again

theorem inScope {kind : ScopeKind} (h : Again q (s.deeper kind) t y a) :
    Again q s (t.backTo s) (inScope kind y) a := by
  intro u hu hm
  obtain ⟨u', hy, hu', hm'⟩ := h (u.deeper kind) hu (hm.deeper kind)
  exact ⟨u'.backTo u, inScope_eq_ok.2 ⟨u', hy, rfl⟩, hu', hm.backTo hm'⟩

theorem inside {b : Breakable} (h : Again q (s.breakable b) t y a) :
    Again q s t.leave (inside b y) a := by
  intro u hu hm
  have hin : Mirrors (s.breakable b) (u.breakable b) :=
    { hm with breakables := congrArg (b :: ·) hm.breakables }
  obtain ⟨u', hy, hu', hm'⟩ := h (u.breakable b) hu hin
  exact ⟨u'.leave, inside_eq_ok.2 ⟨u', hy, rfl⟩, hu',
    { hm' with breakables := congrArg List.tail hm'.breakables }⟩

end Again

/-! ## Expressions of statements -/

theorem Lasts.depth_le (h : Lasts s.program q) : s.depth ≤ callDepth q := by
  simp only [State.depth, callDepth, h.consts_size]
  exact Nat.mul_le_mul_left _ (by have := h.size_le; omega)

section

variable (hp : p.TreeShaped) (hf : Fresh p)

include hp hf

theorem Ran.resolve_again (h : Ran p s.depth s e e' s') (hl : Lasts s'.program q) :
    Again q s s' (resolveExpr e') e' := by
  refine .get fun u hu _ => ?_
  rw [hu]
  exact h.again hp hf hl ((h.lasts hf).trans hl).depth_le

theorem RanType.resolve_idle (h : RanType p s.depth s e ty s') (hl : Lasts s'.program q) :
    Idle q s (resolveType e) ty := by
  refine .get fun u hu _ => ?_
  rw [hu]
  exact h.idle hp hf hl ((h.lasts hf).trans hl).depth_le

theorem Ran.condition_again (h : Ran p s.depth s e e' s') (hc : Coerces s'.program e' .bool)
    (hl : Lasts s'.program q) : Again q s s' (resolveCondition e') e' := by
  refine (h.resolve_again hp hf hl).bind (Idle.again ?_ (.refl _))
  exact (Idle.coerce (hc.later (h.settled hp hf).whole hl)).bind .pure

omit hp hf in
theorem RanLocal.grows (h : RanLocal p s k s') : Grows s s' := by
  refine .of_moves h.moves fun z hz => ?_
  rcases hz with hz | ⟨k', d, -, -, -, hz⟩ <;> rcases Program.mem_region_const hz
    with h | h <;> cases h

/-- The constant of a body has been resolved. -/
theorem RanLocal.idle (h : RanLocal p s k s') (hl : Lasts s'.program q) :
    Idle q s (resolveConst k) () := by
  obtain ⟨n, hstep⟩ := h.step hp hf
  refine .get fun u hu _ => ?_
  obtain ⟨N, hN⟩ : ∃ N, callDepth q = N + 1 :=
    Nat.exists_eq_add_one_of_ne_zero (by simp [callDepth])
  rw [hu, hN]
  exact hstep.idle hl ((h.lasts hf).trans hl)

omit hp hf in
/-- Expressions that may be left out. -/
theorem RanList.option_again {C : ExprId → ExprId → State → Prop} {f : ExprId → Pass ExprId}
    {o o' : Option ExprId} (h : RanList p State.depth id C s o.toList o'.toList s')
    (hg : ∀ {s e e' s'}, Ran p s.depth s e e' s' → C e e' s' → Lasts s'.program q →
      Again q s s' (f e') e') (hl : Lasts s'.program q) : Again q s s' (o'.mapM f) o' := by
  cases o with
  | none =>
    cases o' with
    | none =>
      cases h
      exact Idle.pure.again (.refl _)
    | some => cases h
  | some =>
    cases o' with
    | none => cases h
    | some =>
      obtain _ | ⟨first, holds, rest⟩ := h
      cases rest
      exact (hg first holds hl).bind (Idle.pure.again (.refl _))

/-! ## All statements -/

omit hp hf in
/-- The type that the present method returns is asked for again. -/
theorem InBody.returnTy_idle (h : InBody m d s) (hd : d.ty ≠ none)
    (hr : Resolve.returnTy s = .ok ty s) (hl : Lasts s.program q) :
    Idle q s Resolve.returnTy ty := by
  have hty := h.returnTy hr
  obtain ⟨d', hd', -, hsame⟩ := hl.methods m d h.2
  obtain rfl := hsame hd
  refine .get fun u hu hm => ?_
  rw [hm.method, h.1]
  refine (Idle.ask (fetch_ok.2 hd')).bind ?_
  rw [hty]
  exact .pure

variable (hd : d.ty ≠ none) (ih : ∀ {s x s'}, InBody m d s → Rested p q n s x s' →
    Again q s s' (stmtWithin N x) ())

include hd ih

omit hp in
theorem RanAll.again {xs : List StmtId} (hin : InBody m d s) (h : RanAll (Rested p q n) s xs s') :
    Again q s s' (xs.forM (stmtWithin N)) () := by
  induction h with
  | nil => exact Idle.pure.again (.refl _)
  | cons first _ ihr => exact (ih hin first).bind (ihr (hin.rested hf hd first))

theorem RanCases.again {cases cases' : List Case} (hin : InBody m d s)
    (h : RanCases p (Rested p q n) s cases cases' s') (hl : Lasts s'.program q) :
    Again q s s' (cases'.mapM (caseOf (stmtWithin N))) cases' ∧ InBody m d s' := by
  induction h with
  | nil => exact ⟨Idle.pure.again (.refl _), hin⟩
  | @cons s s1 s2 _ c values' _ _ labels body rest ihr =>
    have hlabels := hin.list hf hd labels
    obtain ⟨hrest, hin'⟩ := ihr (hlabels.all hf hd body) hl
    have hlater := (rest.lasts hf fun _ _ _ h => h.1.lasts hf).trans hl
    have hvalues : Again q s s1 (values'.mapM resolveExpr) values' :=
      labels.mapM_again hf (fun run _ hl => run.resolve_again hp hf hl)
        ((RanAll.lasts (fun _ _ _ h => h.1.lasts hf) body).trans hlater)
    have hcase : Again q s s2 (caseOf (stmtWithin N) { c with values := values' })
        { c with values := values' } :=
      hvalues.bind ((RanAll.again hf hd ih hlabels body).bind (Idle.pure.again (.refl _)))
    refine ⟨?_, hin'⟩
    rw [List.mapM_cons]
    exact hcase.bind (hrest.bind (Idle.pure.again (.refl _)))

/-- The rule for a statement does what it has done, and finds the statement as it was put back. -/
theorem StepKind.again {kind kind' : Stmt} (line : UInt32) (hin : InBody m d s)
    (h : StepKind p (Rested p q n) s kind kind' s') (hl : Lasts s'.program q) :
    Again q s s' (stmtKind (stmtWithin N) line kind') kind' := by
  have hall : ∀ {s xs s'}, RanAll (Rested p q n) s xs s' → Lasts s.program s'.program :=
    fun h => RanAll.lasts (fun _ _ _ h => h.1.lasts hf) h
  have hpure : ∀ {s : State} {a : Stmt}, Again q s s (pure a) a := Idle.pure.again (.refl _)
  cases h with
  | @block _ _ walk =>
    have hin1 : InBody m d (s.deeper .block) := hin
    exact (Again.inScope (RanAll.again hf hd ih hin1 walk)).bind hpure
  | @ifThen _ _ _ b _ s2 _ condition boolean onTrue onFalse =>
    have h1 := (onTrue.1.lasts hf).trans ((hall onFalse).trans hl)
    have hin1 := hin.ran hf hd condition
    have hin2 := hin1.rested hf hd onTrue
    have helse : Again q s2 s' (b.forM (stmtWithin N)) () := by
      cases b with
      | none =>
        cases onFalse
        exact Idle.pure.again (.refl _)
      | some =>
        obtain _ | ⟨first, rest⟩ := onFalse
        cases rest
        exact ih hin2 first
    exact (condition.condition_again hp hf boolean h1).bind
      ((ih hin1 onTrue).bind (helse.bind hpure))
  | @whileLoop _ _ _ s1 _ condition boolean walk =>
    have h1 : Lasts (s1.breakable .loop).program q := (walk.1.lasts hf).trans hl
    have hin1 : InBody m d s1 := hin.ran hf hd condition
    exact (condition.condition_again hp hf boolean h1).bind
      ((Again.inside (ih (s := s1.breakable .loop) hin1 walk)).bind hpure)
  | @doWhile _ _ _ _ _ walk condition boolean =>
    exact (Again.inside (ih (s := s.breakable .loop) hin walk)).bind
      ((condition.condition_again hp hf boolean hl).bind hpure)
  | @forLoop _ _ _ _ _ _ _ _ _ t3 _ first condition step walk =>
    have h3 : Lasts (t3.breakable .loop).program q := (walk.1.lasts hf).trans hl
    have h2 := (step.lasts hf).trans h3
    have h1 := (condition.lasts hf).trans h2
    have hin0 : InBody m d (s.deeper .forHead) := hin
    have hin3 := ((hin0.list hf hd first).list hf hd condition).list hf hd step
    refine Again.inScope ((first.option_again (fun run _ hl => run.resolve_again hp hf hl) h1).bind
      ((condition.option_again (fun run hc hl => run.condition_again hp hf hc hl) h2).bind
        ((step.option_again (fun run _ hl => run.resolve_again hp hf hl) h3).bind
          ((Again.inside (ih (s := t3.breakable .loop) hin3 walk)).bind hpure))))
  | @switch _ _ cases cases' default s1 t1 t2 subject walk last =>
    have hin1 : InBody m d s1 := hin.ran hf hd subject
    have h1 : Lasts t1.program q := (hall last).trans hl
    obtain ⟨hcases, hin2⟩ :=
      walk.again hp hf hd ih (s := (s1.deeper .switch).breakable .switch) hin1 h1
    have hwalk : Lasts ((s1.deeper .switch).breakable .switch).program q :=
      (walk.lasts hf fun _ _ _ h => h.1.lasts hf).trans h1
    have hlast : Again q t1 t2 (default.forM fun body => body.forM (stmtWithin N)) () := by
      cases default with
      | none =>
        cases last
        exact Idle.pure.again (.refl _)
      | some => exact RanAll.again hf hd ih hin2 last
    have hreturn : Again q t2 t2 (pure cases') cases' := Idle.pure.again (.refl _)
    exact (subject.resolve_again hp hf hwalk).bind ((Again.inScope (Again.inside
      (hcases.bind (hlast.bind hreturn)))).bind hpure)
  | ret returns some result fits =>
    have hreturns := hin.returnTy_idle hd returns ((result.lasts hf).trans hl)
    refine hreturns.bind_again ((result.resolve_again hp hf hl).bind (Idle.again ?_ (.refl _)))
    rw [if_neg some]
    exact (Idle.coerce (fits.later (result.settled hp hf).whole hl)).bind .pure
  | retNone returns => exact (hin.returnTy_idle hd returns hl).bind_again hpure
  | leave inside =>
    refine Idle.again (.get fun u hu hm => ?_) (.refl _)
    rw [hm.breakables, if_neg (by simpa using inside)]
    exact .pure
  | next inside =>
    refine Idle.again (.get fun u hu hm => ?_) (.refl _)
    rw [hm.breakables, if_pos (by simpa using inside)]
    exact .pure
  | throw text fits =>
    refine (text.resolve_again hp hf hl).bind (Idle.again ?_ (.refl _))
    exact (Idle.coerce (fits.later (text.settled hp hf).whole hl)).bind .pure
  | delete pointer type allocated =>
    refine (pointer.resolve_again hp hf hl).bind (Idle.again ?_ (.refl _))
    refine (Idle.valueTy (((pointer.settled hp hf).whole.alike hl).valueTy type)).bind ?_
    rw [if_pos allocated]
    exact .pure
  | expr result => exact (result.resolve_again hp hf hl).bind hpure
  | @const k dk _ s1 walk found binds =>
    have hl1 : Lasts s1.program q := hl
    obtain ⟨d', hd', hresolved⟩ := walk.resolved
    obtain rfl := found.some_unique hd'
    have hfetch : Idle q s1 (ask (·.consts.fetch k)) dk :=
      .ask (fetch_ok.2 (hl1.consts k dk found hresolved))
    exact ((walk.idle hp hf hl1).again walk.grows).bind (hfetch.bind_again
      ((Again.define binds rfl).bind hpure))

end

/-- A statement that has been resolved is resolved again, and stays as it stands. -/
theorem Rested.again (hp : p.TreeShaped) (hf : Fresh p) (hd : d.ty ≠ none) (hin : InBody m d s)
    (h : Rested p q n s x s') (hN : n ≤ N) : Again q s s' (stmtWithin N x) () := by
  induction n generalizing N s x s' with
  | zero => exact absurd h.1 not_ranStmt_zero
  | succ _ ih =>
    obtain ⟨N, rfl⟩ := Nat.exists_eq_add_one_of_ne_zero (Nat.ne_of_gt (Nat.zero_lt_of_lt hN))
    obtain ⟨node, kind', s1, hnode, hkind, rfl, -, hx⟩ := h.step hf hp
    have hl : Lasts s1.program q := Lasts.setStmt.trans h.2.lasts
    have hwalk := hkind.again hp hf hd (fun hin h => ih hin h (Nat.le_of_succ_le_succ hN))
      node.line hin hl
    have hput : Idle q s1 (change (·.updateStmt x fun node => { node with kind := kind' })) () := by
      refine .of_program fun u hu => updateStmt_eq_ok.2 ⟨_, hu ▸ hx, ?_⟩
      exact (by rw [State.setStmt, set_get? (hu ▸ hx)])
    refine (Idle.ask (fetch_ok.2 hx)).bind_again (hwalk.bind (hput.again ?_))
    exact .set_program _ _

end Ci
