-- What the rules for statements have done when they end. The parts of a statement are
-- worked on in the order in which they stand, and each of them is as it was at the
-- start when the pass comes to it.
import Ci.Proofs.Work.Constants

namespace Ci

open Pass Resolve Program

variable {p : Program} {n : Nat} {s s1 s2 s' t : State} {x x' : StmtId} {e e' : ExprId}
  {k : ConstId} {D : Set Node} {y z : Node} {ys zs : List Node} {kind : ScopeKind}
  {xs : List StmtId} {C : ExprId → ExprId → State → Prop} {f : ExprId → Pass ExprId}
  {es es' : List ExprId} {cases cases' : List Case} {kind' : Stmt}

/-! ## Parts that are still to come -/

/-- Some nodes to which no work has come yet, and of which none is inside another. -/
structure Pending (p : Program) (s : State) (ys : List Node) : Prop where
  fit : ∀ y ∈ ys, Fit p s y
  apart : ys.Pairwise fun y z => Disjoint (p.region y) (p.region z)

theorem Fit.pending (h : Fit p s y) (hp : p.TreeShaped) : Pending p s (p.parts y) :=
  ⟨fun _ hz => h.part hp hz, h.loose.pairwise_disjoint hp (List.Sublist.refl _)⟩

namespace Pending

/-- Work on some of the nodes leaves the others as they are. -/
theorem right (h : Pending p s (ys ++ zs)) (hr : Ready p s') (hD : s.program.Changes D s'.program)
    (hsub : ∀ w ∈ D, w ∈ p.waiting s.program ∨ ∃ y ∈ ys, w ∈ p.region y) :
    Pending p s' zs := by
  obtain ⟨-, hzs, hyz⟩ := List.pairwise_append.1 h.apart
  refine ⟨fun z hz => ?_, hzs⟩
  have hfit := h.fit z (by simp [hz])
  refine hfit.step hD hr (Set.disjoint_left.2 fun w hw hwz => ?_)
  rcases hsub w hw with hw | ⟨y, hy, hwy⟩
  · exact hfit.not_waiting hwz hw
  · exact Set.disjoint_left.1 (hyz y hy z hz) hwy hwz

theorem head (h : Pending p s (y :: zs)) : Fit p s y := h.fit y (by simp)

theorem tail (h : Pending p s (y :: zs)) (hr : Ready p s')
    (hm : Moves (p.work s.program y) s s') : Pending p s' zs := by
  have h' : Pending p s ([y] ++ zs) := h
  refine h'.right hr hm.program fun w hw => ?_
  rcases hw with hw | hw
  · exact .inr ⟨y, by simp, hw⟩
  · exact .inl hw

/-- The same program and at least the same constants in sight. -/
theorem place (h : Pending p s ys) (hr : Ready p t) (hp : t.program = s.program) :
    Pending p t ys := by
  refine ⟨fun y hy => ?_, h.apart⟩
  have hfit := h.fit y hy
  refine ⟨hr, hfit.loose, ?_, ?_⟩
  · rw [hp]
    exact hfit.same
  · rw [hp]
    exact hfit.apart

end Pending

theorem Ready.add {i : ScopeId} (h : Ready p s) :
    Ready p { s with table := s.table.add kind i } := by
  refine ⟨h.added, fun j c name k hc hb => ?_, h.waiting⟩
  have hc' : (s.table.scopes.push ⟨kind, some i, []⟩)[j]? = some c := hc
  rw [Array.getElem?_push] at hc'
  split at hc'
  · obtain rfl := Option.some.inj hc'
    simp at hb
  · exact h.bound j c name k hc' hb

theorem Ready.deeper (h : Ready p s) : Ready p (s.deeper kind) :=
  Ready.place h.add rfl rfl

/-! ## Parts that have ended -/

/-- The depth to which expressions of a statement are resolved. -/
def Pass.State.depth (s : State) : Nat := callDepth s.program

/-- A statement has been resolved. -/
structure RanStmt (p : Program) (n : Nat) (s : State) (x : StmtId) (s' : State) : Prop where
  run : stmtWithin n x s = .ok () s'
  fit : Fit p s (.stmt x)
  moves : Moves (p.work s.program (.stmt x)) s s'
  ready : Ready p s'

/-- Some things have been done one after another. -/
inductive RanAll {ι : Type} (R : State → ι → State → Prop) : State → List ι → State → Prop
  | nil (s : State) : RanAll R s [] s
  | cons {s s1 s2 : State} {i : ι} {is : List ι} (first : R s i s1) (rest : RanAll R s1 is s2) :
      RanAll R s (i :: is) s2

/-- Some expressions have been resolved one after the other. -/
abbrev RanExprs (p : Program) : State → List ExprId → List ExprId → State → Prop :=
  RanList p State.depth id fun _ _ _ => True

/-- Some conditions have been resolved one after the other. -/
abbrev RanConds (p : Program) : State → List ExprId → List ExprId → State → Prop :=
  RanList p State.depth id fun _ e' s => Coerces s.program e' .bool

/-- The cases of a choice have been resolved one after the other. -/
inductive RanCases (p : Program) (R : State → StmtId → State → Prop) :
    State → List Case → List Case → State → Prop
  | nil (s : State) : RanCases p R s [] [] s
  | cons {s s1 s2 s3 : State} {c : Case} {values' : List ExprId} {cases cases' : List Case}
      (labels : RanExprs p s c.values values' s1) (body : RanAll R s1 c.body s2)
      (rest : RanCases p R s2 cases cases' s3) :
      RanCases p R s (c :: cases) ({ c with values := values' } :: cases') s3

/-- A constant of a body has been resolved. -/
structure RanLocal (p : Program) (s : State) (k : ConstId) (s' : State) : Prop where
  run : (callsWithin s.depth).const k s = .ok () s'
  fit : Fit p s (.const k)
  moves : Moves (p.work s.program (.const k)) s s'
  ready : Ready p s'
  resolved : ∃ d, s'.program.consts.get? k = some d ∧ d.status = .resolved

/-- The state inside a statement that a jump can leave. -/
def Pass.State.breakable (s : State) (b : Breakable) : State :=
  { s with breakables := b :: s.breakables }

/-- The state outside the nearest statement that a jump can leave. -/
def Pass.State.leave (s : State) : State := { s with breakables := s.breakables.tail }

/-- What the rule for a statement has done before it puts the statement back. The statements that
it holds have been resolved as the second argument says. -/
inductive StepKind (p : Program) (R : State → StmtId → State → Prop) (s : State) :
    Stmt → Stmt → State → Prop
  | block {body : List StmtId} {t : State} (walk : RanAll R (s.deeper .block) body t) :
      StepKind p R s (.block body) (.block body) (t.backTo s)
  | ifThen {c c' : ExprId} {a : StmtId} {b : Option StmtId} {s1 s2 s3 : State}
      (condition : Ran p s.depth s c c' s1) (boolean : Coerces s1.program c' .bool)
      (onTrue : R s1 a s2) (onFalse : RanAll R s2 b.toList s3) :
      StepKind p R s (.ifThen c a b) (.ifThen c' a b) s3
  | whileLoop {c c' : ExprId} {body : StmtId} {s1 t : State}
      (condition : Ran p s.depth s c c' s1) (boolean : Coerces s1.program c' .bool)
      (walk : R (s1.breakable .loop) body t) :
      StepKind p R s (.whileLoop c body) (.whileLoop c' body) t.leave
  | doWhile {c c' : ExprId} {body : StmtId} {s1 t : State}
      (walk : R (s.breakable .loop) body t)
      (condition : Ran p t.leave.depth t.leave c c' s1)
      (boolean : Coerces s1.program c' .bool) :
      StepKind p R s (.doWhile body c) (.doWhile body c') s1
  | forLoop {start start' c c' advance advance' : Option ExprId} {body : StmtId}
      {t1 t2 t3 t4 : State}
      (first : RanExprs p (s.deeper .forHead) start.toList start'.toList t1)
      (condition : RanConds p t1 c.toList c'.toList t2)
      (step : RanExprs p t2 advance.toList advance'.toList t3)
      (walk : R (t3.breakable .loop) body t4) :
      StepKind p R s (.forLoop start c advance body) (.forLoop start' c' advance' body)
        (t4.leave.backTo s)
  | switch {value value' : ExprId} {cases cases' : List Case} {default : Option (List StmtId)}
      {s1 t1 t2 : State} (subject : Ran p s.depth s value value' s1)
      (walk : RanCases p R ((s1.deeper .switch).breakable .switch) cases cases' t1)
      (last : RanAll R t1 (default.getD []) t2) :
      StepKind p R s (.switch value cases default) (.switch value' cases' default)
        (t2.leave.backTo s1)
  | ret {value value' : ExprId} {expected : Ty} {s1 : State}
      (returns : returnTy s = .ok expected s) (some : expected ≠ .void)
      (result : Ran p s.depth s value value' s1) (fits : Coerces s1.program value' expected) :
      StepKind p R s (.ret (.some value)) (.ret (.some value')) s1
  | retNone (returns : returnTy s = .ok .void s) : StepKind p R s (.ret none) (.ret none) s
  | leave (inside : s.breakables ≠ []) : StepKind p R s .leave .leave s
  | next (inside : Breakable.loop ∈ s.breakables) : StepKind p R s .next .next s
  | throw {value value' : ExprId} {s1 : State} (text : Ran p s.depth s value value' s1)
      (fits : Coerces s1.program value' .stringPointer) :
      StepKind p R s (.throw value) (.throw value') s1
  | delete {value value' : ExprId} {ty : Ty} {s1 : State}
    (pointer : Ran p s.depth s value value' s1)
      (type : s1.program.valueTy value' = .ok ty) (allocated : isAllocated ty = true) :
      StepKind p R s (.delete value) (.delete value') s1
  | expr {value value' : ExprId} {s1 : State} (result : Ran p s.depth s value value' s1) :
      StepKind p R s (.expr value) (.expr value') s1
  | const {k : ConstId} {d : Const} {table : ScopeTable} {s1 : State} (walk : RanLocal p s k s1)
      (found : s1.program.consts.get? k = some d)
      (binds : s1.table.define? s1.table.current d.name (.const k) = .ok (some table)) :
      StepKind p R s (.const k) (.const k) { s1 with table := table }

/-- What the rule for statements has done. -/
inductive StepStmt (p : Program) (R : State → StmtId → State → Prop) (s : State) (x : StmtId) :
    State → Prop
  | mk {m : StmtNode} {kind' : Stmt} {s1 : State} (node : p.stmts.get? x = some m)
      (kind : StepKind p R s m.kind kind' s1) (still : s1.program.stmts.get? x = some m) :
      StepStmt p R s x (s1.setStmt x { m with kind := kind' })

/-! ## Lists -/

/-- The statements that are called do their work. -/
def Walks (p : Program) (n : Nat) : Prop :=
  ∀ {s x s'}, Fit p s (.stmt x) → stmtWithin n x s = .ok () s' → RanStmt p n s x s'

theorem RanAll.of_walks {u : Unit} (hw : Walks p n) (hr : Ready p s)
    (hpend : Pending p s (xs.map .stmt ++ zs)) (run : xs.forM (stmtWithin n) s = .ok u s') :
    RanAll (RanStmt p n) s xs s' ∧ Ready p s' ∧ Pending p s' zs := by
  induction xs generalizing s with
  | nil =>
    obtain rfl := forM_nil_eq_ok.1 run
    exact ⟨.nil _, hr, hpend⟩
  | cons _ _ ih =>
    obtain ⟨s1, hx, hxs⟩ := forM_cons_eq_ok.1 run
    have hran := hw hpend.head hx
    obtain ⟨hrest, hr', hpend'⟩ := ih hran.ready (hpend.tail hran.ready hran.moves) hxs
    exact ⟨.cons hran hrest, hr', hpend'⟩

theorem RanAll.of_last {u : Unit} (hw : Walks p n) (hr : Ready p s)
    (hpend : Pending p s (xs.map .stmt)) (run : xs.forM (stmtWithin n) s = .ok u s') :
    RanAll (RanStmt p n) s xs s' ∧ Ready p s' := by
  have hpend' : Pending p s (xs.map .stmt ++ []) := by simpa using hpend
  obtain ⟨hran, hr', -⟩ := RanAll.of_walks hw hr hpend' run
  exact ⟨hran, hr'⟩

theorem RanList.of_pending (hr : Ready p s) (hpend : Pending p s (es.map .expr ++ zs))
    (hstep : ∀ s e a s', Fit p s (.expr e) → f e s = .ok a s' → Ran p s.depth s e a s' ∧ C e a s')
    (run : es.mapM f s = .ok es' s') :
    RanList p State.depth id C s es es' s' ∧ Ready p s' ∧ Pending p s' zs := by
  induction es generalizing s es' with
  | nil =>
    obtain ⟨rfl, rfl⟩ := mapM_nil_eq_ok.1 run
    exact ⟨.nil _, hr, hpend⟩
  | cons e _ ih =>
    obtain ⟨a, s1, as, he, hes, rfl⟩ := mapM_cons_eq_ok.1 run
    obtain ⟨hran, hC⟩ := hstep s e a s1 hpend.head he
    obtain ⟨hrest, hr', hpend'⟩ := ih hran.ready (hpend.tail hran.ready hran.moves) hes
    exact ⟨.cons hran hC hrest, hr', hpend'⟩

/-- An expression that may be left out is a list with at most one item. -/
theorem RanList.of_option
    {e e' : Option ExprId} (hr : Ready p s) (hpend : Pending p s (e.toList.map .expr ++ zs))
    (hstep : ∀ s e a s', Fit p s (.expr e) → f e s = .ok a s' → Ran p s.depth s e a s' ∧ C e a s')
    (run : e.mapM f s = .ok e' s') :
    RanList p State.depth id C s e.toList e'.toList s' ∧ Ready p s' ∧ Pending p s' zs := by
  refine of_pending (f := f) hr hpend hstep ?_
  cases e with
  | none =>
    obtain ⟨rfl, rfl⟩ := pure_eq_ok.1 run
    simp
  | some e =>
    simp only [Option.mapM_some, Functor.map, EStateM.map] at run
    cases he : f e s with
    | error => simp [he] at run
    | ok a =>
      rw [he] at run
      cases run
      exact mapM_cons_eq_ok.2 ⟨a, s', [], he, mapM_nil_eq_ok.2 ⟨rfl, rfl⟩, rfl⟩

section

variable (hp : p.TreeShaped) (hf : Fresh p)

include hp hf

theorem ran_of_resolveExpr (hfit : Fit p s (.expr e))
    (run : resolveExpr e s = .ok e' s') : Ran p s.depth s e e' s' := by
  simp only [resolveExpr, calls, bind_eq_ok, get_eq_ok, pure_eq_ok] at run
  obtain ⟨_, _, ⟨_, _, ⟨rfl, rfl⟩, rfl, rfl⟩, run⟩ := run
  exact (works hp hf _).expr hfit run

theorem ran_of_resolveCondition (hfit : Fit p s (.expr e))
    (run : resolveCondition e s = .ok e' s') :
    Ran p s.depth s e e' s' ∧ Coerces s'.program e' .bool := by
  simp only [resolveCondition, Resolve.condition, bind_eq_ok, coerce_eq_ok, pure_eq_ok] at run
  obtain ⟨_, _, he, _, _, ⟨hc, rfl⟩, rfl, rfl⟩ := run
  exact ⟨ran_of_resolveExpr hp hf hfit he, hc⟩

theorem RanCases.of_mapM (hw : Walks p n) (hr : Ready p s)
    (hpend : Pending p s (cases.flatMap Case.parts ++ zs))
    (run : cases.mapM (caseOf (stmtWithin n)) s = .ok cases' s') :
    RanCases p (RanStmt p n) s cases cases' s' ∧ Ready p s' ∧ Pending p s' zs := by
  induction cases generalizing s cases' with
  | nil =>
    obtain ⟨rfl, rfl⟩ := mapM_nil_eq_ok.1 run
    exact ⟨.nil _, hr, hpend⟩
  | cons _ _ ih =>
    obtain ⟨c', s1, cases'', hc, hcases, rfl⟩ := mapM_cons_eq_ok.1 run
    simp only [caseOf, bind_eq_ok, pure_eq_ok] at hc
    obtain ⟨values', s2, hvalues, _, s3, hbody, rfl, rfl⟩ := hc
    simp only [List.flatMap_cons, Case.parts, List.append_assoc] at hpend
    obtain ⟨hlabels, hr1, hpend1⟩ := RanList.of_pending (C := fun _ _ _ => True) hr hpend
      (fun s e a s' hfit he => ⟨ran_of_resolveExpr hp hf hfit he, trivial⟩) hvalues
    obtain ⟨hstmts, hr2, hpend2⟩ := RanAll.of_walks hw hr1 hpend1 hbody
    obtain ⟨hrest, hr3, hpend3⟩ := ih hr2 hpend2 hcases
    exact ⟨.cons hlabels hstmts hrest, hr3, hpend3⟩

end

/-! ## Changes -/

theorem RanAll.changes (h : RanAll (RanStmt p n) s xs s')
    (hD : ∀ x ∈ xs, p.region (.stmt x) ⊆ D) (hw : p.waiting s.program ⊆ D) :
    s.program.Changes D s'.program := by
  induction h with
  | nil => exact .refl _
  | cons first _ ih =>
    refine (first.moves.program.mono (Set.union_subset (hD _ (by simp)) hw)).trans ?_
    exact ih (fun x hx => hD x (by simp [hx]))
      ((Program.waiting_subset first.moves.program).trans hw)

theorem RanList.changes
    (h : RanList p State.depth id C s es es' s') (hD : ∀ e ∈ es, p.region (.expr e) ⊆ D)
    (hw : p.waiting s.program ⊆ D) : s.program.Changes D s'.program :=
  (h.shift hD hw).program

theorem RanCases.changes (h : RanCases p (RanStmt p n) s cases cases' s')
    (hD : ∀ y ∈ cases.flatMap Case.parts, p.region y ⊆ D) (hw : p.waiting s.program ⊆ D) :
    s.program.Changes D s'.program := by
  induction h with
  | nil => exact .refl _
  | cons labels body _ ih =>
    simp only [List.flatMap_cons, Case.parts, List.mem_append, List.mem_map] at hD
    have h1 := labels.changes (fun e he => hD _ (.inl (.inl ⟨e, he, rfl⟩))) hw
    have h2 := body.changes (fun x hx => hD _ (.inl (.inr ⟨x, hx, rfl⟩)))
      ((Program.waiting_subset h1).trans hw)
    have h3 := ih (fun y hy => hD y (.inr hy)) ((Program.waiting_subset (h1.trans h2)).trans hw)
    exact (h1.trans h2).trans h3

/-- A statement changes what its parts hold, and visits constants. -/
theorem StepKind.changes {kind : Stmt} (h : StepKind p (RanStmt p n) s kind kind' s')
    (hD : ∀ y ∈ kind.parts, p.region y ⊆ D) (hw : p.waiting s.program ⊆ D) :
    s.program.Changes D s'.program := by
  -- the expression comes first
  have hexpr : ∀ {e e' s s1}, Ran p s.depth s e e' s1 → p.region (.expr e) ⊆ D →
      p.waiting s.program ⊆ D → s.program.Changes D s1.program ∧ p.waiting s1.program ⊆ D :=
    fun run he hw => ⟨run.moves.program.mono (Set.union_subset he hw),
      (Program.waiting_subset run.moves.program).trans hw⟩
  cases h with
  | block walk =>
    exact walk.changes (fun x hx => hD _ (by simp [Stmt.parts, hx])) hw
  | ifThen condition _ onTrue onFalse =>
    obtain ⟨h1, hw1⟩ := hexpr condition (hD _ (by simp [Stmt.parts])) hw
    have h2 := onTrue.moves.program.mono (Set.union_subset (hD _ (by simp [Stmt.parts])) hw1)
    have h3 := onFalse.changes (fun x hx => hD _ (by simp_all [Stmt.parts]))
      ((Program.waiting_subset h2).trans hw1)
    exact (h1.trans h2).trans h3
  | whileLoop condition _ walk =>
    obtain ⟨h1, hw1⟩ := hexpr condition (hD _ (by simp [Stmt.parts])) hw
    exact h1.trans (walk.moves.program.mono (Set.union_subset (hD _ (by simp [Stmt.parts])) hw1))
  | doWhile walk condition =>
    have h1 := walk.moves.program.mono (Set.union_subset (hD _ (by simp [Stmt.parts])) hw)
    have hw1 := (Program.waiting_subset h1).trans hw
    exact Program.Changes.trans h1 (hexpr condition (hD _ (by simp [Stmt.parts])) hw1).1
  | forLoop first condition step walk =>
    simp only [Stmt.parts, List.mem_append, List.mem_map, List.mem_singleton] at hD
    have h1 := first.changes (fun e he => hD _ (.inl ⟨e, .inl (.inl he), rfl⟩)) hw
    have hw1 := (Program.waiting_subset h1).trans hw
    have h2 := condition.changes (fun e he => hD _ (.inl ⟨e, .inl (.inr he), rfl⟩)) hw1
    have hw2 := (Program.waiting_subset h2).trans hw1
    have h3 := step.changes (fun e he => hD _ (.inl ⟨e, .inr he, rfl⟩)) hw2
    have hw3 := (Program.waiting_subset h3).trans hw2
    have h4 := walk.moves.program.mono (Set.union_subset (hD _ (.inr rfl)) hw3)
    exact Program.Changes.trans ((Program.Changes.trans h1 h2).trans h3) h4
  | switch subject walk last =>
    simp only [Stmt.parts, List.mem_cons, List.mem_append, List.mem_map] at hD
    obtain ⟨h1, hw1⟩ := hexpr subject (hD _ (.inl rfl)) hw
    have h2 := walk.changes (fun y hy => hD y (.inr (.inl hy))) hw1
    have hw2 := (Program.waiting_subset h2).trans hw1
    have h3 := last.changes (fun x hx => hD _ (.inr (.inr ⟨x, hx, rfl⟩))) hw2
    exact Program.Changes.trans h1 (Program.Changes.trans h2 h3)
  | ret _ _ result => exact (hexpr result (hD _ (by simp [Stmt.parts])) hw).1
  | retNone => exact .refl _
  | leave => exact .refl _
  | next => exact .refl _
  | throw text => exact (hexpr text (hD _ (by simp [Stmt.parts])) hw).1
  | delete pointer => exact (hexpr pointer (hD _ (by simp [Stmt.parts])) hw).1
  | expr result => exact (hexpr result (hD _ (by simp [Stmt.parts])) hw).1
  | const walk =>
    exact walk.moves.program.mono (Set.union_subset (hD _ (by simp [Stmt.parts])) hw)

/-! ## The rules -/

theorem Ready.defineConst (h : Ready p s) {i : ScopeId} {name : String} {d : Const}
    {T : ScopeTable} (hk : s.program.consts.get? k = some d) (hv : d.status ≠ .unvisited)
    (hd : s.table.define? i name (.const k) = .ok (some T)) : Ready p { s with table := T } := by
  refine ⟨h.added, fun j c name' k' hj hb => ?_, h.waiting⟩
  obtain ⟨c0, hc0, -, rfl⟩ := ScopeTable.define?_ok hd
  by_cases hij : i.slot = j
  · subst hij
    obtain rfl := (ScopeTable.getElem?_set_self hc0).some_unique hj
    rcases List.mem_cons.1 hb with hb | hb
    · obtain rfl : k' = k := by simpa using (Prod.ext_iff.1 hb).2
      exact ⟨d, hk, .inr hv⟩
    · exact h.bound i.slot c0 name' k' hc0 hb
  · exact h.bound j c name' k' ((ScopeTable.getElem?_set_of_ne hij).symm.trans hj) hb

section

variable (hp : p.TreeShaped) (hf : Fresh p) (hw : Walks p n)

include hp hf

theorem ranLocal_of_resolveConst (hfit : Fit p s (.const k))
    (run : resolveConst k s = .ok () s') : RanLocal p s k s' := by
  simp only [resolveConst, calls, bind_eq_ok, get_eq_ok, pure_eq_ok] at run
  obtain ⟨_, _, ⟨_, _, ⟨rfl, rfl⟩, rfl, rfl⟩, run⟩ := run
  rename_i s
  have hm := ((Moves.stay_callsWithin (p.work s.program (.const k)) s.depth).const s k
    (.inl (.inl mem_region_self))).of_ok (.refl (hfit.closed hf)) run
  refine ⟨run, hfit, hm.1, ?_, hm.2⟩
  have hrun : (callsWithin s.depth).const k s = .ok () s' := run
  generalize s.depth = depth at hrun
  cases depth with
  | zero => simp [callsWithin, outOfDepth] at hrun
  | succ depth => exact ((works hp hf depth).constRule hp hfit.due hm.1.place hrun).ready hfit.due

theorem RanLocal.step (h : RanLocal p s k s') : ∃ n, StepConst p n s k s' := by
  have hrun := h.run
  generalize s.depth = depth at hrun
  cases depth with
  | zero => simp [callsWithin, outOfDepth] at hrun
  | succ n => exact ⟨n, (works hp hf n).constRule hp h.fit.due h.moves.place hrun⟩

include hw

theorem stepKind_of_forLoop {start c advance : Option ExprId} {body : StmtId}
    (hr : Ready p s) (hpend : Pending p s (Stmt.forLoop start c advance body).parts)
    (run : Resolve.forLoop (stmtWithin n) start c advance body s = .ok kind' s') :
    StepKind p (RanStmt p n) s (.forLoop start c advance body) kind' s' ∧ Ready p s' := by
  simp only [Resolve.forLoop, inScope_eq_ok, bind_eq_ok, inside_eq_ok, pure_eq_ok] at run
  obtain ⟨_, ⟨start', t1, hstart, c', t2, hc, advance', t3, hadvance, _, _,
    ⟨t4, hbody, rfl⟩, rfl, rfl⟩, rfl⟩ := run
  have hexpr : ∀ s e a s', Fit p s (.expr e) → resolveExpr e s = .ok a s' →
      Ran p s.depth s e a s' ∧ True := fun s e a s' hfit he =>
    ⟨ran_of_resolveExpr hp hf hfit he, trivial⟩
  simp only [Stmt.parts, List.map_append, List.append_assoc] at hpend
  obtain ⟨h1, hr1, hpend1⟩ := RanList.of_option (C := fun _ _ _ => True) hr.deeper
    (hpend.place hr.deeper rfl) hexpr hstart
  obtain ⟨h2, hr2, hpend2⟩ := RanList.of_option hr1 hpend1
    (fun s e a s' hfit he => ran_of_resolveCondition hp hf hfit he) hc
  obtain ⟨h3, hr3, hpend3⟩ := RanList.of_option (C := fun _ _ _ => True) hr2 hpend2 hexpr hadvance
  have hr3' : Ready p (t3.breakable .loop) := hr3.place rfl rfl
  have h4 := hw (hpend3.place hr3' rfl).head hbody
  exact ⟨.forLoop h1 h2 h3 h4, h4.ready.place rfl rfl⟩

theorem stepKind_of_switch {value : ExprId} {default : Option (List StmtId)}
    (hpend : Pending p s (Stmt.switch value cases default).parts)
    (run : Resolve.switch (stmtWithin n) value cases default s = .ok kind' s') :
    StepKind p (RanStmt p n) s (.switch value cases default) kind' s' ∧ Ready p s' := by
  simp only [Resolve.switch, bind_eq_ok, inScope_eq_ok, inside_eq_ok, pure_eq_ok] at run
  obtain ⟨value', s1, hvalue, _, _,
    ⟨_, ⟨t2, ⟨cases', t1, hcases, _, _, hdefault, rfl, rfl⟩, rfl⟩, rfl⟩, rfl, rfl⟩ := run
  simp only [Stmt.parts] at hpend
  have h1 := ran_of_resolveExpr hp hf hpend.head hvalue
  have hpend1 := hpend.tail h1.ready h1.moves
  have hr1 : Ready p ((s1.deeper .switch).breakable .switch) :=
    (h1.ready.deeper : Ready p (s1.deeper .switch)).place rfl rfl
  obtain ⟨h2, hr2, hpend2⟩ := RanCases.of_mapM hp hf hw hr1 (hpend1.place hr1 rfl) hcases
  have hlast : (default.getD []).forM (stmtWithin n) t1 = .ok () t2 := by
    cases default with
    | none => exact hdefault
    | some => exact hdefault
  obtain ⟨h3, hr3⟩ := RanAll.of_last hw hr2 hpend2 hlast
  exact ⟨.switch h1 h2 h3, hr3.place rfl rfl⟩

theorem stepKind_of_stmtKind {line : UInt32} {kind : Stmt} (hr : Ready p s)
    (hpend : Pending p s kind.parts)
    (run : stmtKind (stmtWithin n) line kind s = .ok kind' s') :
    StepKind p (RanStmt p n) s kind kind' s' ∧ Ready p s' := by
  cases kind with
  | block =>
    simp only [stmtKind, bind_eq_ok, inScope_eq_ok, pure_eq_ok] at run
    obtain ⟨_, _, ⟨t, hbody, rfl⟩, rfl, rfl⟩ := run
    have hr1 : Ready p (s.deeper .block) := hr.deeper
    obtain ⟨hwalk, hr'⟩ := RanAll.of_last hw hr1 (hpend.place hr1 rfl) hbody
    exact ⟨.block hwalk, hr'.place rfl rfl⟩
  | ifThen _ _ b =>
    simp only [stmtKind, Resolve.ifThen, bind_eq_ok, pure_eq_ok] at run
    obtain ⟨c', s1, hc, _, s2, ha, _, _, hb, rfl, rfl⟩ := run
    obtain ⟨hcond, hbool⟩ := ran_of_resolveCondition hp hf hpend.head hc
    have hpend1 := hpend.tail hcond.ready hcond.moves
    have honTrue := hw hpend1.head ha
    have hforM : b.toList.forM (stmtWithin n) s2 = .ok () s' := by
      cases b with
      | none => exact hb
      | some => exact forM_cons_eq_ok.2 ⟨s', hb, forM_nil_eq_ok.2 rfl⟩
    have hpend2 : Pending p s2 (b.toList.map .stmt) := hpend1.tail honTrue.ready honTrue.moves
    obtain ⟨honFalse, hr'⟩ := RanAll.of_last hw honTrue.ready hpend2 hforM
    exact ⟨.ifThen hcond hbool honTrue honFalse, hr'⟩
  | whileLoop =>
    simp only [stmtKind, Resolve.whileLoop, bind_eq_ok, inside_eq_ok, pure_eq_ok] at run
    obtain ⟨c', s1, hc, _, _, ⟨t, hbody, rfl⟩, rfl, rfl⟩ := run
    obtain ⟨hcond, hbool⟩ := ran_of_resolveCondition hp hf hpend.head hc
    have hr1 : Ready p (s1.breakable .loop) := hcond.ready.place rfl rfl
    have hwalk := hw ((hpend.tail hcond.ready hcond.moves).place hr1 rfl).head hbody
    exact ⟨.whileLoop hcond hbool hwalk, hwalk.ready.place rfl rfl⟩
  | doWhile =>
    simp only [stmtKind, Resolve.doWhile, bind_eq_ok, inside_eq_ok, pure_eq_ok] at run
    obtain ⟨_, _, ⟨t, hbody, rfl⟩, c', s1, hc, rfl, rfl⟩ := run
    have hr1 : Ready p (s.breakable .loop) := hr.place rfl rfl
    have hpend1 := hpend.place hr1 rfl
    have hwalk := hw hpend1.head hbody
    have hr2 : Ready p t.leave := hwalk.ready.place rfl rfl
    obtain ⟨hcond, hbool⟩ := ran_of_resolveCondition hp hf
      ((hpend1.tail hwalk.ready hwalk.moves).place hr2 rfl).head hc
    exact ⟨.doWhile hwalk hcond hbool, hcond.ready⟩
  | forLoop => exact stepKind_of_forLoop hp hf hw hr hpend run
  | switch => exact stepKind_of_switch hp hf hw hpend run
  | ret value =>
    simp only [stmtKind, Resolve.ret, bind_eq_ok] at run
    obtain ⟨expected, s0, hreturns, run⟩ := run
    obtain rfl := Silent.returnTy.of_ok hreturns
    cases value with
    | none =>
      dsimp only at run
      split at run
      · rename_i hvoid
        obtain ⟨rfl, rfl⟩ := pure_eq_ok.1 run
        exact ⟨.retNone (hvoid ▸ hreturns), hr⟩
      · simp at run
    | some value =>
      simp only [bind_eq_ok] at run
      obtain ⟨value', s1, hvalue, run⟩ := run
      have hran := ran_of_resolveExpr hp hf hpend.head hvalue
      split at run
      · simp at run
      · rename_i hvoid
        simp only [bind_eq_ok, coerce_eq_ok, pure_eq_ok] at run
        obtain ⟨_, _, ⟨hc, rfl⟩, rfl, rfl⟩ := run
        exact ⟨.ret hreturns hvoid hran hc, hran.ready⟩
  | leave =>
    simp only [stmtKind, Resolve.leave, bind_eq_ok, get_eq_ok] at run
    obtain ⟨_, _, ⟨rfl, rfl⟩, run⟩ := run
    split at run
    · simp at run
    · rename_i hinside
      obtain ⟨rfl, rfl⟩ := pure_eq_ok.1 run
      exact ⟨.leave (by simpa using hinside), hr⟩
  | next =>
    simp only [stmtKind, Resolve.next, bind_eq_ok, get_eq_ok] at run
    obtain ⟨_, _, ⟨rfl, rfl⟩, run⟩ := run
    split at run
    · rename_i hinside
      obtain ⟨rfl, rfl⟩ := pure_eq_ok.1 run
      exact ⟨.next (by simpa using hinside), hr⟩
    · simp at run
  | throw =>
    simp only [stmtKind, throwing, bind_eq_ok, coerce_eq_ok, pure_eq_ok] at run
    obtain ⟨value', _, hvalue, _, _, ⟨hc, rfl⟩, rfl, rfl⟩ := run
    have hran := ran_of_resolveExpr hp hf hpend.head hvalue
    exact ⟨.throw hran hc, hran.ready⟩
  | delete value =>
    simp only [stmtKind, deletion, bind_eq_ok, valueTy_eq_ok] at run
    obtain ⟨value', s1, hvalue, ty, _, ⟨hty, hs⟩, run⟩ := run
    have hran := ran_of_resolveExpr hp hf hpend.head hvalue
    split at run
    · rename_i halloc
      obtain ⟨rfl, rfl⟩ := pure_eq_ok.1 run
      rw [hs]
      exact ⟨.delete hran hty halloc, hran.ready⟩
    · simp at run
  | expr =>
    simp only [stmtKind, bind_eq_ok, pure_eq_ok] at run
    obtain ⟨value', _, hvalue, rfl, rfl⟩ := run
    have hran := ran_of_resolveExpr hp hf hpend.head hvalue
    exact ⟨.expr hran, hran.ready⟩
  | const =>
    simp only [stmtKind, localConst, bind_eq_ok, ask_eq_ok, Arena.fetch_ok,
      define_eq_ok, pure_eq_ok] at run
    obtain ⟨_, _, hconst, d, s1, ⟨hd, rfl⟩, _, _, ⟨T, hT, rfl⟩, rfl, rfl⟩ := run
    have hran := ranLocal_of_resolveConst hp hf hpend.head hconst
    obtain ⟨d', hd', hs⟩ := hran.resolved
    obtain rfl := hd.some_unique hd'
    exact ⟨.const hran hd hT, hran.ready.defineConst hd (by simp [hs]) hT⟩

theorem stepStmt_of_stmtRule (hfit : Fit p s (.stmt x))
    (run : stmtRule (stmtWithin n) x s = .ok () s') :
    StepStmt p (RanStmt p n) s x s' ∧ Ready p s' := by
  simp only [stmtRule, bind_eq_ok, ask_eq_ok, Arena.fetch_ok, updateStmt_eq_ok] at run
  obtain ⟨m, _, ⟨hm, hs⟩, kind', s1, hkind, m', hm', rfl⟩ := run
  rw [hs] at hkind
  have hpm : p.stmts.get? x = some m := Eq.trans (hfit.same _ mem_region_self).symm hm
  have hpend := hfit.pending hp
  rw [parts_stmt hpm] at hpend
  obtain ⟨hstep, hr⟩ := stepKind_of_stmtKind hp hf hw hfit.ready hpend hkind
  have hchanges := hstep.changes (D := {y | y ≠ .stmt x}) (fun y hy z hz hzx => ?_)
    fun z hz hzx => hfit.not_waiting mem_region_self (hzx ▸ hz)
  · have hstill : s1.program.stmts.get? x = some m :=
      Eq.trans (hchanges.same (x := .stmt x) fun hne => hne rfl) hm
    obtain rfl := hstill.some_unique hm'
    refine ⟨.mk hpm hstep hstill, hr.added, hr.bound, fun y hy => ?_⟩
    have hsame := hr.waiting y hy
    cases y with
    | stmt => exact absurd hy stmt_not_mem_waiting
    | _ => exact hsame
  · refine hfit.loose.not_mem ?_ (hzx ▸ hz)
    rwa [parts_stmt hpm]

end

theorem walks (hp : p.TreeShaped) (hf : Fresh p) (n : Nat) : Walks p n := by
  induction n with
  | zero =>
    intro s x s' hfit run
    simp [stmtWithin, outOfDepth] at run
  | succ n ih =>
    intro s x s' hfit run
    have hx : .stmt x ∈ p.work s.program (.stmt x) := .inl mem_region_self
    have hm := (Moves.stmtWithin (n + 1) hx).of_ok (.refl (hfit.closed hf)) run
    exact ⟨run, hfit, hm.1, (stepStmt_of_stmtRule hp hf ih hfit run).2⟩

theorem RanStmt.step (hp : p.TreeShaped) (hf : Fresh p) (h : RanStmt p (n + 1) s x s') :
    StepStmt p (RanStmt p n) s x s' := (stepStmt_of_stmtRule hp hf (walks hp hf n) h.fit h.run).1

theorem not_ranStmt_zero : ¬ RanStmt p 0 s x s' := fun h => by
  have := h.run
  simp [stmtWithin, outOfDepth] at this

end Ci
