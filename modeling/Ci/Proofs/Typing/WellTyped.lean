-- What has been checked of a whole program. Statements are checked in the method whose
-- body holds them, so what they return is compared with the type of that method. A
-- program that is resolved without an error is well typed, by the types that it records.
import Ci.Proofs.Typing.Expressions
import Ci.Proofs.Work.Remains

namespace Ci

open Pass Arena

variable {p q : Program} {n : Nat} {s s1 s2 s3 s' t : State} {e e' : ExprId} {k : ConstId}
  {x : StmtId} {m : MethodId} {d : Method} {ty : Ty} {E : Option ExprId → Prop}
  {written : Option Ty} {value' : Option ExprId} {c : ClassId}

section

variable (hp : p.TreeShaped) (hf : Fresh p)

include hp hf

/-! ## Constants -/

/-- What is recorded of a constant once it has been visited. -/
theorem constRecords_of_visit {d : Const} {t1 t2 : State}
    (type : Written p n s d.typeExpr written t1)
    (value : Valued p n k d written t1 ty value' t2)
    (still : t2.program.consts.get? k = some (d.visit d.value))
    (hl : Lasts (t2.setConst k { d with
      status := .resolved, value := value', ty := some ty }).program q) :
    q.ConstRecords { d with status := .resolved, value := value', ty := some ty } := by
  have hback : Lasts t2.program q :=
    .trans (.setConst still (by simp [Const.visit]) value.kept) hl
  have hwritten : ∀ x ∈ d.typeExpr, ∃ u, written = some u ∧ q.ty? x = some u := by
    intro x hx
    rw [Option.mem_def.1 hx] at type
    have hfrom := (value.lasts hf).trans hback
    cases type with
    | some run =>
      cases n with
      | zero => exact absurd run not_ranType_zero
      | succ => exact ⟨_, rfl, (run.step hp hf).ty? hp hf run.fit hfrom⟩
  cases value with
  | @enumNone _ owner =>
    refine ⟨rfl, by simp [owner, Owner.isEnum], fun c' hc' => ?_⟩
    rw [Owner.enumDecl.inj (owner.symm.trans hc')]
    exact ⟨rfl, by simp⟩
  | @enum _ _ _ got _ owner _ run gotten fits =>
    refine ⟨rfl, by simp [owner, Owner.isEnum], fun c' hc' => ?_⟩
    rw [Owner.enumDecl.inj (owner.symm.trans hc')] at fits ⊢
    refine ⟨rfl, fun e he => ?_⟩
    obtain rfl := Option.mem_some.1 he
    have hsettled := run.settled hp hf
    exact ⟨hsettled.later hback, got, hsettled.whole.ty? hback gotten, fits⟩
  | @plain x x' _ _ owner value run gotten declared constant =>
    have hsettled := run.settled hp hf
    -- the test is made while the value is put back
    have hput : Lasts t2.program (t2.setConst k (d.visit (some x'))).program :=
      .setConst still (by simp [Const.visit]) ⟨rfl, fun _ _ => .inl rfl⟩
    have hself : (t2.setConst k (d.visit (some x'))).program.consts.get? k = _ :=
      Arena.get?_set_self still
    have hset := Lasts.setConst (k := k) hself (by simp [Const.visit]) (by
      exact ⟨rfl, fun c hc => absurd hc (owner c)⟩ : Const.Kept _ { d with
        status := .resolved, value := some x', ty := some ty })
    rw [setConst_setConst] at hset
    have hlater := hset.trans hl
    have hwhole := hsettled.whole.later hput
    refine ⟨rfl, fun _ => ⟨x', ty, rfl, hwhole.constantValue hlater constant, hsettled.later hback,
      hsettled.whole.ty? hback gotten, rfl, fun x hx => ?_⟩, fun c hc => absurd hc (owner c)⟩
    obtain ⟨u, hu, hx⟩ := hwritten x hx
    refine ⟨u, hx, fun ha => ?_⟩
    obtain ⟨got, hgot, hass⟩ := (declared u hu ha).fits hwhole hlater
    obtain rfl := (hsettled.whole.ty? hback gotten).some_unique hgot
    exact hass

/-- What a constant holds once it has been visited. -/
theorem sound_of_visit {d : Const} {t1 t2 : State}
    (type : Written p n s d.typeExpr written t1) (value : Valued p n k d written t1 ty value' t2)
    (still : t2.program.consts.get? k = some (d.visit d.value))
    (hl : Lasts (t2.setConst k { d with
      status := .resolved, value := value', ty := some ty }).program q) : q.Sound E (.const k) := by
  have hk : q.consts.get? k = some { d with
      status := .resolved, value := value', ty := some ty } :=
    hl.consts k _ (Arena.get?_set_self still) rfl
  have hback : Lasts t2.program q := by
    refine Lasts.trans ?_ hl
    exact .setConst still (by simp [Const.visit]) value.kept
  have htype : ∀ e ∈ d.typeExpr, q.Sound E (.type e) := by
    intro e he
    rw [Option.mem_def.1 he] at type
    cases type with
    | some run => exact run.sound hp hf ((value.lasts hf).trans hback)
  have hvalue : ∀ e ∈ value', q.Sound E (.value e) := by
    intro e he
    cases value with
    | enumNone => simp at he
    | enum _ _ run =>
      obtain rfl := Option.mem_some.1 he
      exact run.sound hp hf hback
    | plain _ _ run =>
      obtain rfl := Option.mem_some.1 he
      exact run.sound hp hf hback
  refine .intro ⟨trivial, trivial, _, hk, constRecords_of_visit hp hf type value still hl⟩
    fun b hb => ?_
  simp only [Program.holds, hk, Option.elim_some, List.mem_append, List.mem_map, Option.mem_toList]
    at hb
  rcases hb with ⟨e, he, rfl⟩ | ⟨e, he, rfl⟩
  · exact htype e he
  · exact hvalue e he

theorem RanLocal.sound (h : RanLocal p s k s') (hl : Lasts s'.program q) :
    q.Sound E (.const k) := by
  obtain ⟨n, hstep⟩ := h.step hp hf
  cases hstep with
  | @skipped d _ found =>
    have hd : p.consts.get? k = some d := Eq.trans (h.fit.same _ Program.mem_region_self).symm found
    have := hf.consts d (mem_toList_of_get? hd)
    simp_all
  | visited _ _ _ _ type value still =>
    exact sound_of_visit hp hf type value still hl

/-- Every constant that is resolved before the bodies fits. -/
theorem Phases.sound_const (h : Phases p s1 s2 s3 s') (hk : p.Declares k)
    (hl : Lasts s2.program q) : q.Sound E (.const k) := by
  set Φ : ConstId → Program → Prop := fun k r => ∀ q, Lasts r q → q.Sound E (.const k)
  have hstable : ∀ k r r', Lasts r r' → Φ k r → Φ k r' :=
    fun k r r' hr hk q hq => hk q (hr.trans hq)
  have htold : Told Φ s2 := (Told.phases hstable hp hf
    (fun _ _ type value still _ q hq => sound_of_visit hp hf type value still hq) h).2.1
  obtain ⟨d, hd, hs⟩ := h.const_resolved hf hk
  exact htold k d hd hs q hl

/-! ## Statements -/

/-- The conditions of a loop are truth values. -/
theorem RanList.conditionsFit {es es' : List ExprId} (h : RanConds p s es es' s')
    (hl : Lasts s'.program q) : ∀ e ∈ es', q.ty? e = some .bool := by
  induction h with
  | nil => simp
  | cons first holds rest ih =>
    have hlater := (rest.lasts hf).trans hl
    exact List.forall_mem_cons.2 ⟨(holds.fits (first.settled hp hf).whole hlater).bool, ih hl⟩

section

variable (hd : d.ty ≠ none)
  (ih : ∀ {s x s'}, InBody m d s → Rested p q n s x s' → q.Sound E (.stmt x))

include hd ih

omit hp in
theorem RanAll.sound {xs : List StmtId} (hin : InBody m d s) (h : RanAll (Rested p q n) s xs s') :
    ∀ x ∈ xs, q.Sound E (.stmt x) := by
  induction h with
  | nil => simp
  | cons first _ ihr => exact List.forall_mem_cons.2 ⟨ih hin first, ihr (hin.rested hf hd first)⟩

theorem RanCases.sound {cases cases' : List Case} (hin : InBody m d s)
    (h : RanCases p (Rested p q n) s cases cases' s') (hl : Lasts s'.program q) :
    (∀ y ∈ cases'.flatMap Case.parts, q.Sound E y.site) ∧ InBody m d s' := by
  induction h with
  | nil => exact ⟨by simp, hin⟩
  | @cons _ _ _ _ _ values' _ _ labels body rest ihr =>
    have hlabels := hin.list hf hd labels
    obtain ⟨hrest, hin'⟩ := ihr (hlabels.all hf hd body) hl
    have hlater := (rest.lasts hf fun _ _ _ h => h.1.lasts hf).trans hl
    have hvalues : ∀ e ∈ values', q.Sound E (.value e) :=
      labels.sound hf (fun run hl => run.sound hp hf hl)
        ((RanAll.lasts (fun _ _ _ h => h.1.lasts hf) body).trans hlater)
    have hbody := RanAll.sound hf hd ih hlabels body
    simp only [List.flatMap_cons, Case.parts, List.forall_mem_append, List.forall_mem_map]
    exact ⟨⟨⟨hvalues, hbody⟩, hrest⟩, hin'⟩

/-- What the rule for a statement has checked, and what it has resolved. -/
theorem StepKind.sound {kind kind' : Stmt} (hE : ∀ value, q.ReturnFits d.ty value → E value)
    (hin : InBody m d s) (h : StepKind p (Rested p q n) s kind kind' s')
    (hl : Lasts s'.program q) :
    q.StmtFits kind' ∧ (∀ value, kind' = .ret value → E value) ∧
      ∀ y ∈ kind'.parts, q.Sound E y.site := by
  have hran : ∀ {n s e e' s'}, Ran p n s e e' s' → Lasts s'.program q → q.Sound E (.value e') :=
    fun run hl => run.sound hp hf hl
  have hcond : ∀ {n s e e' s'}, Ran p n s e e' s' → Coerces s'.program e' .bool →
      Lasts s'.program q → q.ty? e' = some .bool :=
    fun run hc hl => (hc.fits (run.settled hp hf).whole hl).bool
  have hall : ∀ {s xs s'}, RanAll (Rested p q n) s xs s' → Lasts s.program s'.program :=
    fun h => RanAll.lasts (fun _ _ _ h => h.1.lasts hf) h
  obtain ⟨ty, hty⟩ := Option.ne_none_iff_exists'.1 hd
  cases h with
  | @block _ _ walk =>
    have hin1 : InBody m d (s.deeper .block) := hin
    refine ⟨trivial, by simp, ?_⟩
    simp only [Stmt.parts, List.forall_mem_map]
    exact RanAll.sound hf hd ih hin1 walk
  | ifThen condition boolean onTrue onFalse =>
    have h1 := (onTrue.1.lasts hf).trans ((hall onFalse).trans hl)
    have hin1 := hin.ran hf hd condition
    refine ⟨hcond condition boolean h1, by simp, ?_⟩
    simp only [Stmt.parts, List.forall_mem_cons, List.forall_mem_map]
    exact ⟨hran condition h1, ih hin1 onTrue,
      RanAll.sound hf hd ih (hin1.rested hf hd onTrue) onFalse⟩
  | @whileLoop _ _ _ s1 _ condition boolean walk =>
    have h1 : Lasts (s1.breakable .loop).program q := (walk.1.lasts hf).trans hl
    have hin1 : InBody m d s1 := hin.ran hf hd condition
    refine ⟨hcond condition boolean h1, by simp, ?_⟩
    simp only [Stmt.parts, List.forall_mem_cons, List.not_mem_nil, false_imp_iff, implies_true]
    exact ⟨hran condition h1, ih (s := s1.breakable .loop) hin1 walk, trivial⟩
  | @doWhile _ _ _ _ _ walk condition boolean =>
    refine ⟨hcond condition boolean hl, by simp, ?_⟩
    simp only [Stmt.parts, List.forall_mem_cons, List.not_mem_nil, false_imp_iff, implies_true]
    exact ⟨ih (s := s.breakable .loop) hin walk, hran condition hl, trivial⟩
  | @forLoop _ _ _ _ _ _ _ _ _ t3 _ first condition step walk =>
    have h3 : Lasts (t3.breakable .loop).program q := (walk.1.lasts hf).trans hl
    have h2 := (step.lasts hf).trans h3
    have h1 := (condition.lasts hf).trans h2
    have hin0 : InBody m d (s.deeper .forHead) := hin
    have hin3 := ((hin0.list hf hd first).list hf hd condition).list hf hd step
    refine ⟨fun e he => condition.conditionsFit hp hf h2 e (Option.mem_toList.2 he), by simp, ?_⟩
    simp only [Stmt.parts, List.map_append, List.forall_mem_append, List.forall_mem_map,
      List.forall_mem_singleton]
    exact ⟨⟨⟨first.sound hf hran h1, condition.sound hf hran h2⟩, step.sound hf hran h3⟩,
      ih (s := t3.breakable .loop) hin3 walk⟩
  | @switch _ _ _ _ _ s1 t1 _ subject walk last =>
    have hin1 : InBody m d s1 := hin.ran hf hd subject
    have h1 : Lasts t1.program q := (hall last).trans hl
    obtain ⟨hcases, hin2⟩ :=
      walk.sound hp hf hd ih (s := (s1.deeper .switch).breakable .switch) hin1 h1
    have hwalk : Lasts ((s1.deeper .switch).breakable .switch).program q :=
      (walk.lasts hf fun _ _ _ h => h.1.lasts hf).trans h1
    refine ⟨trivial, by simp, ?_⟩
    simp only [Stmt.parts, List.forall_mem_cons, List.forall_mem_append, List.forall_mem_map]
    exact ⟨hran subject hwalk, hcases, RanAll.sound hf hd ih hin2 last⟩
  | ret returns some result fits =>
    have heq := hin.returnTy returns
    rw [hty, Option.getD_some] at heq
    subst heq
    refine ⟨trivial, ?_, ?_⟩
    · rintro _ ⟨rfl⟩
      exact hE _ ⟨ty, hty, some, fits.fits (result.settled hp hf).whole hl⟩
    · simpa [Stmt.parts, Node.site] using hran result hl
  | retNone returns =>
    have heq := hin.returnTy returns
    rw [hty, Option.getD_some] at heq
    refine ⟨trivial, ?_, by simp [Stmt.parts]⟩
    rintro _ ⟨rfl⟩
    exact hE _ (hty.trans (congrArg _ heq))
  | leave => exact ⟨trivial, by simp, by simp [Stmt.parts]⟩
  | next => exact ⟨trivial, by simp, by simp [Stmt.parts]⟩
  | throw text fits =>
    refine ⟨fits.fits (text.settled hp hf).whole hl, by simp, ?_⟩
    simpa [Stmt.parts, Node.site] using hran text hl
  | delete pointer =>
    refine ⟨trivial, by simp, ?_⟩
    simpa [Stmt.parts, Node.site] using hran pointer hl
  | expr result =>
    refine ⟨trivial, by simp, ?_⟩
    simpa [Stmt.parts, Node.site] using hran result hl
  | const walk =>
    refine ⟨trivial, by simp, ?_⟩
    simpa [Stmt.parts, Node.site] using walk.sound hp hf hl

end

/-- Everything fits in a statement of a body, and what it returns fits its method. -/
theorem Rested.sound (hd : d.ty ≠ none) (hin : InBody m d s) (h : Rested p q n s x s') :
    q.Sound (q.ReturnFits d.ty) (.stmt x) := by
  induction n generalizing s x s' with
  | zero =>
    have hrun := h.1.run
    simp [Resolve.stmtWithin, Resolve.outOfDepth] at hrun
  | succ n ih =>
    obtain ⟨node, kind', s1, hnode, hkind, rfl, -, hx⟩ := h.step hf hp
    have hl : Lasts s1.program q := Lasts.setStmt.trans h.2.lasts
    obtain ⟨hfits, hret, hparts⟩ := hkind.sound hp hf hd ih (fun _ => id) hin hl
    refine .intro ⟨fun n hn => ?_, fun n value hn hk => ?_, trivial⟩ fun b hb => ?_
    · obtain rfl := hx.some_unique hn
      exact hfits
    · obtain rfl := hx.some_unique hn
      exact hret value hk
    · simp only [Program.holds, Program.parts_stmt hx, List.mem_map] at hb
      obtain ⟨y, hy, rfl⟩ := hb
      exact hparts y hy

/-! ## Members -/

theorem RanField.sound {f : FieldId} (h : RanField p s f s') (hl : Lasts s'.program q) :
    q.Sound E (.field f) := by
  obtain @⟨d, ty, s1, found, run, still⟩ := h
  have hfield : q.fields.get? f = some { d with ty := some ty } :=
    hl.fields f _ (Arena.get?_set_self still) (by simp)
  have hback : Lasts s1.program q := by
    refine Lasts.trans ?_ hl
    exact .setField still (hf.fields d (mem_toList_of_get? found))
  refine .intro ⟨trivial, trivial, trivial⟩ ?_
  simpa [Program.holds, hfield] using run.sound hp hf hback

theorem RanParam.sound {v : VarId} (h : RanParam p s v s') (hl : Lasts s'.program q) :
    q.Sound E (.param v) := by
  obtain @⟨d, ty, s1, found, run, still⟩ := h
  have hvar : q.vars.get? v = some { d with ty := some ty } :=
    hl.vars v _ (Arena.get?_set_self still) (by simp)
  have hback : Lasts s1.program q := by
    refine Lasts.trans ?_ hl
    exact .setVar still (hf.vars d (mem_toList_of_get? found)) rfl
  refine .intro ⟨trivial, trivial, trivial⟩ ?_
  simpa [Program.holds, hvar] using run.sound hp hf hback

theorem RanSignature.sound (h : RanSignature p s m s') (hl : Lasts s'.program q)
    (hd : p.methods.get? m = some d) :
    (∀ e ∈ d.typeExpr, q.Sound E (.type e)) ∧ ∀ v ∈ d.params, q.Sound E (.param v) := by
  obtain @⟨d', ty, s1, s2, found, result, still, params⟩ := h
  obtain rfl := hd.some_unique found
  have hparams : ∀ s v s', RanParam p s v s' → Lasts s.program s'.program :=
    fun _ _ _ h => (h.proceeds hf).lasts
  have hback : Lasts s1.program q := by
    refine Lasts.trans ?_ ((params.lasts hparams).trans hl)
    exact .setMethod still (hf.methods d (mem_toList_of_get? found)) rfl
  refine ⟨fun e he => ?_, fun v hv => ?_⟩
  · rw [Option.mem_def.1 he] at result
    cases result with
    | some run => exact run.sound hp hf hback
  · obtain ⟨a, b, -, hab, hb⟩ := params.turn hparams hv
    exact hab.sound hp hf (hb.trans hl)

/-- Everything fits in a method, and what its body returns fits its type. -/
theorem RestedMethod.sound {file : FileId} {i : ScopeId} (h : RestedMethod p q file i s m s')
    (hsignature : ∀ E d, p.methods.get? m = some d →
      (∀ e ∈ d.typeExpr, q.Sound E (.type e)) ∧ ∀ v ∈ d.params, q.Sound E (.param v)) :
    q.Recorded (.method m) := by
  obtain ⟨hran, hq⟩ := h
  have hparts : ∃ d : Method, q.methods.get? m = some d ∧
      ∀ b ∈ q.holds (.method m), q.Sound (q.ReturnFits d.ty) b := by
    have hsound : ∀ {d ty}, p.methods.get? m = some d →
        q.methods.get? m = some { d with ty := some ty } →
        (∀ x ∈ d.body, q.Sound (q.ReturnFits (some ty)) (.stmt x)) →
        ∀ b ∈ q.holds (.method m), q.Sound (q.ReturnFits (some ty)) b := by
      intro d ty hd hd' hbody b hb
      obtain ⟨htype, hparam⟩ := hsignature (q.ReturnFits (some ty)) d hd
      simp only [Program.holds, hd', Option.elim_some, List.mem_append, List.mem_map,
        Option.mem_toList] at hb
      rcases hb with (⟨e, he, rfl⟩ | ⟨v, hv, rfl⟩) | ⟨x, hx, rfl⟩
      · exact htype e he
      · exact hparam v hv
      · exact hbody x hx
    cases hran with
    | @abstract _ _ found signed body =>
      obtain ⟨d', hd', -, hsame⟩ := hq.lasts.methods m _ signed
      rw [hsame (by simp)] at hd'
      exact ⟨_, hd', hsound found hd' (by simp [body])⟩
    | @body d ty b _ t2 _ found signed body params run =>
      obtain ⟨T, rfl, -⟩ := params.params (p := p)
      have hin : InBody m { d with ty := some ty }
          { s.enterMethod file i m with table := T } := ⟨rfl, signed⟩
      have hpart : .stmt b ∈ p.region (.method m) :=
        Program.part_mem_region (by simp [Program.parts, found, Method.parts, body])
      have hrest : Rested p q _ _ b t2 := ⟨run, hq.part hpart⟩
      obtain ⟨d', hd', -, hsame⟩ := ((run.lasts hf).trans hq.lasts).methods m _ signed
      rw [hsame (by simp)] at hd'
      refine ⟨_, hd', hsound found hd' fun x hx => ?_⟩
      obtain rfl := body.some_unique hx
      exact hrest.sound hp hf (by simp) hin
  obtain ⟨d, hd, hheld⟩ := hparts
  refine .intro ⟨fun d' hd' => ?_, trivial⟩ fun b hb => (hheld b hb).recorded
  obtain rfl := hd.some_unique hd'
  exact .intro trivial fun b hb => (hheld b hb).mono fun _ h => h.2.1

theorem RanTypes.sound {d : ClassDecl} (h : RanTypes p s c s')
    (hd : s.program.classes.get? c = some d) (hl : Lasts s'.program q) :
    (∀ f ∈ d.fields, q.Sound E (.field f)) ∧ ∀ m ∈ d.methods, ∀ dm, p.methods.get? m = some dm →
        (∀ e ∈ dm.typeExpr, q.Sound E (.type e)) ∧ ∀ v ∈ dm.params, q.Sound E (.param v) := by
  obtain @⟨d', i, t1, t2, decl, found, fields, methods⟩ := h
  obtain rfl := hd.some_unique decl
  have hmethods : ∀ s m s', RanSignature p s m s' → Lasts s.program s'.program :=
    fun _ _ _ h => (h.proceeds hf).lasts
  refine ⟨fun f hmem => ?_, fun m hmem dm hdm => ?_⟩
  · obtain ⟨a, b, -, hab, hb⟩ := fields.turn (fun _ _ _ h => (h.proceeds hf).lasts) hmem
    exact hab.sound hp hf (hb.trans ((methods.lasts hmethods).trans hl))
  · obtain ⟨a, b, -, hab, hb⟩ := methods.turn hmethods hmem
    exact hab.sound hp hf (hb.trans hl) hdm

theorem RestedCode.sound {d : ClassDecl} (h : RestedCode p q s c s')
    (hd : s.program.classes.get? c = some d)
    (hsignatures : ∀ m ∈ d.methods, ∀ E dm, p.methods.get? m = some dm →
      (∀ e ∈ dm.typeExpr, q.Sound E (.type e)) ∧ ∀ v ∈ dm.params, q.Sound E (.param v)) :
    ∀ m ∈ d.methods, q.Recorded (.method m) := by
  obtain @⟨d', i, _, decl, found, methods⟩ := h
  obtain rfl := hd.some_unique decl
  intro m hm
  obtain ⟨a, b, -, hab, -⟩ := methods.turn (fun _ _ _ h => (h.1.proceeds hf).lasts) hm
  exact hab.sound hp hf (hsignatures m hm)

/-! ## Programs -/

namespace Phases

variable (h : Phases p s1 s2 s3 s')

include h

theorem recorded_const (hk : p.Declares k) : s'.program.Recorded (.const k) := by
  have hlasts := ((h.proceeds_types hf).trans (h.proceeds_code hf)).lasts
  exact (h.sound_const (E := fun _ => True) hp hf hk hlasts).recorded

theorem recorded_class {d : ClassDecl} (hd : s'.program.classes.get? c = some d) :
    s'.program.Recorded (.classDecl c) := by
  have hd3 : s3.program.classes.get? c = some d := by rw [← (h.proceeds_code hf).lasts.classes, hd]
  have hd2 : s2.program.classes.get? c = some d := by
    rw [← (h.proceeds_types hf).lasts.classes, hd3]
  have hd1 : s1.program.classes.get? c = some d := by
    rw [← (h.consts.proceeds hf).lasts.classes, hd2]
  obtain ⟨d0, base, hd0, hdecl⟩ := h.linked.exists_decl hd1
  have hmem := h.ordered.mem_iff.2 (mem_handles.2 (lt_size_of_get? hd0))
  obtain ⟨a, b, ha, hab, hb⟩ := h.types.turn (fun _ _ _ h => (h.proceeds hf).lasts) hmem
  have hmembers := fun E => hab.sound (E := E) hp hf (d := d) (by rw [ha.classes, hd2])
    (hb.trans (h.proceeds_code hf).lasts)
  obtain ⟨a', b', ha', hcode, -⟩ := (h.rested hp hf).turn (fun _ _ _ h => h.lasts hf) hmem
  have hmethods := hcode.sound hp hf (d := d) (by rw [ha'.classes, hd3])
    fun m hm E => (hmembers E).2 m hm
  refine .intro ⟨trivial, trivial⟩ ?_
  simp only [Program.holds, Program.parts, hd, Option.elim_some, ClassDecl.parts, List.map_append,
    List.forall_mem_append, List.forall_mem_map]
  refine ⟨⟨fun k hk => h.recorded_const hp hf (.inr (.inl ⟨c, d0, hd0, ?_⟩)), fun f hf => ?_⟩,
    hmethods⟩
  · rw [hdecl] at hk
    exact hk
  · exact ((hmembers fun _ => True).1 f hf).recorded

/-- Everything fits in the program that comes out of the pass, by what is recorded. -/
theorem recorded {a : Site} (ha : s'.program.Reachable a) :
    s'.program.Checked a ∧ s'.program.Records a := by
  obtain ⟨root, hroot, hholds⟩ := ha
  obtain ⟨classes, ordered, hprogram⟩ := h.linked.program
  suffices s'.program.Recorded root from this a hholds
  simp only [Program.roots, List.mem_append, List.mem_map, mem_handles] at hroot
  rcases hroot with (⟨c, hc, rfl⟩ | ⟨e, he, rfl⟩) | ⟨k, hk, rfl⟩
  · obtain ⟨d, hd⟩ := exists_get? hc
    exact h.recorded_class hp hf hd
  · obtain ⟨d, hd⟩ := exists_get? he
    have henums : s'.program.enums = p.enums := by rw [(h.proceeds hf).lasts.enums, hprogram]
    refine .intro ⟨trivial, trivial⟩ ?_
    simp only [Program.holds, Program.parts, hd, Option.elim_some, EnumDecl.parts,
      List.forall_mem_map]
    exact fun k hk => h.recorded_const hp hf (.inr (.inr ⟨e, d, henums ▸ hd, hk⟩))
  · refine h.recorded_const hp hf (.inl ?_)
    rwa [(h.proceeds hf).globals, hprogram] at hk

theorem checked {a : Site} (ha : s'.program.Reachable a) : s'.program.Checked a :=
  (h.recorded hp hf ha).1

end Phases

end

/-- A program that is resolved without an error is well typed: wherever types have to fit, those
that are recorded do. -/
theorem resolve_wellTyped (p : Program) (hp : p.TreeShaped) (hf : Fresh p)
    (h : p.resolve.abort = none) (a : Site) (ha : p.resolve.program.Reachable a) :
    p.resolve.program.Checked a := by
  obtain ⟨s', hrun, hprogram⟩ := run_of_resolve h
  obtain ⟨_, _, _, _, -, -, -, -, hphases⟩ := phases_of_run hp hf hrun
  rw [hprogram] at ha ⊢
  exact hphases.checked hp hf ha

theorem Program.CallFits.of_checked {callee : ExprId} {args : List ExprId}
    (h : q.Checked (.value e))
    (hk : (q.exprs.get? e).map (·.kind) = some (.binary .call callee (.args args))) :
    q.CallFits callee args := by
  obtain ⟨n, hn, hk⟩ := Option.map_eq_some_iff.1 hk
  have hfits := h n hn
  rwa [hk] at hfits

/-- A meter that adds a step to its total and calls itself with the result. -/
def meter : Program :=
  let expr (kind : Expr) : ExprNode := ⟨kind, 1, none⟩
  let name (text : String) : ExprNode := expr (.name text none)
  { Program.empty with
    exprs := .ofList [name "int", name "int", name "int", name "int", name "total", name "step",
      expr (.binary (.arith .add) ⟨4⟩ (.expr ⟨5⟩)), expr (.var ⟨1⟩), name "total", name "next",
      expr (.binary .assign ⟨8⟩ (.expr ⟨9⟩)), name "add", name "next",
      expr (.binary .call ⟨11⟩ (.args [⟨12⟩]))]
    stmts := .ofList [⟨.expr ⟨7⟩, 1⟩, ⟨.expr ⟨10⟩, 2⟩, ⟨.ret (some ⟨13⟩), 3⟩,
      ⟨.block [⟨0⟩, ⟨1⟩, ⟨2⟩], 4⟩]
    classes := .ofList [⟨"Meter", ⟨0⟩, 1, false, .normal, none, none, [], [⟨0⟩], [⟨0⟩], .unvisited⟩]
    fields := .ofList [⟨"total", 1, .hidden, ⟨0⟩, none⟩]
    methods := .ofList [⟨"add", 1, .hidden, .normal, true, some ⟨1⟩, [⟨0⟩], some ⟨3⟩, none⟩]
    vars := .ofList [⟨"step", 1, ⟨2⟩, none, none⟩, ⟨"next", 1, ⟨3⟩, some ⟨6⟩, none⟩] }

theorem meter_wellTyped :
    meter.TreeShaped ∧ Fresh meter ∧ meter.resolve.abort = none ∧
      meter.resolve.program.Reachable (.value ⟨13⟩) ∧
      meter.resolve.program.CallFits ⟨11⟩ [⟨12⟩] := by
  have hp : meter.TreeShaped := by decide +kernel
  have hf : Fresh meter := by decide +kernel
  have h : meter.resolve.abort = none := by decide +kernel
  have hr : meter.resolve.program.Reachable (.value ⟨13⟩) := by
    have h0 : Site.classDecl ⟨0⟩ ∈ meter.resolve.program.roots := by decide +kernel
    have h1 : Site.method ⟨0⟩ ∈ meter.resolve.program.holds (.classDecl ⟨0⟩) := by decide +kernel
    have h2 : Site.stmt ⟨3⟩ ∈ meter.resolve.program.holds (.method ⟨0⟩) := by decide +kernel
    have h3 : Site.stmt ⟨2⟩ ∈ meter.resolve.program.holds (.stmt ⟨3⟩) := by decide +kernel
    have h4 : Site.value ⟨13⟩ ∈ meter.resolve.program.holds (.stmt ⟨2⟩) := by decide +kernel
    exact ((((Program.Reachable.root h0).tail h1).tail h2).tail h3).tail h4
  have hk : (meter.resolve.program.exprs.get? ⟨13⟩).map (·.kind) =
      some (.binary .call ⟨11⟩ (.args [⟨12⟩])) := by decide +kernel
  exact ⟨hp, hf, h, hr, .of_checked (resolve_wellTyped meter hp hf h (.value ⟨13⟩) hr) hk⟩

end Ci
