-- The whole pass on a program that has come out of it. The names are registered as
-- before, classes and constants are not visited again, and the types and the bodies are
-- found as they were put back.
import Ci.Proofs.Frame.Context
import Ci.Proofs.Idempotence.Statements

namespace Ci

open Pass Resolve Program

variable {α β : Type} {p q : Program} {s s1 s2 s3 s' : State} {k : ConstId} {f : FieldId}
  {m : MethodId}
  {v : VarId} {c : ClassId} {ty : Ty} {ks : List ConstId}

/-! ## Types of members -/

section

variable (hp : p.TreeShaped) (hf : Fresh p)

include hp hf

theorem RanField.again (h : RanField p s f s') (hl : Lasts s'.program q) :
    Again q s s' (resolveField f) () := by
  obtain @⟨d, ty, s1, found, run, still⟩ := h
  have hfield : q.fields.get? f = some { d with ty := some ty } :=
    hl.fields f _ (Arena.get?_set_self still) (by simp)
  have hback : Lasts s1.program q := by
    refine Lasts.trans ?_ hl
    exact .setField still (hf.fields d (Arena.mem_toList_of_get? found))
  have hput : Idle q s (change (·.updateField f fun d => { d with ty := some ty })) () := by
    refine .of_program fun u hu => Pass.updateField_eq_ok.2 ⟨_, hu ▸ hfield, ?_⟩
    exact (by rw [State.setField, Arena.set_get? (hu ▸ hfield)])
  have hfetch : Idle q s (ask (·.fields.fetch f)) { d with ty := some ty } :=
    .ask (Arena.fetch_ok.2 hfield)
  exact (hfetch.bind ((run.resolve_idle hp hf hback).bind hput)).again
    (run.grows.trans (.set_program _ _))

theorem RanParam.again (h : RanParam p s v s') (hl : Lasts s'.program q) :
    Again q s s' (resolveParam v) () := by
  obtain @⟨d, ty, s1, found, run, still⟩ := h
  have hvar : q.vars.get? v = some { d with ty := some ty } :=
    hl.vars v _ (Arena.get?_set_self still) (by simp)
  have hback : Lasts s1.program q := by
    refine Lasts.trans ?_ hl
    exact .setVar still (hf.vars d (Arena.mem_toList_of_get? found)) rfl
  have hfetch : Idle q s (ask (·.vars.fetch v)) { d with ty := some ty } :=
    .ask (Arena.fetch_ok.2 hvar)
  exact (hfetch.bind ((run.resolve_idle hp hf hback).bind (.updateVar hvar rfl))).again
    (run.grows.trans (.set_program _ _))

theorem Returned.again {te : Option ExprId} (h : Returned p s te ty s') (hl : Lasts s'.program q) :
    Again q s s' (resolveReturn te) ty := by
  cases h with
  | none => exact Idle.pure.again (.refl _)
  | some run => exact (run.resolve_idle hp hf hl).again run.grows

omit hp hf in
/-- A loop, each turn of which does again what it has done. -/
theorem RanAll.forM_again {ι : Type} {R : State → ι → State → Prop}
    {g : ι → Pass Unit} {is : List ι}
    (hl : ∀ s i s', R s i s' → Lasts s.program s'.program)
    (hR : ∀ s i s', R s i s' → Lasts s'.program q → Again q s s' (g i) ())
    (h : RanAll R s is s') (hq : Lasts s'.program q) : Again q s s' (is.forM g) () := by
  induction h with
  | nil => exact Idle.pure.again (.refl _)
  | cons first rest ih => exact (hR _ _ _ first ((rest.lasts hl).trans hq)).bind (ih hq)

theorem RanSignature.again (h : RanSignature p s m s') (hl : Lasts s'.program q) :
    Again q s s' (resolveSignature m) () := by
  obtain @⟨d, ty, s1, s2, found, result, still, params⟩ := h
  have hparams : ∀ s v s', RanParam p s v s' → Lasts s.program s'.program :=
    fun _ _ _ h => (h.proceeds hf).lasts
  have hlater := (params.lasts hparams).trans hl
  obtain ⟨d', hd', -, hsame⟩ := hlater.methods m _ (Arena.get?_set_self still)
  obtain rfl := hsame (by simp)
  have hback : Lasts s1.program q := by
    refine Lasts.trans ?_ hlater
    exact .setMethod still (hf.methods d (Arena.mem_toList_of_get? found)) rfl
  have hfetch : ∀ {s}, Idle q s (ask (·.methods.fetch m)) { d with ty := some ty } :=
    .ask (Arena.fetch_ok.2 hd')
  have hput : Idle q s1 (change (·.updateMethod m fun d => { d with ty := some ty })) () := by
    refine .of_program fun u hu => Pass.updateMethod_eq_ok.2 ⟨_, hu ▸ hd', ?_⟩
    exact (by rw [State.setMethod, Arena.set_get? (hu ▸ hd')])
  have hloop := params.forM_again hparams (fun _ _ _ h => h.again hp hf) hl
  refine hfetch.bind_again
    ((result.again hp hf hback).bind (hput.bind_again (hfetch.bind_again ?_)))
  exact hloop.widen (.set_program _ _) (.refl _)

theorem RanTypes.again (h : RanTypes p s c s') (hl : Lasts s'.program q) :
    Again q s s' (resolveTypes c) () := by
  obtain @⟨d, i, t1, t2, decl, found, fields, methods⟩ := h
  have hfields : ∀ s f s', RanField p s f s' → Lasts s.program s'.program :=
    fun _ _ _ h => (h.proceeds hf).lasts
  have hmethods : ∀ s m s', RanSignature p s m s' → Lasts s.program s'.program :=
    fun _ _ _ h => (h.proceeds hf).lasts
  have hl1 : Lasts t1.program q := (methods.lasts hmethods).trans hl
  have hdecl : q.classes.get? c = some d := by
    rw [((fields.lasts hfields).trans hl1).classes]
    exact decl
  have hfetch : ∀ {s}, Idle q s (ask (·.classes.fetch c)) d := .ask (Arena.fetch_ok.2 hdecl)
  refine hfetch.bind_again ((Idle.classScope found).bind_again (Again.within ?_))
  exact hfetch.bind_again ((fields.forM_again hfields (fun _ _ _ h => h.again hp hf) hl1).bind
    (hfetch.bind_again (methods.forM_again hmethods (fun _ _ _ h => h.again hp hf) hl)))

/-! ## Bodies -/

omit hp hf in
theorem Mirrors.enterMethod {u : State} (h : Mirrors s u) (file : FileId) (i : ScopeId)
    (m : MethodId) :
    Mirrors (s.enterMethod file i m) (u.enterMethod file i m) := by
  have hadd := (h.add .parameters i).enter (f := file) (g := file) s.table.next
  have hnext : u.table.next = s.table.next := by simp [ScopeTable.next, h.size]
  rw [State.enterMethod, State.enterMethod, hnext]
  exact { hadd with method := rfl }

omit hp hf in
/-- The names of parameters whose types are known are bound again. -/
theorem RanAll.params_again {vs : List VarId} (h : RanAll BoundParam s vs s')
    (hv : ∀ v ∈ vs, ∀ d, s.program.vars.get? v = some d → q.vars.get? v = some d) :
    Again q s s' (vs.forM bindParam) () := by
  induction h with
  | nil => exact Idle.pure.again (.refl _)
  | @cons s _ _ v _ first _ ih =>
    obtain @⟨d, T, found, binds⟩ := first
    have hfetch : Idle q s (ask (·.vars.fetch v)) d :=
      .ask (Arena.fetch_ok.2 (hv v (by simp) d found))
    exact Again.bind (hfetch.bind_again (Again.define binds rfl))
      (ih fun v hmem => hv v (by simp [hmem]))

/-- The types of the parameters of a method are known. -/
def ParamsTyped (p r : Program) (m : MethodId) : Prop :=
  ∀ d, p.methods.get? m = some d → ∀ v ∈ d.params, ∃ dv, r.vars.get? v = some dv ∧ dv.ty ≠ none

omit hp hf in
theorem ParamsTyped.later {r r' : Program} (h : ParamsTyped p r m) (hl : Lasts r r') :
    ParamsTyped p r' m := by
  intro d hd v hv
  obtain ⟨dv, hdv, ht⟩ := h d hd v hv
  exact ⟨dv, hl.vars v dv hdv ht, ht⟩

theorem RestedMethod.again {file : FileId} {i : ScopeId} (h : RestedMethod p q file i s m s')
    (hv : ParamsTyped p s.program m) : Again q s s' (resolveMethod file i m) () := by
  obtain ⟨hran, hq⟩ := h
  have hl := (hran.proceeds hf).lasts.trans hq.lasts
  cases hran with
  | @abstract _ _ _ signed body =>
    obtain ⟨d', hd', -, hsame⟩ := hl.methods m _ signed
    obtain rfl := hsame (by simp)
    refine Idle.again ((Idle.ask (Arena.fetch_ok.2 hd')).bind ?_) (.refl _)
    rw [body]
    exact .pure
  | @body d ty b t1 t2 _ found signed body params run =>
    obtain ⟨d', hd', -, hsame⟩ := hl.methods m _ signed
    obtain rfl := hsame (by simp)
    have hfetch : ∀ {s}, Idle q s (ask (·.methods.fetch m)) { d with ty := some ty } :=
      .ask (Arena.fetch_ok.2 hd')
    have hbind : Again q (s.enterMethod file i m) t1 (d.params.forM bindParam) () := by
      refine params.params_again fun v hmem dv hdv => ?_
      obtain ⟨dv', hdv', ht⟩ := hv d found v hmem
      obtain rfl := hdv'.some_unique hdv
      exact hl.vars v _ hdv' ht
    obtain ⟨T, rfl, -⟩ := params.params (p := p)
    have hin : InBody m { d with ty := some ty } { s.enterMethod file i m with table := T } :=
      ⟨rfl, signed⟩
    have hpart : .stmt b ∈ p.region (.method m) :=
      part_mem_region (by simp [parts, found, Method.parts, body])
    have hrest : Rested p q _ _ b t2 := ⟨run, hq.part hpart⟩
    have hstmt : Again q { s.enterMethod file i m with table := T } t2 (resolveStmt b) () := by
      refine .get fun u hu _ => ?_
      rw [hu]
      refine hrest.again hp hf (by simp) hin (Nat.le_of_eq ?_)
      rw [((run.lasts hf).trans hq.lasts).stmts_size]
    have hcode : Again q (s.enterMethod file i m) t2 (do
        (← ask (·.methods.fetch m)).params.forM bindParam
        resolveStmt b) () := hfetch.bind_again (hbind.bind hstmt)
    refine hfetch.bind_again ?_
    rw [body]
    intro u hu hm
    obtain ⟨w, hw, hwq, hmw⟩ := hcode (u.enterMethod file i m) hu (hm.enterMethod file i m)
    refine ⟨{ w.backTo u with method := none }, ?_, hwq, { hm.backTo hmw with method := rfl }⟩
    exact (Pass.bind_ok (addScope_eq_ok.2 ⟨rfl, rfl⟩)).trans
      (inMethod_eq_ok.2 ⟨_, within_eq_ok.2 ⟨w, hw, rfl⟩, rfl⟩)

theorem RestedCode.again (h : RestedCode p q s c s') (hl : Lasts s'.program q)
    (hv : ∀ d, s.program.classes.get? c = some d → ∀ m ∈ d.methods, ParamsTyped p s.program m) :
    Again q s s' (resolveCode c) () := by
  obtain @⟨d, i, s', decl, found, methods⟩ := h
  have hmethods : ∀ s m s', RestedMethod p q d.file i s m s' → Lasts s.program s'.program :=
    fun _ _ _ h => (h.1.proceeds hf).lasts
  have hdecl : q.classes.get? c = some d := by
    rw [((methods.lasts hmethods).trans hl).classes, decl]
  have hfetch : ∀ {s}, Idle q s (ask (·.classes.fetch c)) d := .ask (Arena.fetch_ok.2 hdecl)
  have hloop : Again q s s' (d.methods.forM (resolveMethod d.file i)) () := by
    replace hv := hv d decl
    clear decl found hdecl hl
    generalize d.methods = ms at methods hv
    induction methods with
    | nil => exact Idle.pure.again (.refl _)
    | cons first _ ih =>
      exact (first.again hp hf (hv _ (by simp))).bind
        (ih fun m hm => (hv m (by simp [hm])).later (hmethods _ _ _ first))
  exact hfetch.bind_again ((Idle.classScope found).bind_again (hfetch.bind_again hloop))

end

/-! ## Names -/

/-- The declarations of two programs have the same names, in the same places. -/
structure SameNames (p q : Program) : Prop where
  size : q.classes.size = p.classes.size
  classes : ∀ c d, p.classes.get? c = some d → ∃ status base,
    q.classes.get? c = some { d with status, base }
  enums : q.enums = p.enums
  globals : q.globals = p.globals
  consts : ∀ k d, p.Declares k → p.consts.get? k = some d →
    ∃ d', q.consts.get? k = some d' ∧ d'.outline = d.outline

/-- A part that does the same on two programs, and changes neither of them. -/
def Carries (p q : Program) (x : Pass α) : Prop :=
  ∀ s a s', s.program = p → x s = .ok a s' →
    s'.program = p ∧ x { s with program := q } = .ok a { s' with program := q }

namespace Carries

variable {x : Pass α} {g : α → Pass β}

theorem bind (hx : Carries p q x) (hg : ∀ a, Carries p q (g a)) : Carries p q (x >>= g) := by
  intro s b s' hs run
  obtain ⟨a, s1, ha, run⟩ := bind_eq_ok.1 run
  obtain ⟨hs1, hx⟩ := hx s a s1 hs ha
  obtain ⟨hs', hg⟩ := hg a s1 b s' hs1 run
  exact ⟨hs', (Pass.bind_ok hx).trans hg⟩

/-- The answers may differ, as long as what follows does not look at that. -/
theorem ask {f : Program → Query α}
    (h : ∀ a, f p = .ok a → ∃ b, f q = .ok b ∧ g b = g a ∧ Carries p q (g a)) :
    Carries p q (Pass.ask f >>= g) := by
  intro s b s' hs run
  obtain ⟨a, s1, ha, hrun⟩ := bind_eq_ok.1 run
  obtain ⟨ha, hs1⟩ := ask_eq_ok.1 ha
  rw [hs1] at hrun
  obtain ⟨a', ha', hga, hg⟩ := h a (hs ▸ ha)
  obtain ⟨hs', hg⟩ := hg s b s' hs hrun
  refine ⟨hs', ?_⟩
  rw [Pass.bind_ok (ask_eq_ok.2 ⟨ha', rfl⟩), hga]
  exact hg

theorem get {g : State → Pass β} (hq : ∀ s, s.program = p → g { s with program := q } = g s)
    (hg : ∀ s, s.program = p → Carries p q (g s)) : Carries p q (MonadState.get >>= g) := by
  intro s b s' hs run
  obtain ⟨hs', hgq⟩ := hg s hs s b s' hs run
  refine ⟨hs', ?_⟩
  rw [← hq s hs] at hgq
  exact hgq

theorem pure {a : α} : Carries p q (pure a) := by
  rintro s b s' hs run
  obtain ⟨rfl, rfl⟩ := pure_eq_ok.1 run
  exact ⟨hs, rfl⟩

theorem modify {f : State → State} (hf : ∀ s, (f s).program = s.program)
    (hq : ∀ s, f { s with program := q } = { f s with program := q }) :
    Carries p q (modify f : Pass PUnit) := by
  rintro s a s' hs run
  obtain rfl := modify_eq_ok.1 run
  exact ⟨(hf s).trans hs, modify_eq_ok.2 (hq s).symm⟩

theorem defineIn {i : ScopeId} {line : UInt32} {name : String} {symbol : Symbol} :
    Carries p q (defineIn i line name symbol) := by
  intro s a s' hs run
  obtain ⟨T, hT, rfl⟩ := defineIn_eq_ok.1 run
  exact ⟨hs, defineIn_eq_ok.2 ⟨T, hT, rfl⟩⟩

theorem addScope {kind : ScopeKind} {parent : ScopeId} : Carries p q (addScope kind parent) := by
  intro s a s' hs run
  obtain ⟨rfl, rfl⟩ := addScope_eq_ok.1 run
  exact ⟨hs, rfl⟩

theorem forM {ι : Type} {f : ι → Pass Unit} {is : List ι} (h : ∀ i ∈ is, Carries p q (f i)) :
    Carries p q (is.forM f) := by
  induction is with
  | nil => exact pure
  | cons i _ ih => exact (h i (by simp)).bind fun _ => ih fun j hj => h j (by simp [hj])

end Carries

theorem SameNames.register (h : SameNames p q) : Carries p q Resolve.register := by
  have hhandles : q.classes.handles = p.classes.handles := by
    rw [Arena.handles, h.size, Arena.handles]
  have hfile : ∀ file, Carries p q (enterFile file) := fun _ =>
    .modify (fun _ => rfl) fun _ => rfl
  have hclass : ∀ c, Carries p q (registerClass c) := by
    intro c
    refine .ask fun d hd => ?_
    obtain ⟨status, base, hd'⟩ := h.classes c d (Arena.fetch_ok.1 hd)
    refine ⟨_, Arena.fetch_ok.2 hd', rfl, (hfile _).bind fun _ => Carries.defineIn.bind fun _ =>
      Carries.addScope.bind fun _ => .modify (fun _ => rfl) fun _ => rfl⟩
  have hconst : ∀ k d, p.Declares k → p.consts.get? k = some d →
      ∃ d', q.consts.get? k = some d' ∧ d'.name = d.name ∧ d'.line = d.line ∧
      d'.owner = d.owner := by
    intro k d hk hd
    obtain ⟨d', hd', ho⟩ := h.consts k d hk hd
    simp only [Const.outline, Const.mk.injEq] at ho
    exact ⟨d', hd', ho.1, ho.2.1, ho.2.2.1⟩
  have henum : ∀ e, Carries p q (registerEnum e) := by
    intro e
    refine .ask fun d hd => ⟨d, by rwa [h.enums], rfl, (hfile _).bind fun _ =>
      Carries.defineIn.bind fun _ => Carries.addScope.bind fun scope =>
        Carries.bind (.modify (fun _ => rfl) fun _ => rfl) fun _ => .forM fun k hk => ?_⟩
    refine .ask fun v hv => ?_
    obtain ⟨v', hv', hname, hline, -⟩ := hconst k v
      (.inr (.inr ⟨e, d, Arena.fetch_ok.1 hd, hk⟩)) (Arena.fetch_ok.1 hv)
    exact ⟨v', Arena.fetch_ok.2 hv', by rw [hname, hline], .defineIn⟩
  have hglobal : ∀ k ∈ p.globals, Carries p q (registerGlobal k) := by
    intro k hk
    refine .ask fun d hd => ?_
    obtain ⟨d', hd', hname, hline, howner⟩ := hconst k d (.inl hk) (Arena.fetch_ok.1 hd)
    refine ⟨d', Arena.fetch_ok.2 hd',
      by rw [hname, hline, howner], Carries.bind ?_ fun _ => .defineIn⟩
    unfold enterOwner
    split
    · exact hfile _
    · exact .pure
  refine Carries.bind (.forM fun _ _ => .defineIn) fun _ => ?_
  refine .get (fun s hs => by simp only [hs, hhandles]) fun s hs =>
    Carries.bind (.forM fun c _ => hclass c) fun _ => ?_
  refine .get (fun s hs => by simp only [hs, h.enums]) fun s hs =>
    Carries.bind (.forM fun e _ => henum e) fun _ => ?_
  exact .get (fun s hs => by simp only [hs, h.globals]) fun s hs => .forM (hs ▸ hglobal)

/-! ## Classes -/

/-- Classes that have been resolved are not visited again. -/
theorem resolveClasses_of_resolved
    (h : ∀ c ∈ s.program.classes.handles, ClassResolved c s ∧ ∃ i, s.classScopes.get? c = some i) :
    resolveClasses s = .ok () s := by
  have hclass : ∀ c ∈ s.program.classes.handles, resolveClass c s = .ok () s := by
    intro c hc
    obtain ⟨⟨d, hd, hs⟩, i, hi⟩ := h c hc
    set t : State := { s with file := d.file, table := s.table.enter i }
    have honce : ∀ body, once (.classDecl c) body t = .ok () t := by
      intro body
      have hstatus : (Visited.classDecl c).status s.program = .ok .resolved :=
        Query.bind_ok.2 ⟨d, Arena.fetch_ok.2 hd, by rw [hs]; rfl⟩
      have hask : ask (Visited.classDecl c).status t = .ok .resolved t := ask_eq_ok.2 ⟨hstatus, rfl⟩
      exact Pass.bind_ok hask
    have hrule : classRule (classWithin s.program.classes.size) c s = .ok () s := by
      refine (Pass.bind_ok (ask_eq_ok.2 ⟨Arena.fetch_ok.2 hd, rfl⟩)).trans
        ((Pass.bind_ok (classScope_eq_ok.2 ⟨hi, rfl⟩)).trans ?_)
      exact within_eq_ok.2 ⟨_, honce _, rfl⟩
    exact hrule
  have hall : ∀ cs : List ClassId, (∀ c ∈ cs, resolveClass c s = .ok () s) →
      cs.forM resolveClass s = .ok () s := by
    intro cs hcs
    induction cs with
    | nil => rfl
    | cons c _ ih =>
      exact forM_cons_eq_ok.2 ⟨s, hcs c (by simp), ih fun c hc => hcs c (by simp [hc])⟩
  exact hall _ hclass

/-! ## The whole pass -/

theorem RanConsts.changes (h : RanConsts p s ks s') : s.program.Changes Set.univ s'.program := by
  induction h with
  | nil => exact .refl _
  | cons first _ ih => exact (first.moves.program.mono (Set.subset_univ _)).trans ih

theorem RanConsts.grows (h : RanConsts p s ks s') : Grows s s' := by
  induction h with
  | nil => exact .refl _
  | cons first _ ih => exact first.grows.trans ih

theorem RanConsts.idle (hp : p.TreeShaped) (hf : Fresh p)
    (h : RanConsts p s ks s') (hl : Lasts s'.program q) :
    ∀ k ∈ ks, Idle q s (resolveConst k) () := by
  induction h with
  | nil => simp
  | @cons _ s1 _ k _ first rest ih =>
    have hlast : Lasts s1.program q := (RanConsts.proceeds hf rest).lasts.trans hl
    refine List.forall_mem_cons.2 ⟨.get fun u hu _ => ?_,
      fun k hk => (ih hl k hk).grows first.grows⟩
    rw [hu]
    exact first.idle hp hf hlast ((first.lasts hf).trans hlast).depth_le

namespace Phases

variable (h : Phases p s1 s2 s3 s') (hf : Fresh p)

include h hf

theorem sameNames : SameNames p s'.program := by
  have hl := (h.proceeds hf).lasts
  obtain ⟨classes, ordered, hprogram⟩ := h.linked.program
  refine ⟨by rw [hl.classes, h.linked.size], fun c d hd => ?_, by rw [hl.enums, hprogram],
    by rw [(h.proceeds hf).globals, hprogram], fun k d hk hd => ?_⟩
  · obtain ⟨base, hbase⟩ := h.linked.decl hd
    exact ⟨.resolved, base, by rw [hl.classes, hbase]⟩
  · have hd1 : s1.program.consts.get? k = some d := by rw [hprogram]; exact hd
    obtain ⟨d', hd', hstep⟩ := h.consts.changes.consts.part k d hd1
    obtain ⟨d'', hd'', hs⟩ := h.const_resolved hf hk
    obtain rfl := hd'.some_unique hd''
    have hlater := ((h.proceeds_types hf).trans (h.proceeds_code hf)).lasts
    exact ⟨d', hlater.consts k d' hd' hs, hstep.outline⟩

omit hf in
/-- Registration finds the scopes that the first run had when its classes were linked. -/
theorem mirrors {s0 : State} (hs0 : Declared p s0) (hplace : SamePlace s0 s1) :
    Mirrors s1 { s0 with program := q } := by
  have hsize : s0.table.scopes.size = s1.table.scopes.size := by
    rw [hs0.size, h.linked.slots, Arena.length_handles, Arena.length_handles]
  refine ⟨hs0.current.trans h.linked.current.symm, hsize, fun i c hc => ?_,
    ⟨_, _, h.linked.root, hs0.root, rfl, fun _ _ hfind _ => hfind⟩, hplace.classScopes.symm,
    hplace.enumScopes.symm,
    hs0.method.trans h.linked.method.symm, hs0.breakables.trans h.linked.breakables.symm⟩
  have hi : i < p.classes.size + p.enums.size + 1 := by
    rw [← h.linked.slots]
    exact (Array.getElem?_eq_some_iff.1 hc).1
  -- the scopes of the classes come after that of the program, and those of the enumerations last
  rcases Nat.eq_zero_or_pos i with rfl | hpos
  · obtain rfl := h.linked.root.some_unique hc
    exact ⟨_, hs0.root, rfl, fun _ hn => hn⟩
  rcases Nat.lt_or_ge i (p.classes.size + 1) with hclass | henum
  · obtain ⟨cls, hcls⟩ := Arena.exists_handle h.linked.classes_nodup (i := i - 1) (by omega)
    obtain ⟨d, hd⟩ := Arena.exists_get? (a := p.classes) (h := cls) (by omega)
    obtain ⟨base, parent, hat, -⟩ := h.linked.resolved hd
    have hslot : i = cls.slot + 1 := by omega
    have hscope := hat.scope
    rw [classSlot, ← hslot, hc] at hscope
    obtain rfl := Option.some.inj hscope
    refine ⟨emptyScope cls, ?_, rfl, fun _ _ => rfl⟩
    rw [hslot]
    exact (hs0.classScope (Arena.lt_size_of_get? hd)).2
  · obtain ⟨e, he⟩ :=
      Arena.exists_handle h.linked.enums_nodup (i := i - p.classes.size - 1) (by omega)
    have hslot : i = p.classes.size + e.slot + 1 := by omega
    have hscope := h.linked.enums e (by omega)
    rw [enumSlot, ← hslot, hc] at hscope
    obtain rfl := Option.some.inj hscope
    refine ⟨p.enumScope e, ?_, rfl, fun _ hn => hn⟩
    rw [hslot]
    exact (hs0.enumScope (by omega)).2

/-- The types of parameters are known before the bodies are resolved. -/
theorem paramsTyped {d : ClassDecl} (hd : s1.program.classes.get? c = some d) (hm : m ∈ d.methods) :
    ParamsTyped p s3.program m := by
  have htypes : ∀ s c s', RanTypes p s c s' → Lasts s.program s'.program :=
    fun _ _ _ h => (h.proceeds hf).lasts
  have hsignature : ∀ s m s', RanSignature p s m s' → Lasts s.program s'.program :=
    fun _ _ _ h => (h.proceeds hf).lasts
  obtain ⟨d0, base, hd0, -⟩ := h.linked.exists_decl hd
  have hmem := h.ordered.mem_iff.2 (Arena.mem_handles.2 (Arena.lt_size_of_get? hd0))
  obtain ⟨a, b, ha, hab, hb⟩ := h.types.turn htypes hmem
  obtain @⟨d', i, t1, t2, decl, found, fields, methods⟩ := hab
  have hda : a.program.classes.get? c = some d := by
    rw [ha.classes, (h.consts.proceeds hf).lasts.classes, hd]
  obtain rfl := hda.some_unique decl
  obtain ⟨a', b', -, hsig, hb'⟩ := methods.turn hsignature hm
  obtain @⟨dm, ty, s4, s5, foundm, result, still, params⟩ := hsig
  intro dm' hdm' v hv
  obtain rfl := foundm.some_unique hdm'
  obtain ⟨a1, b1, -, hparam, hb1⟩ := params.turn (fun _ _ _ h => (h.proceeds hf).lasts) hv
  obtain @⟨dv, tyv, s6, foundv, run, stillv⟩ := hparam
  exact ⟨_, (hb1.trans (hb'.trans hb)).vars v _ (Arena.get?_set_self stillv) (by simp), by simp⟩

/-- Constants that have been resolved are not visited again. -/
theorem resolveConsts_idle (hp : p.TreeShaped) : Idle s'.program s1 resolveConsts () := by
  have hproc := h.proceeds hf
  have hlater := ((h.proceeds_types hf).trans (h.proceeds_code hf)).lasts
  have hconst : ∀ k ∈ s'.program.listed, Idle s'.program s1 (resolveConst k) () := by
    intro k hk
    refine h.consts.idle hp hf hlater k ?_
    rwa [listed, hproc.globals, hproc.ordered, hproc.lasts.enums, hproc.lasts.classes] at hk
  refine .get fun u hu _ => Idle.bind (.forM fun k hk => hconst k ?_) (.get fun u hu _ =>
    Idle.bind (.forM fun e he => ?_) (.get fun u hu _ => .forM fun c hc => ?_))
  · simp [listed, ← hu, hk]
  · obtain ⟨d, hd⟩ := Arena.exists_get? (Arena.mem_handles.1 he)
    rw [hu] at hd he
    refine (Idle.ask (Arena.fetch_ok.2 hd)).bind (.forM fun k hk => hconst k ?_)
    simp only [listed, List.mem_append, List.mem_flatMap]
    exact .inl (.inr ⟨e, he, by simpa [hd] using hk⟩)
  · rw [hu] at hc
    have hmem : c ∈ p.classes.handles := h.ordered.mem_iff.1 (hproc.ordered ▸ hc)
    obtain ⟨d0, hd0⟩ := Arena.exists_get? (Arena.mem_handles.1 hmem)
    obtain ⟨base, hd⟩ := h.linked.decl hd0
    rw [← hproc.lasts.classes] at hd
    refine (Idle.ask (Arena.fetch_ok.2 hd)).bind (.forM fun k hk => hconst k ?_)
    simp only [listed, List.mem_append, List.mem_flatMap]
    exact .inr ⟨c, hc, by simpa [hd] using hk⟩

/-- What is left to do after the classes has been done. -/
theorem resolveMembers_again (hp : p.TreeShaped) : Again s'.program s1 s' resolveMembers () := by
  have hproc := h.proceeds hf
  have htypes : Again s'.program s2 s3 (s1.program.ordered.forM resolveTypes) () :=
    h.types.forM_again (fun _ _ _ h => (h.proceeds hf).lasts) (fun _ _ _ h => h.again hp hf)
      (h.proceeds_code hf).lasts
  have hcode : Again s'.program s3 s' (s1.program.ordered.forM resolveCode) () := by
    -- the parameters have their types from the first of the bodies on
    have halong := RanAll.along (J := fun t => s1.program.classes = t.program.classes ∧
      ∀ c d, s1.program.classes.get? c = some d → ∀ m ∈ d.methods, ParamsTyped p t.program m)
      (fun a c b ha h => ⟨ha.1.trans (h.lasts hf).classes.symm,
        fun c d hd m hm => (ha.2 c d hd m hm).later (h.lasts hf)⟩)
      ⟨((h.consts.proceeds hf).trans (h.proceeds_types hf)).lasts.classes.symm,
        fun c d hd m hm => h.paramsTyped hf hd hm⟩ (h.rested hp hf)
    refine halong.forM_again (fun _ _ _ h => h.1.lasts hf) (fun a c b hab hl => ?_) (.refl _)
    exact hab.1.again hp hf hl fun d hd m hm => hab.2.2 c d (hab.2.1 ▸ hd) m hm
  refine ((h.resolveConsts_idle hf hp).again h.consts.grows).bind (.get fun u hu _ => ?_)
  rw [hu, hproc.ordered]
  exact htypes.bind hcode

end Phases

/-- Resolution is idempotent: a program that has been resolved is resolved again without an error,
and nothing in it changes. -/
theorem resolve_idempotent (p : Program) (hp : p.TreeShaped) (hf : Fresh p)
    (h : p.resolve.abort = none) : p.resolve.program.resolve = ⟨p.resolve.program, none⟩ := by
  obtain ⟨s', hrun, hprogram⟩ := run_of_resolve h
  obtain ⟨s0, s1, s2, s3, hreg, hdeclared, hclasses, -, hphases⟩ := phases_of_run hp hf hrun
  have hproc := hphases.proceeds hf
  have hplace : SamePlace s0 s1 := ((SamePlace.resolveClasses s0).of_ok (.refl s0) hclasses).1
  set t : State := { s0 with program := s'.program } with ht
  have hregister : Resolve.register (.start s'.program) = .ok () t :=
    ((hphases.sameNames hf).register (.start p) () s0 rfl hreg).2
  have hagain : Resolve.resolveClasses t = .ok () t := by
    refine resolveClasses_of_resolved fun c hc => ?_
    have hc' : c ∈ p.classes.handles := by
      rw [Arena.mem_handles] at hc ⊢
      rwa [ht, hproc.lasts.classes, hphases.linked.size] at hc
    obtain ⟨d, hd, hs⟩ := hphases.linked.all c hc'
    exact ⟨⟨d, by rwa [ht, hproc.lasts.classes], hs⟩, _,
      (hdeclared.classScope (Arena.mem_handles.1 hc')).1⟩
  obtain ⟨t', hmembers, ht', -⟩ :=
    hphases.resolveMembers_again hf hp t rfl (hphases.mirrors hdeclared hplace)
  have hall : Resolve.run (.start s'.program) = .ok () t' := by
    rw [Resolve.run_eq, Pass.bind_ok hregister, Pass.bind_ok hagain, hmembers]
  rw [hprogram, Program.resolve, hall]
  simp only [ht']

/-- A class that uses what it inherits: a field, and a constant that gives way to its value. -/
def heir : Program :=
  let expr (kind : Expr) : ExprNode := ⟨kind, 1, none⟩
  let name (text : String) : ExprNode := expr (.name text none)
  { Program.empty with
    exprs := .ofList [expr (.literal (.int 2)), expr (.literal (.int 3)),
      expr (.binary (.arith .add) ⟨0⟩ (.expr ⟨1⟩)), name "int", name "int",
      name "size", name "Scale",
      expr (.binary (.arith .mul) ⟨5⟩ (.expr ⟨6⟩))]
    stmts := .ofList [⟨.ret (some ⟨7⟩), 1⟩]
    classes := .ofList [
      ⟨"Heir", ⟨0⟩, 1, false, .normal, some "Owner", none, [], [], [⟨0⟩], .unvisited⟩,
      ⟨"Owner", ⟨0⟩, 2, false, .normal, none, none, [⟨0⟩], [⟨0⟩], [], .unvisited⟩]
    consts := .ofList [⟨"Scale", 2, .classDecl ⟨1⟩, .hidden, none, some ⟨2⟩, .unvisited, none⟩]
    fields := .ofList [⟨"size", 2, .hidden, ⟨3⟩, none⟩]
    methods := .ofList [⟨"area", 1, .hidden, .normal, false, some ⟨4⟩, [], some ⟨0⟩, none⟩] }

theorem heir_resolve_again :
    heir.TreeShaped ∧ Fresh heir ∧ heir.resolve.abort = none ∧
      heir.resolve.program.exprs.size = heir.exprs.size + 2 ∧
      heir.resolve.program.resolve = ⟨heir.resolve.program, none⟩ := by
  have hp : heir.TreeShaped := by decide +kernel
  have hf : Fresh heir := by decide +kernel
  have h : heir.resolve.abort = none := by decide +kernel
  exact ⟨hp, hf, h, by decide +kernel, resolve_idempotent heir hp hf h⟩

end Ci
