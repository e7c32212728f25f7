-- What the rule for constants has done when it ends, and with it the whole circle of
-- rules. A constant that is visited does not wait any more, so what it holds can be
-- worked on like any other part of the program.
import Ci.Proofs.Work.Types

namespace Ci

open Pass Program Arena

variable {p : Program} {n : Nat} {s s1 s2 s' t t' : State} {e e' : ExprId} {k : ConstId}
  {d d' : Const} {x y : Node}

/-! ## Places -/

/-- The state that goes on where a constant of an owner is declared. -/
inductive Placed (s : State) : Owner → State → Prop
  | program {file : FileId} :
      Placed s (.program file) { s with file := file, table := s.table.enter .program }
  | classDecl {c : ClassId} {d : ClassDecl} {scope : ScopeId}
      (decl : s.program.classes.get? c = some d) (found : s.classScopes.get? c = some scope) :
      Placed s (.classDecl c) { s with file := d.file, table := s.table.enter scope }
  | enumDecl {c : EnumId} {d : EnumDecl} {scope : ScopeId}
      (decl : s.program.enums.get? c = some d) (found : s.enumScopes.get? c = some scope) :
      Placed s (.enumDecl c) { s with file := d.file, table := s.table.enter scope }
  | body : Placed s .body s

namespace Placed

variable {owner : Owner}

theorem program_eq (h : Placed s owner t) : t.program = s.program := by cases h <;> rfl

theorem scopes_eq (h : Placed s owner t) : t.table.scopes = s.table.scopes := by cases h <;> rfl

theorem back (h : Placed s owner t) : t.backTo s = s := by cases h <;> rfl

end Placed

theorem backTo_eq (h : SamePlace s s') : s'.backTo s = s' := by
  unfold State.backTo ScopeTable.enter
  rw [← h.current, ← h.file]

theorem Resolve.whereDeclared_eq_ok {owner : Owner} {body : Pass Unit} {u : Unit}
    (hplace : SamePlace s s') (run : Resolve.whereDeclared owner body s = .ok u s') :
    ∃ t t', Placed s owner t ∧ body t = .ok () t' ∧ s' = t'.backTo s := by
  cases owner with
  | program =>
    obtain ⟨t', ht', rfl⟩ := within_eq_ok.1 run
    exact ⟨_, t', .program, ht', rfl⟩
  | classDecl =>
    simp only [Resolve.whereDeclared, bind_eq_ok, ask_eq_ok, fetch_ok, classScope_eq_ok,
      within_eq_ok] at run
    obtain ⟨d, _, ⟨hd, rfl⟩, scope, _, ⟨hscope, rfl⟩, t', ht', rfl⟩ := run
    exact ⟨_, t', .classDecl hd hscope, ht', rfl⟩
  | enumDecl =>
    simp only [Resolve.whereDeclared, bind_eq_ok, ask_eq_ok, fetch_ok, enumScope_eq_ok,
      within_eq_ok] at run
    obtain ⟨d, _, ⟨hd, rfl⟩, scope, _, ⟨hscope, rfl⟩, t', ht', rfl⟩ := run
    exact ⟨_, t', .enumDecl hd hscope, ht', rfl⟩
  | body => exact ⟨s, s', .body, run, (backTo_eq hplace).symm⟩

/-! ## Steps -/

/-- The type that is written for a constant has been read. -/
inductive Written (p : Program) (n : Nat) (s : State) : Option ExprId → Option Ty → State → Prop
  | none : Written p n s none none s
  | some {x : ExprId} {ty : Ty} {s' : State} (run : RanType p n s x ty s') :
      Written p n s (some x) (some ty) s'

/-- A constant that is being visited, with what has taken the place of its value. -/
def Const.visit (d : Const) (value : Option ExprId) : Const :=
  { d with status := .inProgress, value := value }

/-- The value of a constant has been resolved. -/
inductive Valued (p : Program) (n : Nat) (k : ConstId) (d : Const) (written : Option Ty)
    (s : State) : Ty → Option ExprId → State → Prop
  | enumNone {c : EnumId} (owner : d.owner = .enumDecl c) (value : d.value = none) :
      Valued p n k d written s (.enumeration c) none s
  | enum {c : EnumId} {x x' : ExprId} {ty : Ty} {s' : State} (owner : d.owner = .enumDecl c)
      (value : d.value = some x) (run : Ran p n s x x' s') (type : s'.program.valueTy x' = .ok ty)
      (fits : ty.isInteger ∨ ty = .enumeration c) :
      Valued p n k d written s (.enumeration c) (some x') s'
  | plain {x x' : ExprId} {ty : Ty} {s' : State} (owner : ∀ c, d.owner ≠ .enumDecl c)
      (value : d.value = some x) (run : Ran p n s x x' s') (type : s'.program.valueTy x' = .ok ty)
      (declared : ∀ u, written = some u → u.isArray = false →
        Coerces (s'.setConst k (d.visit (some x'))).program x' u)
      (constant : (s'.setConst k (d.visit (some x'))).program.isConstant x' = .ok true) :
      Valued p n k d written s ty (some x') s'

/-- What the rule for constants has done. -/
inductive StepConst (p : Program) (n : Nat) (s : State) (k : ConstId) : State → Prop
  | skipped {d : Const} {t : State} (found : s.program.consts.get? k = some d)
      (resolved : d.status = .resolved) (placed : Placed s d.owner t) : StepConst p n s k s
  | visited {d : Const} {t t1 t2 : State} {written : Option Ty} {ty : Ty} {value' : Option ExprId}
      (found : p.consts.get? k = some d) (current : s.program.consts.get? k = some d)
      (unvisited : d.status = .unvisited) (placed : Placed s d.owner t)
      (type : Written p n (t.setConst k (d.visit d.value)) d.typeExpr written t1)
      (value : Valued p n k d written t1 ty value' t2)
      (still : t2.program.consts.get? k = some (d.visit d.value)) :
      StepConst p n s k ((t2.setConst k { d with
        status := .resolved, value := value', ty := some ty }).backTo s)

/-! ## What a visit finds -/

namespace Ready

theorem place (h : Ready p s) (hp : t.program = s.program)
    (ht : t.table.scopes = s.table.scopes) : Ready p t := by
  refine ⟨?_, ?_, ?_⟩
  · rw [hp]
    exact h.added
  · rw [hp, ht]
    exact h.bound
  · rw [hp]
    exact h.waiting

/-- A constant that has been visited does not wait. -/
theorem setConst (h : Ready p s) (hk : s.program.consts.get? k = some d)
    (hv : d'.status ≠ .unvisited) : Ready p (s.setConst k d') := by
  have hget : ∀ {k'}, k ≠ k' →
      (s.setConst k d').program.consts.get? k' = s.program.consts.get? k' :=
    fun hne => Arena.get?_set_of_ne hne
  have hself : (s.setConst k d').program.consts.get? k = some d' := Arena.get?_set_self hk
  refine ⟨h.added, fun i c name k' hc hb => ?_, ?_⟩
  · by_cases hkk : k = k'
    · subst hkk
      exact ⟨d', hself, .inr hv⟩
    · rw [hget hkk]
      exact h.bound i c name k' hc hb
  · rintro x ⟨k', d1, hdecl, hd1, hs, hx⟩
    have hkk : k ≠ k' := by
      rintro rfl
      obtain rfl := hself.some_unique hd1
      exact hv hs
    have hsame := h.waiting x ⟨k', d1, hdecl, (hget hkk).symm.trans hd1, hs, hx⟩
    cases x with
    | const =>
      obtain rfl := const_mem_region_const hx
      exact (hget hkk).trans hsame
    | _ => exact hsame

end Ready

/-- The constant has not been visited, and all that it holds is as it was at the start. -/
structure Due (p : Program) (s : State) (k : ConstId) : Prop where
  ready : Ready p s
  same : ∀ d, s.program.consts.get? k = some d → d.status = .unvisited →
    ∀ y ∈ p.region (.const k), p.Same s.program y

theorem Ready.due (h : Ready p s) (hk : Known (p.waiting s.program) s.program k) : Due p s k := by
  refine ⟨h, fun d hd hs y hy => h.waiting y ?_⟩
  rcases hk with hk | ⟨d', hd', hv⟩
  · exact ⟨k, d, (const_mem_waiting hk).1, hd, hs, hy⟩
  · obtain rfl := hd.some_unique hd'
    exact absurd hs hv

theorem Fit.due (h : Fit p s (.const k)) : Due p s k := ⟨h.ready, fun _ _ _ => h.same⟩

/-- Once the visit has begun, what the constant holds is not waiting. -/
theorem Due.part (h : Due p s k) (hp : p.TreeShaped) (hk : s.program.consts.get? k = some d)
    (hs : d.status = .unvisited) (hv : d'.status ≠ .unvisited) (hy : y ∈ p.parts (.const k)) :
    Fit p (s.setConst k d') y := by
  refine ⟨h.ready.setConst hk hv, (Program.Loose.const k).part hp hy, fun z hz => ?_, ?_⟩
  · have hzk : z ∈ p.region (.const k) := region_subset hy hz
    have hsame := h.same d hk hs z hzk
    cases z with
    | const =>
      cases region_isValue (isValue_of_mem_parts_const hy) hz
    | _ => exact hsame
  · refine Set.disjoint_left.2 fun z hz hw => ?_
    obtain ⟨k', d1, -, hd1, hs1, hzk⟩ := hw
    by_cases hkk : k = k'
    · subst hkk
      obtain rfl := (Arena.get?_set_self hk).some_unique hd1
      exact hv hs1
    · exact Set.disjoint_left.1 (hp.disjoint_consts hkk) (region_subset hy hz) hzk

theorem Ready.const_not_waiting (hk : s.program.consts.get? k = some d)
    (hv : d.status ≠ .unvisited) : .const k ∉ p.waiting s.program := by
  intro hw
  obtain ⟨-, d', hd', hs⟩ := const_mem_waiting hw
  obtain rfl := hk.some_unique hd'
  exact hv hs

/-- Work on what a constant holds leaves the constant itself as it is. -/
theorem const_still {z : Node} (hk : s.program.consts.get? k = some d) (hv : d.status ≠ .unvisited)
    (hz : z.isValue) (hm : Moves (p.work s.program z) s s') :
    s'.program.consts.get? k = some d := by
  refine Eq.trans (hm.program.same (x := .const k) ?_) hk
  rintro (hin | hin)
  · exact const_not_mem_region hz hin
  · exact Ready.const_not_waiting hk hv hin

/-! ## The rule -/

theorem Resolve.checkDeclared_eq_ok {value : ExprId} {ty : Option Ty} {u : Unit} :
    Resolve.checkDeclared value ty s = .ok u s' ↔
      (∀ u, ty = some u → u.isArray = false → Coerces s.program value u) ∧ s' = s := by
  unfold Resolve.checkDeclared
  cases ty with
  | none => simp
  | some ty =>
    by_cases ha : ty.isArray = true
    · simp [ha]
    · simp [ha]

namespace Works

variable (hw : Works p n)

include hw

theorem written {te : Option ExprId} {w : Option Ty} (hfit : ∀ x ∈ te, Fit p s (.expr x))
    (run : te.mapM (Resolve.callsWithin n).type s = .ok w s') : Written p n s te w s' := by
  cases te with
  | none =>
    obtain ⟨rfl, rfl⟩ := pure_eq_ok.1 run
    exact .none
  | some x =>
    simp only [Option.mapM_some, Functor.map, EStateM.map] at run
    cases hx : (Resolve.callsWithin n).type x s with
    | error => simp [hx] at run
    | ok =>
      rw [hx] at run
      cases run
      exact .some (hw.type (hfit x rfl) hx)

theorem valued {w : Option Ty} {ty : Ty} (hfit : ∀ x ∈ d.value, Fit p s (.expr x))
    (hk : s.program.consts.get? k = some (d.visit d.value))
    (run : Resolve.ownedValue (Resolve.callsWithin n) k d.line w d.value d.owner s = .ok ty s') :
    ∃ value' t, Valued p n k d w s ty value' t ∧
      t.program.consts.get? k = some (d.visit d.value) ∧ s' = t.setConst k (d.visit value') := by
  have hnone : d.value = none → s = s.setConst k (d.visit none) := fun hval => by
    rw [← hval]
    simp [State.setConst, set_get? hk]
  have hvisit : ∀ x x' t, d.value = some x → Ran p n s x x' t →
      t.program.consts.get? k = some (d.visit d.value) := fun x x' t _ hran =>
    const_still hk (by simp [Const.visit]) rfl hran.moves
  unfold Resolve.ownedValue at run
  generalize howner : d.owner = owner at run
  split at run
  · rename_i c
    cases hval : d.value with
    | none =>
      rw [hval] at run
      obtain ⟨rfl, rfl⟩ := pure_eq_ok.1 run
      exact ⟨none, s', .enumNone howner hval, hval ▸ hk, hnone hval⟩
    | some x =>
      simp only [hval, Resolve.enumValue, bind_eq_ok, updateConst_eq_ok, valueTy_eq_ok] at run
      obtain ⟨x', t, hx, _, _, ⟨d1, hd1, rfl⟩, ty', _, ⟨hty, hs⟩, run⟩ := run
      have hran := hw.expr (hfit x hval) hx
      have ht := hvisit x x' t hval hran
      obtain rfl := ht.some_unique hd1
      split at run
      · rename_i hfits
        obtain ⟨rfl, rfl⟩ := pure_eq_ok.1 run
        exact ⟨some x', t, .enum howner hval hran hty hfits, hval ▸ ht, hs⟩
      · simp at run
  · rename_i hother
    cases hval : d.value with
    | none => simp [hval, Resolve.plainValue] at run
    | some x =>
      simp only [hval, Resolve.plainValue, bind_eq_ok, updateConst_eq_ok,
        Resolve.checkDeclared_eq_ok, ask_eq_ok] at run
      obtain ⟨x', t, hx, _, _, ⟨d1, hd1, rfl⟩, _, _, ⟨hdecl, hs⟩, b, _, ⟨hb, hs'⟩, run⟩ := run
      rw [hs] at hb hs'
      rw [hs'] at run
      have hran := hw.expr (hfit x hval) hx
      have ht := hvisit x x' t hval hran
      obtain rfl := ht.some_unique hd1
      cases b with
      | false => simp at run
      | true =>
        obtain ⟨hty, rfl⟩ := valueTy_eq_ok.1 run
        exact ⟨some x', t,
          .plain (fun c hc => hother c (howner.symm.trans hc)) hval hran hty hdecl hb, hval ▸ ht,
          rfl⟩

end Works

theorem Works.constRule (hp : p.TreeShaped) (hw : Works p n) (hdue : Due p s k)
    (hplace : SamePlace s s')
    (run : Resolve.constRule (Resolve.callsWithin n) k s = .ok () s') : StepConst p n s k s' := by
  simp only [Resolve.constRule, bind_eq_ok, ask_eq_ok, fetch_ok] at run
  obtain ⟨d, _, ⟨hd, hs⟩, run⟩ := run
  rw [hs] at run
  obtain ⟨t, t', hplaced, hbody, hs'⟩ := Resolve.whereDeclared_eq_ok hplace run
  have hdt : t.program.consts.get? k = some d := by rw [hplaced.program_eq, hd]
  simp only [once, bind_eq_ok, ask_eq_ok, Visited.const, Query.bind_ok, fetch_ok,
    Query.pure_ok] at hbody
  obtain ⟨status, _, ⟨⟨d1, hd1, rfl⟩, hst⟩, hbody⟩ := hbody
  rw [hst] at hbody
  obtain rfl := hdt.some_unique hd1
  cases hstatus : d.status with
  | resolved =>
    simp only [hstatus, pure_eq_ok] at hbody
    have hback : s' = s := by
      rw [hs', hbody.2, hplaced.back]
    rw [hback]
    exact .skipped hd hstatus hplaced
  | inProgress => simp [hstatus] at hbody
  | unvisited =>
    have hpd : p.consts.get? k = some d := by
      have hsame := hdue.same d hd hstatus _ mem_region_self
      exact Eq.trans hsame.symm hd
    simp only [hstatus, bind_eq_ok, setConstStatus, updateConst_eq_ok] at hbody
    obtain ⟨_, _, ⟨d1, hd1, rfl⟩, _, t3, hvalue, d2, hd2, ht'⟩ := hbody
    obtain rfl := hdt.some_unique hd1
    have hduet : Due p t k := ⟨hdue.ready.place hplaced.program_eq hplaced.scopes_eq, by
      rw [hplaced.program_eq]
      exact hdue.same⟩
    have hpart : ∀ {y}, y ∈ p.parts (.const k) → Fit p (t.setConst k (d.visit d.value)) y :=
      fun hy => hduet.part hp hdt hstatus (by simp [Const.visit]) hy
    have hparts := parts_const hpd
    have hself : (t.setConst k (d.visit d.value)).program.consts.get? k
        = some (d.visit d.value) := Arena.get?_set_self hdt
    simp only [Resolve.constValue, bind_eq_ok, ask_eq_ok, fetch_ok, updateConst_eq_ok] at hvalue
    obtain ⟨d3, _, ⟨hd3, hs3⟩, w, t1, hwritten, ty, t2, howned, d4, hd4, ht3⟩ := hvalue
    obtain rfl := hself.some_unique hd3
    rw [hs3] at hwritten
    have htype : Written p n _ d.typeExpr w t1 := hw.written (fun x hx => hpart (by
      simp [hparts, Option.mem_def.1 hx])) hwritten
    -- the value is left as it is while the type is read
    have hnext : t1.program.consts.get? k = some (d.visit d.value) ∧
        ∀ x ∈ d.value, Fit p t1 (.expr x) := by
      have hvpart : ∀ x ∈ d.value, .expr x ∈ p.parts (.const k) := fun x hx => by
        simp [hparts, Option.mem_def.1 hx]
      generalize hte : d.typeExpr = te at htype
      cases htype with
      | none => exact ⟨hself, fun x hx => hpart (hvpart x hx)⟩
      | @some y _ _ hran =>
        refine ⟨const_still hself (by simp [Const.visit]) rfl hran.moves, fun x hx => ?_⟩
        have hypart : .expr y ∈ p.parts (.const k) := by simp [hparts, hte]
        have hne : Node.expr y ≠ .expr x := by
          intro heq
          have hnodup := hp.parts_nodup (.const k)
          rw [hparts, hte, Option.mem_def.1 hx] at hnodup
          simp_all
        have hfx := hpart (hvpart x hx)
        refine hfx.step hran.moves.program hran.ready (Disjoint.sup_left ?_ hfx.apart.symm)
        exact (Program.Loose.const k).disjoint hp hypart (hvpart x hx) hne
    obtain ⟨value', t4, hvalued, ht4, rfl⟩ := hw.valued hnext.2 hnext.1 howned
    obtain rfl := (Arena.get?_set_self ht4).some_unique hd4
    rw [ht3] at hd2 ht'
    rw [setConst_setConst] at hd2 ht'
    obtain rfl := (Arena.get?_set_self ht4).some_unique hd2
    rw [setConst_setConst] at ht'
    rw [hs', ht']
    exact .visited (d := d) hpd hd hstatus hplaced htype hvalued ht4

theorem StepConst.ready (h : StepConst p n s k s') (hdue : Due p s k) : Ready p s' := by
  cases h with
  | skipped => exact hdue.ready
  | @visited d t t1 t2 _ _ _ _ current _ placed type value still =>
    have ht : Ready p t := hdue.ready.place placed.program_eq placed.scopes_eq
    have hd : t.program.consts.get? k = some d := by rw [placed.program_eq, current]
    have ht1 : Ready p t1 := by
      generalize d.typeExpr = te at type
      cases type with
      | none => exact ht.setConst hd (by simp [Const.visit])
      | some run => exact run.ready
    have ht2 : Ready p t2 := by
      cases value with
      | enumNone => exact ht1
      | enum _ _ run => exact run.ready
      | plain _ _ run => exact run.ready
    exact (ht2.setConst still (by simp)).place rfl rfl

/-! ## The circle -/

variable (hp : p.TreeShaped) (hf : Fresh p)

include hp hf

theorem works (n : Nat) : Works p n := by
  induction n with
  | zero =>
    refine ⟨fun _ run => ?_, fun _ run => ?_, fun _ _ run => ?_⟩ <;>
      simp [Resolve.callsWithin, Resolve.outOfDepth] at run
  | succ n ih =>
    refine ⟨fun {s e e' s'} hfit run => ?_, fun {s e t s'} hfit run => ?_,
      fun {s k s'} hr hk run => ?_⟩
    · have hm := ((Moves.stay_callsWithin (p.work s.program (.expr e)) (n + 1)).expr s e
        (.inl (.inl mem_region_self))).of_ok (.refl (hfit.closed hf)) run
      have hstep := ih.exprRule hp hf hfit run
      exact ⟨run, hfit, hm.1, hstep.ready hfit, hstep.inside⟩
    · have hm := ((Moves.stay_callsWithin (p.work s.program (.expr e)) (n + 1)).type s e
        (.inl (.inl mem_region_self))).of_ok (.refl (hfit.closed hf)) run
      exact ⟨run, hfit, hm.1, (ih.readType hp hf hfit run).ready hp hfit⟩
    · have hm := ((Moves.stay_callsWithin (p.waiting s.program) (n + 1)).const s k hk).of_ok
        (.refl (hr.closed_waiting hf)) run
      have hdue := hr.due hk
      exact ⟨run, hr, hk, hm.1, (ih.constRule hp hdue hm.1.place run).ready hdue, hm.2⟩

theorem Ran.step (h : Ran p (n + 1) s e e' s') : Step p n s e e' s' :=
  (works hp hf n).exprRule hp hf h.fit h.run

theorem RanType.step {t : Ty} (h : RanType p (n + 1) s e t s') : StepType p n s e t s' :=
  (works hp hf n).readType hp hf h.fit h.run

theorem RanConst.step (h : RanConst p (n + 1) s k s') : StepConst p n s k s' :=
  (works hp hf n).constRule hp (h.ready0.due h.known) h.moves.place h.run

omit hp hf in
theorem not_ran_zero : ¬ Ran p 0 s e e' s' := fun h => by
  have := h.run
  simp [Resolve.callsWithin, Resolve.outOfDepth] at this

omit hp hf in
theorem not_ranType_zero {t : Ty} : ¬ RanType p 0 s e t s' := fun h => by
  have := h.run
  simp [Resolve.callsWithin, Resolve.outOfDepth] at this

omit hp hf in
theorem not_ranConst_zero : ¬ RanConst p 0 s k s' := fun h => by
  have := h.run
  simp [Resolve.callsWithin, Resolve.outOfDepth] at this

/-- Something is the case of all that the rules have done down to a depth. -/
structure Each (p : Program) (E : Nat → State → ExprId → ExprId → State → Prop)
    (T : Nat → State → ExprId → Ty → State → Prop) (C : Nat → State → ConstId → State → Prop)
    (n : Nat) : Prop where
  expr : ∀ {s e e' s'}, Ran p n s e e' s' → E n s e e' s'
  type : ∀ {s e t s'}, RanType p n s e t s' → T n s e t s'
  const : ∀ {s k s'}, RanConst p n s k s' → C n s k s'

section

variable {E : Nat → State → ExprId → ExprId → State → Prop}
  {T : Nat → State → ExprId → Ty → State → Prop} {C : Nat → State → ConstId → State → Prop}

/-- What a rule brings about if the rules that it calls do, all rules bring about. -/
theorem Each.of_ran
    (expr : ∀ n, Each p E T C n → ∀ {s e e' s'}, Ran p (n + 1) s e e' s' → Step p n s e e' s' →
      E (n + 1) s e e' s')
    (type : ∀ n, Each p E T C n → ∀ {s e t s'}, RanType p (n + 1) s e t s' →
      StepType p n s e t s' → T (n + 1) s e t s')
    (const : ∀ n, Each p E T C n → ∀ {s k s'}, RanConst p (n + 1) s k s' → StepConst p n s k s' →
      C (n + 1) s k s') (n : Nat) : Each p E T C n := by
  induction n with
  | zero =>
    exact ⟨fun h => absurd h not_ran_zero, fun h => absurd h not_ranType_zero,
      fun h => absurd h not_ranConst_zero⟩
  | succ n ih =>
    exact ⟨fun h => expr n ih h (h.step hp hf), fun h => type n ih h (h.step hp hf),
      fun h => const n ih h (h.step hp hf)⟩

theorem Each.all
    (expr : ∀ n, Each p E T C n → ∀ {s e e' s'}, Fit p s (.expr e) → Step p n s e e' s' →
      E (n + 1) s e e' s')
    (type : ∀ n, Each p E T C n → ∀ {s e t s'}, Fit p s (.expr e) → StepType p n s e t s' →
      T (n + 1) s e t s')
    (const : ∀ n, Each p E T C n → ∀ {s k s'}, Due p s k → StepConst p n s k s' →
      C (n + 1) s k s') (n : Nat) : Each p E T C n :=
  .of_ran hp hf (fun n ih _ _ _ _ h => expr n ih h.fit) (fun n ih _ _ _ _ h => type n ih h.fit)
    (fun n ih _ _ _ h => const n ih (h.ready0.due h.known)) n

end

end Ci
