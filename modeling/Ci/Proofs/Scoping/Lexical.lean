-- Names are bound lexically. What is resolved before the bodies binds no names in
-- scopes, so a body starts with the frames of its class. From there the rules for
-- statements follow the walk.
import Ci.Proofs.Scoping.Traces

namespace Ci

open Pass Arena ScopeTable

variable {p : Program} {n : Nat} {s s0 s1 s2 s3 s' t : State} {e e' : ExprId} {k : ConstId}
  {c b : ClassId} {x : StmtId} {y : Node} {acts : List Act} {names : Bindings} {frames : Frames}
  {d : ClassDecl} {R : State → StmtId → State → Prop} {J : State → Prop} {m : MethodId}
  {L : List ExprId}

/-! ## Scopes outside all bodies -/

/-- The scopes that there were when the classes were linked are as they were. -/
structure Rooted (s0 s : State) : Prop extends SameDecls s0 s where
  scopes : ∀ j < s0.table.scopes.size, s.table.scopes[j]? = s0.table.scopes[j]?
  size_le : s0.table.scopes.size ≤ s.table.scopes.size

/-- The present scope is none of them. -/
structure Inner (s0 s : State) : Prop extends Rooted s0 s where
  current : s0.table.scopes.size ≤ s.table.current.slot

theorem Rooted.refl (s : State) : Rooted s s := ⟨.refl s, fun _ _ => rfl, le_rfl⟩

theorem Rooted.table (h : Rooted s0 s) (hd : SameDecls s s')
    (ht : s'.table.scopes = s.table.scopes) :
    Rooted s0 s' :=
  ⟨h.toSameDecls.trans hd, fun j hj => ht ▸ h.scopes j hj, ht ▸ h.size_le⟩

theorem Inner.traces (h : Inner s0 s) (ht : Traces p s acts s') : Inner s0 s' where
  toSameDecls := h.toSameDecls.trans ht.toSameDecls
  scopes j hj := by
    rw [ht.kept j (hj.trans_le h.size_le) (Nat.ne_of_lt (hj.trans_le h.current))]
    exact h.scopes j hj
  size_le := h.size_le.trans ht.size_le
  current := ht.current ▸ h.current

theorem Rooted.deeper (h : Rooted s0 s) (kind : ScopeKind) : Inner s0 (s.deeper kind) where
  toSameDecls := ⟨h.classes, h.enums, h.vars, h.classScopes, h.enumScopes⟩
  scopes j hj := by
    have hj' := hj.trans_le h.size_le
    rw [← h.scopes j hj]
    simp only [State.deeper, enter, add]
    rw [Array.getElem?_push_lt hj', Array.getElem?_eq_getElem hj']
  size_le := by
    simp only [State.deeper, enter, add, Array.size_push]
    exact Nat.le_succ_of_le h.size_le
  current := h.size_le

/-- The scopes of a class and its bases hold its frames. -/
theorem Linked.sees (h : Linked p s0) (hd : p.classes.get? c = some d) :
    ∃ frames, p.Lineage c frames ∧ ∀ i : ScopeId, i.slot ≠ 0 →
      (∀ b, Relation.ReflTransGen p.NamesBase c b → (classSlot b).slot ≠ i.slot) →
      s0.table.Sees i (some (classSlot c)) frames := by
  obtain ⟨-, -, -, -, -, hg⟩ := h.resolved hd
  induction hg generalizing d with
  | intro c _ ih =>
    obtain ⟨base, parent, hat, -, hbased, -⟩ := h.resolved hd
    rcases hbased with ⟨rfl, d', hd', hname, -⟩ | ⟨b, -, hb, rfl, -⟩
    · refine ⟨_, .root hd (Program.not_namesBase hd' hname), fun i hi hne => ?_⟩
      exact .cons (hne c .refl) hat.scope (.cons hi.symm h.root .nil)
    · obtain ⟨-, db, -, hdb, -⟩ := id hb
      obtain ⟨frames, hline, hsees⟩ := ih b hb hdb
      refine ⟨_, .derived hd hb hline, fun i hi hne => ?_⟩
      exact .cons (hne c .refl) hat.scope (hsees i hi fun b' hb' => hne b' (.head hb hb'))

/-- Where a constant of an owner outside all bodies is declared, the scopes hold the frames of the
owner. -/
theorem Rooted.looks {owner : Owner} (h : Rooted s0 s) (hl : Linked p s0) (hp : Placed s owner t)
    (hb : owner ≠ .body) :
    ∃ names outer, (∀ here, p.Outlook here owner (names :: outer)) ∧ Looks t names outer := by
  have hroot : s.table.scopes[0]? = some ⟨.program, none, p.globalNames.reverse⟩ :=
    (h.scopes 0 (by rw [hl.slots]; omega)).trans hl.root
  have houter : ∀ (i j : ScopeId), i.slot ≠ 0 →
      (s.table.enter j).Sees i (some .program) [p.globalNames.reverse] :=
    fun _ j hi => .cons (T := s.table.enter j) (j := .program) hi.symm hroot .nil
  have hscope : ∀ {i : Nat} {scope : Scope}, s0.table.scopes[i]? = some scope →
      s.table.scopes[i]? = some scope := by
    intro i scope hi
    obtain ⟨hlt, -⟩ := Array.getElem?_eq_some_iff.1 hi
    exact (h.scopes i hlt).trans hi
  cases hp with
  | program => exact ⟨_, _, fun _ => .program, _, hroot, rfl, .nil⟩
  | @classDecl c _ scope decl found =>
    rw [h.classes] at decl
    obtain ⟨d0, base0, hd0, -⟩ := hl.exists_decl decl
    have hslot : scope = classSlot c := by
      rw [h.classScopes, hl.classScopes c (lt_size_of_get? hd0)] at found
      exact (Option.some.inj found).symm
    subst hslot
    obtain ⟨base, parent, hat, -, hbased, hg⟩ := hl.resolved hd0
    rcases hbased with ⟨rfl, d', hd', hname, -⟩ | ⟨b, -, hb, rfl, -⟩
    · have hnone := Program.not_namesBase hd' hname
      exact ⟨_, _, fun _ => .classDecl (.root hd0 hnone), _, hscope hat.scope, rfl,
        houter (classSlot c) (classSlot c) (Nat.succ_ne_zero _)⟩
    · obtain ⟨-, db, -, hdb, -⟩ := id hb
      obtain ⟨frames, hline, hsees⟩ := hl.sees hdb
      refine ⟨_, _, fun _ => .classDecl (.derived hd0 hb hline), _, hscope hat.scope, rfl, ?_⟩
      refine (hsees (classSlot c) (Nat.succ_ne_zero _) fun b' hb' heq => ?_).congr
        fun j hj _ => h.scopes j hj
      -- A base that has the scope of the class is the class, which is no base of its own.
      have hsame : b' = c := Handle.slot_inj.1 (Nat.succ.inj heq)
      exact hg.not_circular (.head' hb (hsame ▸ hb'))
  | @enumDecl e d scope decl found =>
    obtain ⟨classes, ordered, hprogram⟩ := hl.program
    have hd : p.enums.get? e = some d := by
      rw [h.enums, hprogram] at decl
      exact decl
    have hlt := lt_size_of_get? hd
    have hslot : scope = p.enumSlot e := by
      rw [h.enumScopes, hl.enumScopes e hlt] at found
      exact (Option.some.inj found).symm
    subst hslot
    exact ⟨_, _, fun _ => .enumDecl hd, p.enumScope e, hscope (hl.enums e hlt),
      by simp [Program.enumScope, hd], houter _ _ (Nat.succ_ne_zero _)⟩
  | body => exact absurd rfl hb

/-! ## Constants of bodies -/

/-- Variables are declared in the bodies of methods, but not in the constants there. -/
structure Program.VarsInBodies (p : Program) : Prop where
  consts : ∀ d ∈ p.consts.toList, ∀ e ∈ d.typeExpr.toList ++ d.value.toList, p.VarFree (.expr e)
  fields : ∀ d ∈ p.fields.toList, p.VarFree (.expr d.typeExpr)
  returns : ∀ d ∈ p.methods.toList, ∀ e ∈ d.typeExpr.toList, p.VarFree (.expr e)
  params : ∀ d ∈ p.methods.toList, ∀ v ∈ d.params, ∀ dv ∈ (p.vars.get? v).toList,
    p.VarFree (.expr dv.typeExpr)

theorem Program.VarsInBodies.const (h : p.VarsInBodies) (k : ConstId) : p.VarFree (.const k) := by
  intro v hv
  rcases Program.mem_region_cases hv with hv | ⟨y, hy, hv⟩
  · simp at hv
  · obtain ⟨d, hd, hy⟩ := Program.mem_elim hy
    obtain ⟨e, he, rfl⟩ := List.mem_map.1 hy
    exact h.consts d (mem_toList_of_get? hd) e he v hv

/-- Where nothing waits, work on a node without variables and statements leaves the scopes. -/
theorem Moves.table_eq (h : Moves (p.work s.program y) s s') (hw : p.waiting s.program = ∅)
    (hv : p.VarFree y) (hx : ∀ x, .stmt x ∉ p.region y) : s'.table = s.table := by
  rw [Program.work, hw, Set.union_empty] at h
  refine h.names ?_
  rintro (⟨v, hmem⟩ | ⟨x, hmem⟩)
  · exact hv v hmem
  · exact hx x hmem

theorem Quiet.setConst {d d' : Const} (hd : s.program.consts.get? k = some d)
    (hv : d'.status ≠ .unvisited) : Quiet p s (s.setConst k d') := by
  refine ⟨⟨⟨rfl, rfl, fun _ => rfl, rfl, rfl⟩, fun _ _ _ hs => hs, ?_⟩, rfl⟩
  rintro z ⟨k', d0, hdecl, hget, hun, hz⟩
  refine ⟨k', d0, hdecl, ?_, hun, hz⟩
  rcases Arena.get?_set_cases hget with ⟨rfl, rfl⟩ | h
  · exact absurd hun hv
  · exact h

theorem Written.traces {written : Option ExprId} {ty : Option Ty} (each : Traced p n)
    (hw : p.waiting s.program = ∅) (h : Written p n s written ty s') :
    Traces p s (Act.types written.toList) s' := by
  cases h with
  | none => exact .nil (.refl s)
  | some run => exact each.type run hw

theorem Valued.traces {d : Const} {written : Option Ty} {ty : Ty} {value : Option ExprId}
    (each : Traced p n) (hw : p.waiting s.program = ∅) (h : Valued p n k d written s ty value s') :
    Traces p s (Act.values d.value.toList) s' := by
  cases h with
  | enumNone _ hd => rw [hd]; exact .nil (.refl s)
  | enum _ hd run => rw [hd]; exact each.expr run hw
  | plain _ hd run => rw [hd]; exact each.expr run hw

section

variable (hp : p.TreeShaped) (hf : Fresh p) (hv : p.VarsInBodies) (hl : Linked p s0)
  (hw : p.waiting s.program = ∅)

include hp hf hv hl hw

theorem RanLocal.traces (h : RanLocal p s k s') (hi : Inner s0 s) : Traces p s [.const k] s' := by
  have htable : s'.table = s.table := h.moves.table_eq hw (hv.const k) fun x hx => by
    rcases Program.mem_region_const hx with hx | hx <;> simp [Node.isValue] at hx
  obtain ⟨n, hstep⟩ := h.step hp hf
  have hsame := h.fit.same _ Program.mem_region_self
  refine ⟨.of_moves hf h.fit hw h.moves,
    by rw [htable], by rw [htable], fun _ _ _ => by rw [htable], fun names frames hlooks => ?_⟩
  cases hstep with
  | @skipped d _ found resolved =>
    have hun := (hf.consts d (mem_toList_of_get? (hsame.symm.trans found))).1
    rw [resolved] at hun
    cases hun
  | @visited d t _ t2 _ _ _ found current _ placed type value =>
    have hbegin : Quiet p t (t.setConst k (d.visit d.value)) :=
      .setConst (placed.program_eq ▸ current) (by simp [Const.visit])
    have hidle : p.waiting t.program = ∅ := by rw [placed.program_eq, hw]
    have each := traced hp hf n
    have htype := type.traces each (hbegin.idle hidle)
    have hheld := htype.append (value.traces each (htype.idle (hbegin.idle hidle)))
    -- The scopes are as they were, so the frame where the constant is declared is too.
    have hscopes : t2.table = t.table := by
      have hcurrent : t2.table.current = t.table.current := hheld.current
      have hsame : t2.table.scopes = t.table.scopes :=
        (congrArg ScopeTable.scopes htable).trans placed.scopes_eq.symm
      cases h1 : t2.table
      cases h2 : t.table
      simp_all
    obtain ⟨names0, outer, hplace, hlook⟩ : ∃ names0 outer,
        p.Outlook (names :: frames) d.owner (names0 :: outer) ∧ Looks t names0 outer := by
      by_cases hb : d.owner = .body
      · rw [hb] at placed
        cases placed
        exact ⟨names, frames, hb ▸ .body, hlooks⟩
      · obtain ⟨names0, outer, hplace, hlook⟩ := hi.toRooted.looks hl placed hb
        exact ⟨names0, outer, hplace _, hlook⟩
    obtain ⟨uses, names', hwalk, hlook', hu⟩ := hheld.walks names0 outer (hlook.congr rfl)
    cases (hlook'.names_eq (hlook.congr hscopes))
    refine ⟨uses, names, ?_, hlooks.congr htable, hu⟩
    rw [← List.append_nil uses]
    exact .const found hplace hwalk .nil

end

/-! ## Statements -/

/-- The statements that are called follow the walk. -/
def Follows (p : Program) (s0 : State) (R : State → StmtId → State → Prop) : Prop :=
  ∀ {s x s'}, R s x s' → p.waiting s.program = ∅ → Inner s0 s → Traces p s [.visit (.stmt x)] s'

theorem RanAll.traces {xs : List StmtId}
    (hR : Follows p s0 R) (h : RanAll R s xs s') (hw : p.waiting s.program = ∅) (hi : Inner s0 s) :
    Traces p s (Act.stmts xs) s' := by
  induction h with
  | nil => exact .nil (.refl _)
  | cons first _ ih =>
    have hfirst := hR first hw hi
    exact hfirst.append (ih (hfirst.idle hw) (hi.traces hfirst))

theorem Quiet.breakable (b : Breakable) : Quiet p s (s.breakable b) :=
  ⟨⟨⟨rfl, rfl, fun _ => rfl, rfl, rfl⟩, fun _ _ _ hs => hs, subset_rfl⟩, rfl⟩

theorem Quiet.leave : Quiet p s s.leave :=
  ⟨⟨⟨rfl, rfl, fun _ => rfl, rfl, rfl⟩, fun _ _ _ hs => hs, subset_rfl⟩, rfl⟩

/-- The body of a loop. -/
theorem Follows.inside {b : Breakable} (hR : Follows p s0 R)
    (h : R (s.breakable b) x t) (hw : p.waiting s.program = ∅) (hi : Inner s0 s) :
    Traces p s [.visit (.stmt x)] t.leave :=
  (Traces.before (.breakable b) (hR h hw (hi.traces (p := p) (.nil (.breakable b))))).after .leave

section

variable (hp : p.TreeShaped) (hf : Fresh p)

include hp hf

theorem RanExprs.traces {C : ExprId → ExprId → State → Prop} {es es' : List ExprId}
    (h : RanList p State.depth id C s es es' s') (hw : p.waiting s.program = ∅) :
    Traces p s (Act.values es) s' := by
  have hes := RanList.traces (fun run hw => (traced hp hf _).expr run hw) h hw
  rwa [List.map_id] at hes

theorem RanCases.traces {cases cases' : List Case}
    (hR : Follows p s0 R) (h : RanCases p R s cases cases' s') (hw : p.waiting s.program = ∅)
    (hi : Inner s0 s) : Traces p s (cases.flatMap Case.acts) s' := by
  induction h with
  | nil => exact .nil (.refl _)
  | cons labels body _ ih =>
    have hlabels := RanExprs.traces hp hf labels hw
    have hcase := hlabels.append (body.traces hR (hlabels.idle hw) (hi.traces hlabels))
    exact hcase.append (ih (hcase.idle hw) (hi.traces hcase))

theorem StepKind.traces {kind kind' : Stmt}
    (hv : p.VarsInBodies) (hl : Linked p s0) (hR : Follows p s0 R)
    (h : StepKind p R s kind kind' s') (hw : p.waiting s.program = ∅) (hi : Inner s0 s) :
    Traces p s (p.stmtActs kind) s' := by
  have hE : ∀ {s e e' s'}, Ran p s.depth s e e' s' → p.waiting s.program = ∅ →
      Traces p s [.visit (.value e)] s' := fun run hw => (traced hp hf _).expr run hw
  cases h with
  | block walk => exact (walk.traces hR hw (hi.toRooted.deeper .block)).framed
  | ifThen condition _ onTrue onFalse =>
    have hcond := hE condition hw
    have htrue := hcond.append (hR onTrue (hcond.idle hw) (hi.traces hcond))
    exact htrue.append (onFalse.traces hR (htrue.idle hw) (hi.traces htrue))
  | whileLoop condition _ walk =>
    have hcond := hE condition hw
    exact hcond.append (hR.inside walk (hcond.idle hw) (hi.traces hcond))
  | doWhile walk condition =>
    have hbody := hR.inside walk hw hi
    exact hbody.append (hE condition (hbody.idle hw))
  | forLoop first condition step walk =>
    have hfirst := RanExprs.traces hp hf first hw
    have hcond := hfirst.append (RanExprs.traces hp hf condition (hfirst.idle hw))
    have hstep := hcond.append (RanExprs.traces hp hf step (hcond.idle hw))
    have hin := (hi.toRooted.deeper .forHead).traces hstep
    exact (hstep.append (hR.inside walk (hstep.idle hw) hin)).framed
  | @switch _ _ _ _ _ s1 _ _ subject walk last =>
    have hsubject := hE subject hw
    have hidle := hsubject.idle hw
    have hin : Inner s0 ((s1.deeper .switch).breakable .switch) :=
      ((hi.traces hsubject).toRooted.deeper .switch).traces (p := p) (.nil (.breakable .switch))
    have hcases := walk.traces hp hf hR hidle hin
    have hall := hcases.append (last.traces hR (hcases.idle hidle) (hin.traces hcases))
    exact hsubject.append ((Traces.before (.breakable .switch) hall).after .leave).framed
  | ret _ _ result => exact hE result hw
  | retNone => exact .nil (.refl s)
  | leave => exact .nil (.refl s)
  | next => exact .nil (.refl s)
  | throw text => exact hE text hw
  | delete pointer => exact hE pointer hw
  | expr result => exact hE result hw
  | @const k d _ _ walk found binds =>
    have hconst := walk.traces hp hf hv hl hw hi
    have hname : (p.consts.get? k).elim [] (fun d => [Act.const k, .bind d.name (.const k)]) =
        [.const k, .bind d.name (.const k)] := by
      obtain ⟨d0, hd0⟩ := exists_get? (walk.moves.program.consts_size ▸ lt_size_of_get? found)
      obtain ⟨d1, hd1, hstep⟩ := walk.moves.program.consts.part k d0 hd0
      cases hd1.some_unique found
      have hsame : d.name = d0.name := by
        simpa [Const.outline] using congrArg Const.name hstep.outline
      rw [← walk.fit.same _ Program.mem_region_self, hd0, Option.elim_some, hsame]
    rw [Program.stmtActs, hname]
    exact hconst.bind binds rfl ⟨⟨rfl, rfl, fun _ => rfl, rfl, rfl⟩, fun _ _ _ hs => hs, subset_rfl⟩

theorem RanStmt.traces (hv : p.VarsInBodies) (hl : Linked p s0) (n : Nat) :
    Follows p s0 (RanStmt p n) := by
  induction n with
  | zero =>
    intro s x s' h
    exact absurd h not_ranStmt_zero
  | succ _ ih =>
    intro s x s' h hw hi
    cases h.step hp hf with
    | mk node kind =>
      refine .visit ?_
      rw [Program.acts, node]
      exact (kind.traces hp hf hv hl ih hw hi).after
        ⟨⟨⟨rfl, rfl, fun _ => rfl, rfl, rfl⟩, fun _ _ _ hs => hs, subset_rfl⟩, rfl⟩

end

/-! ## Before the bodies -/

/-- No constant waits, and the scopes outside all bodies are as they were. -/
structure Resting (p : Program) (s0 s : State) : Prop extends Rooted s0 s where
  idle : p.waiting s.program = ∅

theorem Resting.table (h : Resting p s0 s) (hd : SameDecls s s')
    (ht : s'.table.scopes = s.table.scopes) (hw : p.waiting s'.program ⊆ p.waiting s.program) :
    Resting p s0 s' :=
  ⟨h.toRooted.table hd ht, Set.subset_empty_iff.1 (h.idle ▸ hw)⟩

/-- What holds before each turn and goes on to hold, holds at the end. What a turn brings about for
its item lasts. -/
theorem RanAll.each {ι : Type} {R : State → ι → State → Prop} {Φ : ι → State → Prop} {is : List ι}
    (hstep : ∀ i ∈ is, ∀ s s', J s → R s i s' → J s' ∧ Φ i s' ∧ ∀ j, Φ j s → Φ j s') (hs : J s)
    (h : RanAll R s is s') : J s' ∧ (∀ i ∈ is, Φ i s') ∧ ∀ j, Φ j s → Φ j s' := by
  induction h with
  | nil => exact ⟨hs, by simp, fun _ h => h⟩
  | cons first _ ih =>
    obtain ⟨hj, hi, hlast⟩ := hstep _ (by simp) _ _ hs first
    obtain ⟨hj', his, hlast'⟩ := ih (fun i hi => hstep i (by simp [hi])) hj
    exact ⟨hj', List.forall_mem_cons.2 ⟨hlast' _ hi, his⟩, fun j hj => hlast' j (hlast j hj)⟩

/-- A loop that keeps something. -/
theorem RanAll.keep {ι : Type} {R : State → ι → State → Prop} {is : List ι}
    (hstep : ∀ i ∈ is, ∀ s s', J s → R s i s' → J s') (hs : J s) (h : RanAll R s is s') : J s' :=
  (h.each (Φ := fun _ _ => True)
    (fun i hi s s' hj hr => ⟨hstep i hi s s' hj hr, trivial, fun _ h => h⟩) hs).1

section

variable (hv : p.VarsInBodies)

/-- Constants that are resolved on the way leave the scopes. -/
theorem RanConst.rooted (hv : p.VarsInBodies) (h : RanConst p n s k s') (hr : Rooted s0 s) :
    Rooted s0 s' := by
  refine hr.table (.of_moves h.moves) (congrArg _ (h.moves.names ?_))
  rintro (⟨v, k', -, -, -, -, hmem⟩ | ⟨x, hmem⟩)
  · exact hv.const k' v hmem
  · exact Program.stmt_not_mem_waiting hmem

theorem RanType.resting {ty : Ty} (h : RanType p n s e ty s') (hi : Resting p s0 s)
    (hfree : p.VarFree (.expr e)) : Resting p s0 s' :=
  hi.table (.of_moves h.moves) (congrArg _ (h.moves.table_eq hi.idle hfree fun _ =>
    Program.stmt_not_mem_region rfl)) (Program.waiting_subset h.moves.program)

include hv

theorem RanField.resting {f : FieldId} (h : RanField p s f s') (hi : Resting p s0 s) :
    Resting p s0 s' := by
  obtain ⟨found, run, -⟩ := h
  exact (run.resting hi (hv.fields _ (mem_toList_of_get? found))).table
    ⟨rfl, rfl, fun _ => rfl, rfl, rfl⟩ rfl subset_rfl

theorem RanSignature.resting (h : RanSignature p s m s') (hi : Resting p s0 s) :
    Resting p s0 s' := by
  obtain @⟨d, ty, s1, s2, found, result, -, params⟩ := h
  have hd := mem_toList_of_get? found
  have hresult : Resting p s0 s1 := by
    have hfree := hv.returns d hd
    generalize d.typeExpr = te at result hfree
    cases result with
    | none => exact hi
    | some run => exact run.resting hi (hfree _ (by simp))
  have hset : Resting p s0 (s1.setMethod m { d with ty := some ty }) :=
    hresult.table ⟨rfl, rfl, fun _ => rfl, rfl, rfl⟩ rfl subset_rfl
  refine params.keep (fun v hmem s s' hi hparam => ?_) hset
  obtain ⟨hdv, run, still⟩ := hparam
  exact (run.resting hi (hv.params d hd v hmem _ (by simp [hdv]))).table (.setVar still rfl) rfl
    subset_rfl

theorem RanTypes.resting (h : RanTypes p s c s') (hi : Resting p s0 s) : Resting p s0 s' := by
  obtain @⟨d, i, t1, t2, decl, found, fields, methods⟩ := h
  have hin : Resting p s0 (s.inClass d i) :=
    hi.table ⟨rfl, rfl, fun _ => rfl, rfl, rfl⟩ rfl subset_rfl
  have hfields : Resting p s0 t1 := fields.keep (fun _ _ _ _ hj hr => RanField.resting hv hr hj) hin
  have hall : Resting p s0 t2 :=
    methods.keep (fun _ _ _ _ hj hr => RanSignature.resting hv hr hj) hfields
  exact hall.table ⟨rfl, rfl, fun _ => rfl, rfl, rfl⟩ rfl subset_rfl

/-- The bodies start where no constant waits. -/
theorem Phases.resting (h : Phases p s1 s2 s3 s') (hf : Fresh p) : Resting p s1 s3 := by
  have hconsts : Rooted s1 s2 := h.consts.keep (fun _ _ _ _ hj hr => hr.rooted hv hj) (.refl s1)
  exact h.types.keep (fun _ _ _ _ hj hr => hr.resting hv hj) ⟨hconsts, h.not_waiting hf (.refl _)⟩

end

/-! ## Methods -/

/-- The names in the body of a method of a class stand for what the frames of the class say, with
those that the body opens. -/
def Lexical (p : Program) (c : ClassId) (m : MethodId) (q : Program) : Prop :=
  ∀ d b, p.methods.get? m = some d → d.body = some b → ∃ frames uses, p.Lineage c frames ∧
    p.Walk frames (p.methodActs d b) uses frames ∧ ∀ u ∈ uses, u.BoundIn q

theorem Lexical.later (h : Lexical p c m s.program) (hr : Recalls p s s') :
    Lexical p c m s'.program := by
  intro d b hd hb
  obtain ⟨frames, uses, hline, hwalk, hu⟩ := h d b hd hb
  exact ⟨frames, uses, hline, hwalk, fun u hmem => hr.bound (hu u hmem)⟩

theorem RanAll.params_traces {vs : List VarId} (h : RanAll BoundParam s vs s')
    (hnames : ∀ v, (s.program.vars.get? v).map Var.name = (p.vars.get? v).map Var.name) :
    Traces p s ((Program.named p.vars (·.name) .var vs).map fun b => .bind b.1 b.2) s' := by
  induction h with
  | nil => exact .nil (.refl _)
  | @cons s _ _ v vs first _ ih =>
    obtain @⟨d, T, found, binds⟩ := first
    have hv := hnames v
    rw [found, Option.map_some] at hv
    obtain ⟨d0, hd0, hname⟩ := Option.map_eq_some_iff.1 hv.symm
    have hfirst : Traces p s ([] ++ [.bind d.name (.var v)]) { s with table := T } :=
      (Traces.nil (.refl s)).bind binds rfl
        ⟨⟨rfl, rfl, fun _ => rfl, rfl, rfl⟩, fun _ _ _ hs => hs, subset_rfl⟩
    have hcons : Program.named p.vars (·.name) .var (v :: vs) =
        (d.name, .var v) :: Program.named p.vars (·.name) .var vs := by
      simp [Program.named, hd0, hname]
    rw [hcons]
    exact hfirst.append (ih hnames)

section

variable (hp : p.TreeShaped) (hf : Fresh p) (hv : p.VarsInBodies) (hl : Linked p s0)

include hp hf hv hl

theorem RanMethod.lexical {i : ScopeId} (hi : Resting p s0 s)
    (hd : s.program.classes.get? c = some d) (hc : s.classScopes.get? c = some i)
    (h : RanMethod p d.file i s m s') :
    Resting p s0 s' ∧ Lexical p c m s'.program ∧ Recalls p s s' := by
  cases h with
  | abstract found _ body =>
    refine ⟨hi, fun d b hd hb => ?_, .refl s⟩
    cases found.symm.trans hd
    rw [body] at hb
    cases hb
  | @body _ _ _ _ _ _ found _ body params run =>
    obtain ⟨names, outer, hplace, hlooks⟩ := hi.toRooted.looks hl (.classDecl hd hc) (by simp)
    have hin : Inner s0 (s.enterMethod d.file i m) := by
      have hclass : Rooted s0 { s with table := s.table.enter i } :=
        hi.toRooted.table ⟨rfl, rfl, fun _ => rfl, rfl, rfl⟩ rfl
      have hdeep := hclass.deeper .parameters
      exact ⟨⟨⟨hdeep.classes, hdeep.enums, hdeep.vars, hdeep.classScopes, hdeep.enumScopes⟩,
        hdeep.scopes, hdeep.size_le⟩, hdeep.current⟩
    have hvars : ∀ v, ((s.enterMethod d.file i m).program.vars.get? v).map Var.name =
        (p.vars.get? v).map Var.name := by
      obtain ⟨classes, ordered, hprogram⟩ := hl.program
      intro v
      refine (hin.vars v).trans ?_
      rw [hprogram]
    have hparams := params.params_traces hvars
    have hrun := RanStmt.traces hp hf hv hl _ run (hparams.idle hi.idle) (hin.traces hparams)
    have hall := hparams.append hrun
    have hout := hin.traces hall
    refine ⟨⟨⟨⟨hout.classes, hout.enums, hout.vars, hout.classScopes, hout.enumScopes⟩, hout.scopes,
      hout.size_le⟩, hall.idle hi.idle⟩, fun dm' b' hdm' hb' => ?_,
      ⟨⟨hall.classes, hall.enums, hall.vars, hall.classScopes, hall.enumScopes⟩, hall.stands,
        hall.waiting⟩⟩
    cases found.symm.trans hdm'
    cases body.symm.trans hb'
    obtain ⟨uses, names', hwalk, -, hu⟩ :=
      hall.walks [] (names :: outer) ((hlooks.deeper .parameters).congr rfl)
    cases hplace [] with
    | classDecl line => exact ⟨_, uses, line, hwalk.framed, hu⟩

theorem RanCode.lexical (hi : Resting p s0 s) (h : RanCode p s c s') :
    Resting p s0 s' ∧ (∀ d, s.program.classes.get? c = some d →
      ∀ m ∈ d.methods, Lexical p c m s'.program) ∧ Recalls p s s' := by
  obtain @⟨d, i, s', decl, found, methods⟩ := h
  have hall := methods.each (J := fun t => Resting p s0 t ∧ Recalls p s t)
    (Φ := fun m t => Lexical p c m t.program) (fun m _ a b hj hm => ?_) ⟨hi, .refl s⟩
  · obtain ⟨⟨hidle, hrec⟩, hm, -⟩ := hall
    refine ⟨hidle, fun d' hd' => ?_, hrec⟩
    cases decl.symm.trans hd'
    exact hm
  · obtain ⟨hidle, hrec⟩ := hj
    obtain ⟨hidle', hlex, hrec'⟩ := RanMethod.lexical hp hf hv hl hidle (hrec.classes ▸ decl)
      (hrec.classScopes ▸ found) hm
    exact ⟨⟨hidle', hrec.trans hrec'⟩, hlex, fun _ h => h.later hrec'⟩

theorem Phases.lexical (h : Phases p s0 s2 s3 s')
    (hc : p.classes.get? c = some d) (hm : m ∈ d.methods) : Lexical p c m s'.program := by
  have hstart : Resting p s0 s3 := h.resting hv hf
  have hall := h.code.each (J := Resting p s0)
    (Φ := fun c t => ∀ d, s0.program.classes.get? c = some d → ∀ m ∈ d.methods,
      Lexical p c m t.program) (fun c _ a b hj hr => ?_) hstart
  · obtain ⟨base, hd⟩ := hl.decl hc
    have hmem := h.ordered.mem_iff.2 (mem_handles.2 (lt_size_of_get? hc))
    exact hall.2.1 c hmem _ hd m hm
  · obtain ⟨hidle, hlex, hrec⟩ := hr.lexical hp hf hv hl hj
    exact ⟨hidle, fun d hd => hlex d (hj.classes ▸ hd),
      fun _ hold d hd m hm => (hold d hd m hm).later hrec⟩

end

/-! ## The whole pass -/

/-- Every class has one list of frames, and every body of a method has one walk from there. Where
the pass comes to its end, each name that the walk meets stands for what the frames say. -/
theorem resolve_binds_lexically {d : ClassDecl} {m : MethodId} {dm : Method} {b : StmtId}
    (hp : p.TreeShaped) (hf : Fresh p) (hv : p.VarsInBodies) (hok : p.resolve.abort = none)
    (hc : p.classes.get? c = some d) (hm : m ∈ d.methods) (hdm : p.methods.get? m = some dm)
    (hb : dm.body = some b) :
    ∃ frames uses, (∀ frames', p.Lineage c frames' ↔ frames' = frames) ∧
      (∀ uses' last, p.Walk frames (p.methodActs dm b) uses' last ↔ uses' = uses ∧ last = frames) ∧
      ∀ u ∈ uses, u.BoundIn p.resolve.program := by
  obtain ⟨s', run, hprogram⟩ := run_of_resolve hok
  obtain ⟨-, s1, s2, s3, -, -, -, -, hphases⟩ := phases_of_run hp hf run
  have hd := hphases.linked.distinct
  obtain ⟨frames, uses, hline, hwalk, hu⟩ :=
    hphases.lexical hp hf hv hphases.linked hc hm dm b hdm hb
  refine ⟨frames, uses, fun frames' => ⟨fun h => h.unique hd hline, ?_⟩,
    fun uses' last => ⟨fun h => h.unique hd hwalk, ?_⟩, fun u hmem => hprogram ▸ hu u hmem⟩
  · rintro rfl
    exact hline
  · rintro ⟨rfl, rfl⟩
    exact hwalk

theorem Program.varsInBodies_of_closed (hL : ∀ e ∈ L, ∀ z ∈ p.parts (.expr e),
    ∃ e' ∈ L, z = .expr e')
    (hc : ∀ d ∈ p.consts.toList, ∀ e ∈ d.typeExpr.toList ++ d.value.toList, e ∈ L)
    (hf : ∀ d ∈ p.fields.toList, d.typeExpr ∈ L)
    (hr : ∀ d ∈ p.methods.toList, ∀ e ∈ d.typeExpr.toList, e ∈ L)
    (hp : ∀ d ∈ p.methods.toList, ∀ v ∈ d.params, ∀ dv ∈ (p.vars.get? v).toList, dv.typeExpr ∈ L) :
    p.VarsInBodies :=
  have hfree := Program.varFree_of_closed hL
  ⟨fun d hd e he => hfree e (hc d hd e he), fun d hd => hfree _ (hf d hd),
    fun d hd e he => hfree e (hr d hd e he), fun d hd v hv dv hdv => hfree _ (hp d hd v hv dv hdv)⟩

/-- A field that the variables of a body hide. -/
def nest : Program :=
  let expr (kind : Expr) : ExprNode := ⟨kind, 1, none⟩
  let name (text : String) : ExprNode := expr (.name text none)
  { Program.empty with
    exprs := .ofList [name "int", name "n", expr (.var ⟨1⟩), name "int", name "x", expr (.var ⟨2⟩),
      name "x", name "x", name "int", name "int", name "int", expr (.literal (.int 3)), name "Size"]
    stmts := .ofList [⟨.expr ⟨2⟩, 1⟩, ⟨.expr ⟨5⟩, 1⟩, ⟨.expr ⟨6⟩, 1⟩, ⟨.block [⟨1⟩, ⟨2⟩], 1⟩,
      ⟨.expr ⟨12⟩, 1⟩, ⟨.ret (some ⟨7⟩), 1⟩, ⟨.block [⟨0⟩, ⟨3⟩, ⟨4⟩, ⟨5⟩], 1⟩]
    classes := .ofList [⟨"Base", ⟨0⟩, 1, false, .normal, none, none, [⟨0⟩], [], [], .unvisited⟩,
      ⟨"Nest", ⟨0⟩, 1, false, .normal, some "Base", none, [], [⟨0⟩], [⟨0⟩], .unvisited⟩]
    consts := .ofList [⟨"Size", 1, .classDecl ⟨0⟩, .hidden, none, some ⟨11⟩, .unvisited, none⟩]
    fields := .ofList [⟨"x", 1, .hidden, ⟨8⟩, none⟩]
    methods := .ofList [⟨"run", 1, .hidden, .normal, false, some ⟨9⟩, [⟨0⟩], some ⟨6⟩, none⟩]
    vars := .ofList [⟨"n", 1, ⟨10⟩, none, none⟩, ⟨"total", 1, ⟨0⟩, some ⟨1⟩, none⟩,
      ⟨"x", 1, ⟨3⟩, some ⟨4⟩, none⟩] }

/-- The variable of the inner block starts with the field that it hides, and the field is back after
the block. -/
theorem nest_binds_lexically :
    nest.TreeShaped ∧ Fresh nest ∧ nest.VarsInBodies ∧ nest.resolve.abort = none ∧
      nest.resolve.program.Stands ⟨4⟩ "x" (.field ⟨0⟩) ∧
      nest.resolve.program.Stands ⟨6⟩ "x" (.var ⟨2⟩) ∧
      nest.resolve.program.Stands ⟨7⟩ "x" (.field ⟨0⟩) ∧
      nest.resolve.program.Stands ⟨12⟩ "Size" (.const ⟨0⟩) ∧
      ∃ frames uses, (∀ frames', nest.Lineage ⟨1⟩ frames' ↔ frames' = frames) ∧
        (∀ uses' last, nest.Walk frames
          (nest.methodActs ⟨"run", 1, .hidden, .normal, false, some ⟨9⟩, [⟨0⟩], some ⟨6⟩, none⟩ ⟨6⟩)
          uses' last ↔ uses' = uses ∧ last = frames) ∧
        ∀ u ∈ uses, u.BoundIn nest.resolve.program := by
  have htree : nest.TreeShaped := by decide +kernel
  have hfresh : Fresh nest := by decide +kernel
  have hok : nest.resolve.abort = none := by decide +kernel
  have hvars : nest.VarsInBodies :=
    Program.varsInBodies_of_closed (L := [⟨8⟩, ⟨9⟩, ⟨10⟩, ⟨11⟩]) (by decide +kernel)
      (by decide +kernel) (by decide +kernel) (by decide +kernel) (by decide +kernel)
  refine ⟨htree, hfresh, hvars, hok, ⟨⟨_, 1, some .int⟩, by decide +kernel, rfl⟩,
    ⟨⟨_, 1, some .int⟩, by decide +kernel, rfl⟩, ⟨⟨_, 1, some .int⟩, by decide +kernel, rfl⟩,
    ⟨⟨_, 1, none⟩, by decide +kernel, rfl⟩,
    resolve_binds_lexically htree hfresh hvars hok (m := ⟨0⟩) rfl (by decide) rfl rfl⟩

/-- A constant of a body that belongs to the program. It names a constant that there is both in the
class and in the program. -/
def stray : Program :=
  let expr (kind : Expr) : ExprNode := ⟨kind, 1, none⟩
  { Program.empty with
    exprs := .ofList [expr (.literal (.int 2)), expr (.literal (.int 1)), expr (.name "X" none)]
    stmts := .ofList [⟨.const ⟨2⟩, 1⟩, ⟨.block [⟨0⟩], 1⟩]
    classes := .ofList [⟨"C", ⟨0⟩, 1, false, .normal, none, none, [⟨1⟩], [], [⟨0⟩], .unvisited⟩]
    consts := .ofList [⟨"X", 1, .program ⟨0⟩, .hidden, none, some ⟨0⟩, .unvisited, none⟩,
      ⟨"X", 1, .classDecl ⟨0⟩, .hidden, none, some ⟨1⟩, .unvisited, none⟩,
      ⟨"k", 1, .program ⟨0⟩, .hidden, none, some ⟨2⟩, .unvisited, none⟩]
    methods := .ofList [⟨"f", 1, .hidden, .normal, false, none, [], some ⟨1⟩, none⟩]
    globals := [⟨0⟩] }

/-- A constant of a class with a variable in the type that is written for it. -/
def leak : Program :=
  let expr (kind : Expr) : ExprNode := ⟨kind, 1, none⟩
  let int (n : Int64) : ExprNode := expr (.literal (.int n))
  { Program.empty with
    exprs := .ofList [int 2, expr (.name "int" none), int 3, expr (.var ⟨0⟩),
      expr (.literal (.bool true)), int 3, expr (.binary .equal ⟨3⟩ (.expr ⟨5⟩)),
      expr (.binary .condOr ⟨4⟩ (.expr ⟨6⟩)), int 3, int 3, expr (.conditional ⟨7⟩ ⟨8⟩ ⟨9⟩),
      expr (.name "int" none), expr (.binary .index ⟨11⟩ (.expr ⟨10⟩)), int 1,
      expr (.collection [⟨13⟩]), expr (.name "X" none)]
    stmts := .ofList [⟨.expr ⟨15⟩, 1⟩]
    classes := .ofList [⟨"C", ⟨0⟩, 1, false, .normal, none, none, [⟨1⟩], [], [⟨0⟩], .unvisited⟩]
    consts := .ofList [⟨"X", 1, .program ⟨0⟩, .hidden, none, some ⟨0⟩, .unvisited, none⟩,
      ⟨"A", 1, .classDecl ⟨0⟩, .hidden, some ⟨12⟩, some ⟨14⟩, .unvisited, none⟩]
    methods := .ofList [⟨"f", 1, .hidden, .normal, false, none, [], some ⟨0⟩, none⟩]
    vars := .ofList [⟨"X", 1, ⟨1⟩, some ⟨2⟩, none⟩]
    globals := [⟨0⟩] }

/-- Inside the body of its class, the name in the constant would stand for the constant of the
class, but it stands for that of the program. The variable in the type of the other constant is
bound in the scope of the class, and so a name in the body stands for the variable. -/
theorem stray_and_leak_bind_elsewhere :
    (stray.TreeShaped ∧ Fresh stray ∧ stray.VarsInBodies ∧ stray.resolve.abort = none ∧
      ∃ frames, stray.Lineage ⟨0⟩ frames ∧
        Frames.find? ([] :: [] :: frames) "X" = some (.const ⟨1⟩) ∧
        stray.resolve.program.Stands ⟨2⟩ "X" (.const ⟨0⟩)) ∧
    leak.TreeShaped ∧ Fresh leak ∧
      (∀ d ∈ leak.consts.toList, ∀ e ∈ d.value.toList, leak.VarFree (.expr e)) ∧
      leak.fields.toList = [] ∧ (∀ d ∈ leak.methods.toList, d.typeExpr = none ∧ d.params = []) ∧
      leak.resolve.abort = none ∧ ∃ frames, leak.Lineage ⟨0⟩ frames ∧
        Frames.find? ([] :: frames) "X" = some (.const ⟨0⟩) ∧
        leak.resolve.program.Stands ⟨15⟩ "X" (.var ⟨0⟩) := by
  have hroot : ∀ {p : Program} {d : ClassDecl}, p.classes.get? ⟨0⟩ = some d → d.baseName = none →
      p.Lineage ⟨0⟩ [(p.memberNames d).reverse, p.globalNames.reverse] := by
    intro p d hd hbase
    refine .root hd ?_
    rintro b ⟨d1, d2, hd1, -, hname⟩
    cases hd.symm.trans hd1
    rw [hbase] at hname
    cases hname
  have hvars : stray.VarsInBodies :=
    Program.varsInBodies_of_closed (L := [⟨0⟩, ⟨1⟩, ⟨2⟩]) (by decide +kernel)
      (by decide +kernel) (by decide +kernel) (by decide +kernel) (by decide +kernel)
  have hleak := Program.varFree_of_closed (p := leak) (L := [⟨0⟩, ⟨13⟩, ⟨14⟩]) (by decide +kernel)
  refine ⟨⟨by decide +kernel, by decide +kernel, hvars, by decide +kernel, _, hroot rfl rfl,
    by decide +kernel, ⟨_, 1, none⟩, by decide +kernel, rfl⟩, by decide +kernel, by decide +kernel,
    fun d hd e he => hleak e ?_, by decide +kernel, by decide +kernel, by decide +kernel, _,
    hroot rfl rfl, by decide +kernel, ⟨_, 1, some .int⟩, by decide +kernel, rfl⟩
  exact (show ∀ d ∈ leak.consts.toList, ∀ e ∈ d.value.toList, e ∈ _ by decide +kernel) d hd e he

end Ci
