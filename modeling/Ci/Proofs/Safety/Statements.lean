-- Statements keep to handles that lead somewhere. No statement stands inside itself,
-- so the depth is enough.
import Ci.Proofs.Safety.Constants

namespace Ci

open Pass Resolve Program

variable {value : Option ExprId} {ws : List Node} {body : StmtId} {cond : ExprId}
  {cases : List Case}

namespace Safe

variable {ρ : Ranking} {s : State} {e : ExprId} {recur : StmtId → Pass Unit} {line : UInt32}

/-! ## From the outside -/

/-- The depth is enough for every expression. -/
theorem room_callDepth (hs : Sound ρ s) : Room ρ (callDepth s.program) (ρ.exprs + 1) s := by
  have hpending := s.program.pending_le
  have hexprs := hs.exprs
  unfold Room callDepth
  calc s.program.pending * (ρ.exprs + 3) + (ρ.exprs + 1) + 1
      ≤ s.program.consts.size * (s.program.exprs.size + 3) + 2 * (s.program.exprs.size + 3) := by
        have := Nat.mul_le_mul hpending (Nat.add_le_add_right hexprs 3)
        omega
    _ = (s.program.consts.size + 2) * (s.program.exprs.size + 3) := by ring

theorem resolveExpr (he : ρ.Sees s.program (.expr e)) :
    Safe ρ (Resolve.resolveExpr e) s fun e' s' => ρ.Sees s'.program (.expr e') := by
  refine of_sound fun hs => ⟨fun _ => ?_⟩
  exact (((callsWithin ρ _).expr s (ρ.exprs + 1) e ⟨he, Nat.lt_succ_of_le (ρ.expr_le e)⟩
    (room_callDepth hs)).mono fun _ _ _ _ h => h.1).holds hs

theorem resolveType (he : ρ.Sees s.program (.expr e)) :
    Safe ρ (Resolve.resolveType e) s fun t s' => ρ.SeesAll s'.program t.refs := by
  refine of_sound fun hs => ⟨fun _ => ?_⟩
  exact ((callsWithin ρ _).type s (ρ.exprs + 1) e ⟨he, Nat.lt_succ_of_le (ρ.expr_le e)⟩
    (room_callDepth hs)).holds hs

theorem resolveConst {k : ConstId} (hk : ρ.Sees s.program (.const k)) :
    Safe ρ (Resolve.resolveConst k) s fun _ _ => True := by
  refine of_sound fun hs => ⟨fun _ => ?_⟩
  exact ((callsWithin ρ _).const s k hk ((room_callDepth hs).mono (Nat.zero_le _))).holds hs

theorem resolveCondition (he : ρ.Sees s.program (.expr e)) :
    Safe ρ (Resolve.resolveCondition e) s fun e' s' => ρ.Sees s'.program (.expr e') :=
  (resolveExpr he).bind fun _ _ _ he' =>
    silent_bind .coerce (coerce he' seesAll_nil) fun _ _ => pure fun _ => he'

/-- An expression that may be missing. -/
theorem optional {resolve : ExprId → Pass ExprId}
    (h : ∀ i, value = some i → Safe ρ (resolve i) s fun e' s' => ρ.Sees s'.program (.expr e')) :
    Safe ρ (value.mapM resolve) s fun value' s' => ∀ i ∈ value'.toList,
    ρ.Sees s'.program (.expr i) := by
  cases value with
  | none => exact pure fun _ i hi => (nomatch hi)
  | some i =>
    refine (h i rfl).bind fun i' _ _ hi' => pure fun _ j hj => ?_
    obtain rfl := List.mem_singleton.1 hj
    exact hi'

/-! ## One statement -/

/-- The statements that a statement holds can be resolved, now and later. -/
def Recurs (ρ : Ranking) (recur : StmtId → Pass Unit) (ws : List Node) (s : State) : Prop :=
  ∀ y, .stmt y ∈ ws → ∀ s', Wider s s' → Safe ρ (recur y) s' fun _ _ => True

/-- A statement that takes the place of another one: its parts are there, and it holds no other
statements. -/
def Instead (ρ : Ranking) (kind kind' : Stmt) (s : State) : Prop :=
  ρ.SeesAll s.program kind'.parts ∧ ∀ y, .stmt y ∈ kind'.parts → .stmt y ∈ kind.parts

theorem Recurs.wider {s' : State} (h : Recurs ρ recur ws s) (hw : Wider s s') :
    Recurs ρ recur ws s' :=
  fun y hy s'' hw' => h y hy s'' (hw.trans hw')

theorem Recurs.mono {ws' : List Node} (h : Recurs ρ recur ws s) (hsub : ws' ⊆ ws) :
    Recurs ρ recur ws' s :=
  fun y hy => h y (hsub hy)

theorem Recurs.all {body : List StmtId} (h : Recurs ρ recur (body.map .stmt) s) :
    Safe ρ (body.forM recur) s fun _ _ => True :=
  forM fun _ hy s' hw => h _ (List.mem_map_of_mem hy) s' hw

theorem block {body : List StmtId} (hrec : Recurs ρ recur (Stmt.block body).parts s)
    (h : ρ.SeesAll s.program (Stmt.block body).parts) :
    Safe ρ (do Pass.inScope .block (body.forM recur); return Stmt.block body) s
      (Instead ρ (.block body)) := by
  refine (inScope (Q := fun _ _ => True) fun s' hw => ?_).bind fun _ s1 hw _ =>
    pure fun _ => ⟨hw.program.seesAll h, fun _ hy => hy⟩
  exact (hrec.wider hw).all.mono fun _ _ _ _ _ _ => trivial

theorem ifThen {onTrue : StmtId} {onFalse : Option StmtId}
    (hrec : Recurs ρ recur (Stmt.ifThen cond onTrue onFalse).parts s)
    (h : ρ.SeesAll s.program (Stmt.ifThen cond onTrue onFalse).parts) :
    Safe ρ (Resolve.ifThen recur cond onTrue onFalse) s
    (Instead ρ (.ifThen cond onTrue onFalse)) := by
  refine (resolveCondition (h (.expr cond) (by simp [Stmt.parts]))).bind
    fun cond' s1 hw1 hcond => ?_
  refine (hrec onTrue (by simp [Stmt.parts]) s1 hw1).bind fun _ s2 hw2 _ => ?_
  have hw12 := hw1.trans hw2
  have helse : Safe ρ (onFalse.forM recur) s2 fun _ _ => True := by
    cases onFalse with
    | none => exact pure fun _ => trivial
    | some y => exact hrec y (by simp [Stmt.parts]) s2 hw12
  refine helse.bind fun _ s3 hw3 _ => pure fun _ => ⟨fun w hw => ?_, fun y hy => ?_⟩
  · rcases List.mem_cons.1 hw with rfl | hw
    · exact (hw2.trans hw3).program.sees hcond
    · exact (hw12.trans hw3).program.sees (h w (List.mem_cons_of_mem _ hw))
  · simpa [Stmt.parts] using hy

/-- The body of a loop. -/
theorem loopBody {b : Breakable} (hrec : Recurs ρ recur ws s)
    (hb : .stmt body ∈ ws) : Safe ρ (Pass.inside b (recur body)) s fun _ _ => True :=
  inside (hrec body hb _ ⟨.refl _, Nat.le_refl _, Nat.le_refl _⟩)

theorem whileLoop (hrec : Recurs ρ recur (Stmt.whileLoop cond body).parts s)
    (h : ρ.SeesAll s.program (Stmt.whileLoop cond body).parts) :
    Safe ρ (Resolve.whileLoop recur cond body) s (Instead ρ (.whileLoop cond body)) := by
  refine (resolveCondition (h (.expr cond) (by simp [Stmt.parts]))).bind
    fun cond' s1 hw1 hcond => ?_
  refine (loopBody (hrec.wider hw1) (by simp [Stmt.parts])).bind fun _ s2 hw2 _ =>
    pure fun _ => ⟨fun w hw => ?_, fun y hy => by simpa [Stmt.parts] using hy⟩
  rcases List.mem_cons.1 hw with rfl | hw
  · exact hw2.program.sees hcond
  · exact (hw1.trans hw2).program.sees (h w (List.mem_cons_of_mem _ hw))

theorem doWhile (hrec : Recurs ρ recur (Stmt.doWhile body cond).parts s)
    (h : ρ.SeesAll s.program (Stmt.doWhile body cond).parts) :
    Safe ρ (Resolve.doWhile recur body cond) s (Instead ρ (.doWhile body cond)) := by
  have hbody := h (.stmt body) (by simp [Stmt.parts])
  refine (loopBody hrec (by simp [Stmt.parts])).bind fun _ s1 hw1 _ => ?_
  refine (resolveCondition (hw1.program.sees (h (.expr cond) (by simp [Stmt.parts])))).bind
    fun cond' s2 hw2 hcond => pure fun _ =>
      ⟨fun w hw => ?_, fun y hy => by simpa [Stmt.parts] using hy⟩
  simp only [Stmt.parts, List.mem_cons, List.not_mem_nil, or_false] at hw
  rcases hw with rfl | rfl
  · exact (hw1.trans hw2).program.sees hbody
  · exact hcond

theorem forLoop {start cond advance : Option ExprId}
    (hrec : Recurs ρ recur (Stmt.forLoop start cond advance body).parts s)
    (h : ρ.SeesAll s.program (Stmt.forLoop start cond advance body).parts) :
    Safe ρ (Resolve.forLoop recur start cond advance body) s
      (Instead ρ (.forLoop start cond advance body)) := by
  have hpart : ∀ i, i ∈ start.toList ++ cond.toList ++ advance.toList →
    ρ.Sees s.program (.expr i) := fun i hi => h _ (List.mem_append_left _ (List.mem_map_of_mem hi))
  have hbody : .stmt body ∈ (Stmt.forLoop start cond advance body).parts := by simp [Stmt.parts]
  refine inScope fun s0 hw0 => ?_
  refine (optional fun i hi => resolveExpr (hw0.program.sees (hpart i (by simp [hi])))).bind
    fun start' s1 hw1 hstart => ?_
  have hw01 := hw0.trans hw1
  refine (optional fun i hi => resolveCondition (hw01.program.sees (hpart i (by simp [hi])))).bind
    fun cond' s2 hw2 hcond => ?_
  have hw02 := hw01.trans hw2
  refine (optional fun i hi => resolveExpr (hw02.program.sees (hpart i (by simp [hi])))).bind
    fun advance' s3 hw3 hadvance => ?_
  have hw03 := hw02.trans hw3
  refine (loopBody (hrec.wider hw03) hbody).bind fun _ s4 hw4 _ =>
    pure fun _ t => ⟨fun w hw => ?_, fun y hy => by simpa [Stmt.parts] using hy⟩
  simp only [Stmt.parts, List.map_append, List.mem_append, List.mem_map, List.mem_singleton] at hw
  rcases hw with (((⟨i, hi, rfl⟩ | ⟨i, hi, rfl⟩) | ⟨i, hi, rfl⟩) | rfl)
  · exact (hw2.trans (hw3.trans hw4)).program.sees (hstart i hi)
  · exact (hw3.trans hw4).program.sees (hcond i hi)
  · exact hw4.program.sees (hadvance i hi)
  · exact (hw03.trans hw4).program.sees (h _ hbody)

theorem caseOf {c : Case} (hrec : Recurs ρ recur c.parts s) (h : ρ.SeesAll s.program c.parts) :
    Safe ρ (Resolve.caseOf recur c) s fun c' s' =>
      c'.body = c.body ∧ ∀ i ∈ c'.values, ρ.Sees s'.program (.expr i) := by
  refine (mapM (A := fun i s' => ρ.Sees s'.program (.expr i)) (fun i hi s' hw => ?_)
    fun _ _ _ hw hi => hw.program.sees hi).bind fun values s1 hw1 hvalues => ?_
  · exact resolveExpr (hw.program.sees (h _ (List.mem_append_left _ (List.mem_map_of_mem hi))))
  · exact ((hrec.wider hw1).mono fun _ hy => List.mem_append_right _ hy).all.bind fun _ s2 hw2 _ =>
      pure fun _ => ⟨rfl, fun i hi => hw2.program.sees (hvalues i hi)⟩

/-- The cases of a switch keep their bodies. -/
theorem casesOf (hrec : Recurs ρ recur (cases.flatMap Case.parts) s)
    (h : ρ.SeesAll s.program (cases.flatMap Case.parts)) :
    Safe ρ (cases.mapM (Resolve.caseOf recur)) s fun cases' s' =>
      ρ.SeesAll s'.program (cases'.flatMap Case.parts) ∧
        ∀ y, .stmt y ∈ cases'.flatMap Case.parts → .stmt y ∈ cases.flatMap Case.parts := by
  induction cases generalizing s with
  | nil => exact pure fun _ => ⟨seesAll_nil, fun _ hy => hy⟩
  | cons c cases ih =>
    rw [List.flatMap_cons] at hrec h
    rw [List.mapM_cons]
    have hc : ρ.SeesAll s.program c.parts := fun w hw => h w (List.mem_append_left _ hw)
    refine (caseOf (hrec.mono fun _ hy => List.mem_append_left _ hy) hc).bind
      fun c' s1 hw1 hcase => ?_
    refine (ih ((hrec.wider hw1).mono fun _ hy => List.mem_append_right _ hy)
      (fun w hw => hw1.program.sees (h w (List.mem_append_right _ hw)))).bind
      fun cases' s2 hw2 hcases => pure fun _ => ?_
    obtain ⟨hbody, hvalues⟩ := hcase
    simp only [List.flatMap_cons, List.mem_append, Case.parts, Ranking.SeesAll, hbody, List.mem_map]
    refine ⟨fun w hw => ?_, fun y hy => ?_⟩
    · rcases hw with (⟨i, hi, rfl⟩ | hw) | hw
      · exact hw2.program.sees (hvalues i hi)
      · obtain ⟨y, hy, rfl⟩ := hw
        exact (hw1.trans hw2).program.sees (hc _ (by simp [Case.parts, hy]))
      · exact hcases.1 w hw
    · rcases hy with (⟨i, _, hi⟩ | hy) | hy
      · cases hi
      · exact .inl (.inr hy)
      · exact .inr (hcases.2 y hy)

theorem switch {value : ExprId} {default : Option (List StmtId)}
    (hrec : Recurs ρ recur (Stmt.switch value cases default).parts s)
    (h : ρ.SeesAll s.program (Stmt.switch value cases default).parts) :
    Safe ρ (Resolve.switch recur value cases default) s
    (Instead ρ (.switch value cases default)) := by
  have hcases : cases.flatMap Case.parts ⊆ (Stmt.switch value cases default).parts := fun w hw =>
    List.mem_cons_of_mem _ (List.mem_append_left _ hw)
  have hdefault : (default.getD []).map .stmt ⊆ (Stmt.switch value cases default).parts :=
    fun w hw =>
    List.mem_cons_of_mem _ (List.mem_append_right _ hw)
  refine (resolveExpr (h (.expr value) (by simp [Stmt.parts]))).bind fun value' s1 hw1 hvalue => ?_
  refine (inScope (Q := fun cases' s' => ρ.SeesAll s'.program (cases'.flatMap Case.parts) ∧
    ∀ y, .stmt y ∈ cases'.flatMap Case.parts → .stmt y ∈ cases.flatMap Case.parts)
    fun s2 hw2 => inside ?_).bind fun cases' s3 hw3 hcases' => pure fun _ =>
      ⟨fun w hw => ?_, fun y hy => ?_⟩
  · have hw12 : Wider s { s2 with breakables := .switch :: s2.breakables } :=
      (hw1.trans hw2).trans ⟨.refl _, Nat.le_refl _, Nat.le_refl _⟩
    refine (casesOf ((hrec.wider hw12).mono hcases) fun w hw =>
      hw12.program.sees (h w (hcases hw))).bind fun cases' s4 hw4 hcases' => ?_
    have hbody : Safe ρ (default.forM fun body => body.forM recur) s4 fun _ _ => True := by
      cases default with
      | none => exact pure fun _ => trivial
      | some => exact ((hrec.wider (hw12.trans hw4)).mono hdefault).all
    exact hbody.bind fun _ s5 hw5 _ => pure fun _ _ => ⟨hw5.program.seesAll hcases'.1, hcases'.2⟩
  · simp only [Stmt.parts, List.mem_cons, List.mem_append] at hw
    rcases hw with rfl | hw | hw
    · exact hw3.program.sees hvalue
    · exact hcases'.1 w hw
    · exact (hw1.trans hw3).program.sees (h w (hdefault hw))
  · simp only [Stmt.parts, List.mem_cons, List.mem_append, reduceCtorEq, false_or] at hy ⊢
    exact hy.imp_left (hcases'.2 y)

theorem ret (h : ρ.SeesAll s.program (Stmt.ret value).parts) :
    Safe ρ (Resolve.ret line value) s (Instead ρ (.ret value)) := by
  have hexpected : Safe ρ returnTy s fun t s' => ρ.SeesAll s'.program t.refs := by
    refine get_bind (of_sound fun hs => ?_)
    split
    · rename_i m hm
      exact ask_bind (fun _ => .fetch (hs.method m hm)) fun d hd =>
        pure fun hs => methodTy_refs hs hd
    · exact pure fun _ => seesAll_nil
  refine silent_bind .returnTy hexpected fun expected hty => ?_
  split
  · rename_i i
    refine (resolveExpr (h (.expr i) (by simp [Stmt.parts]))).bind fun i' s1 hw1 hi' => ?_
    split
    · exact valueTy_bind hi' fun t ht => ask_bind (fun _ => answers_describe ht) fun _ _ => fail
    · refine silent_bind .coerce (coerce hi' (hw1.program.seesAll hty)) fun _ _ =>
        pure fun _ => ⟨?_, by simp [Stmt.parts]⟩
      simpa [Stmt.parts, Ranking.SeesAll] using hi'
  · split
    · exact pure fun _ => ⟨seesAll_nil, fun _ hy => hy⟩
    · exact ask_bind (fun _ => answers_describe hty) fun _ _ => fail

theorem localConst {k : ConstId} (h : ρ.SeesAll s.program (Stmt.const k).parts) :
    Safe ρ (Resolve.localConst line k) s (Instead ρ (.const k)) := by
  have hk := h (.const k) (by simp [Stmt.parts])
  refine (resolveConst hk).bind fun _ s1 hw1 _ => ?_
  refine ask_bind (fun _ => .fetch (hw1.program.sees hk)) fun d _ => ?_
  have hsymbol : ρ.SeesAll s1.program (Symbol.const k).refs := hw1.program.seesAll h
  exact (define hsymbol).bind fun _ s2 hw2 _ =>
    pure fun _ => ⟨(hw1.trans hw2).program.seesAll h, fun _ hy => hy⟩

theorem stmtKind {kind : Stmt} (hrec : Recurs ρ recur kind.parts s)
    (h : ρ.SeesAll s.program kind.parts) :
    Safe ρ (Resolve.stmtKind recur line kind) s (Instead ρ kind) := by
  unfold Resolve.stmtKind
  split
  · exact block hrec h
  · exact ifThen hrec h
  · exact whileLoop hrec h
  · exact doWhile hrec h
  · exact forLoop hrec h
  · exact switch hrec h
  · exact ret h
  · refine get_bind ?_
    split
    · exact fail
    · exact pure fun _ => ⟨seesAll_nil, fun _ hy => hy⟩
  · refine get_bind ?_
    split
    · exact pure fun _ => ⟨seesAll_nil, fun _ hy => hy⟩
    · exact fail
  · rename_i value
    refine (resolveExpr (h (.expr value) (by simp [Stmt.parts]))).bind fun i s1 _ hi => ?_
    refine silent_bind .coerce (coerce hi seesAll_nil) fun _ _ => pure fun _ =>
      ⟨?_, by simp [Stmt.parts]⟩
    simpa [Stmt.parts, Ranking.SeesAll] using hi
  · rename_i value
    refine (resolveExpr (h (.expr value) (by simp [Stmt.parts]))).bind fun i s1 _ hi => ?_
    refine valueTy_bind hi fun t ht => ?_
    split
    · refine pure fun _ => ⟨?_, by simp [Stmt.parts]⟩
      simpa [Stmt.parts, Ranking.SeesAll] using hi
    · exact ask_bind (fun _ => answers_describe ht) fun _ _ => fail
  · rename_i value
    refine (resolveExpr (h (.expr value) (by simp [Stmt.parts]))).bind fun i s1 _ hi =>
      pure fun _ => ⟨?_, by simp [Stmt.parts]⟩
    simpa [Stmt.parts, Ranking.SeesAll] using hi
  · exact localConst h

/-! ## All statements -/

theorem stmtWithin {n : Nat} {y : StmtId} (hy : ρ.Sees s.program (.stmt y))
    (hn : ρ.rank (.stmt y) < n) : Safe ρ (Resolve.stmtWithin n y) s fun _ _ => True := by
  induction n generalizing s y with
  | zero => omega
  | succ _ ih =>
    refine ask_bind (fun _ => .fetch hy) fun node hnode => of_sound fun hs => ?_
    have hparts : ρ.SeesAll s.program node.kind.parts :=
      hs.handles.stmts node (Arena.mem_toList_of_get? hnode)
    have hlower := hs.ranks.stmt y node hnode
    refine (stmtKind (fun z hz s' hw => ih (hw.program.sees (hparts _ hz)) ?_) hparts).bind
      fun kind s1 hw1 hkind => ?_
    · have := hlower z hz
      omega
    · exact updateStmt (hw1.program.sees hy) (fun _ => hkind.1) fun _ z hz =>
        hlower z (hkind.2 z hz)

theorem resolveStmt {y : StmtId} (hy : ρ.Sees s.program (.stmt y)) :
    Safe ρ (Resolve.resolveStmt y) s fun _ _ => True :=
  get_bind (of_sound fun hs => stmtWithin hy (Nat.lt_succ_of_le ((ρ.stmt_le y).trans hs.stmts)))

end Safe

end Ci
