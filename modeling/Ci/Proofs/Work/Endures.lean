-- What statements and the phases keep. A statement resolves its expressions, and the
-- phases resolve constants, types and statements. Between them the pass enters and
-- leaves scopes and records what it has found. So what all of these keep is kept by the
-- pass.
import Ci.Proofs.Work.Upholds

namespace Ci

open Pass

variable {p : Program} {n : Nat} {s s1 s2 s3 s' : State} {c : ClassId} {x : StmtId} {m : MethodId}
  {kind kind' : Stmt} {P : State → Prop} {R : State → StmtId → State → Prop}

/-- Something that does not depend on where the pass is, is kept by what the pass resolves and
records. -/
structure Endures (p : Program) (P : State → Prop) : Prop where
  place : ∀ {s t : State}, P s → t.program = s.program → P t
  edit : ∀ {s : State} {q}, Lasts s.program q → q.consts = s.program.consts → P s →
    P { s with program := q }
  value : ∀ {n s e e' s'}, Ran p n s e e' s' → P s → P s'
  type : ∀ {n s e t s'}, RanType p n s e t s' → P s → P s'
  inner : ∀ {s k s'}, RanLocal p s k s' → P s → P s'
  const : ∀ {n s k s'}, RanConst p n s k s' → P s → P s'

namespace Endures

variable (hE : Endures p P)

/-- What each of the steps keeps, all of them keep. -/
theorem all {ι : Type} {R : State → ι → State → Prop} {is : List ι}
    (hR : ∀ s i s', R s i s' → P s → P s') (h : RanAll R s is s') (hs : P s) : P s' := by
  induction h with
  | nil => exact hs
  | cons first _ ih => exact ih (hR _ _ _ first hs)

include hE

/-! ## Statements -/

theorem list {ι : Type} {exprOf : ι → ExprId} {K : ι → ExprId → State → Prop} {is : List ι}
    {es : List ExprId} (h : RanList p State.depth exprOf K s is es s') (hs : P s) : P s' := by
  induction h with
  | nil => exact hs
  | cons first _ _ ih => exact ih (hE.value first hs)

theorem cases {cases cases' : List Case} (hR : ∀ s x s', R s x s' → P s → P s')
    (h : RanCases p R s cases cases' s') (hs : P s) : P s' := by
  induction h with
  | nil => exact hs
  | cons labels body _ ih => exact ih (all hR body (hE.list labels hs))

theorem stepKind (hR : ∀ s x s', R s x s' → P s → P s') (h : StepKind p R s kind kind' s')
    (hs : P s) : P s' := by
  cases h with
  | block walk => exact hE.place (all hR walk (hE.place hs rfl)) rfl
  | ifThen condition _ onTrue onFalse =>
    exact all hR onFalse (hR _ _ _ onTrue (hE.value condition hs))
  | whileLoop condition _ walk =>
    exact hE.place (hR _ _ _ walk (hE.place (hE.value condition hs) rfl)) rfl
  | doWhile walk condition =>
    exact hE.value condition (hE.place (hR _ _ _ walk (hE.place hs rfl)) rfl)
  | forLoop first condition step walk =>
    have h1 := hE.list first (hE.place hs rfl)
    have h3 := hE.list step (hE.list condition h1)
    exact hE.place (hR _ _ _ walk (hE.place h3 rfl)) rfl
  | switch subject walk last =>
    have h2 := hE.cases hR walk (hE.place (hE.value subject hs) rfl)
    exact hE.place (all hR last h2) rfl
  | ret _ _ result => exact hE.value result hs
  | retNone => exact hs
  | leave => exact hs
  | next => exact hs
  | throw text => exact hE.value text hs
  | delete pointer => exact hE.value pointer hs
  | expr result => exact hE.value result hs
  | const walk => exact hE.place (hE.inner walk hs) rfl

theorem stmt (hp : p.TreeShaped) (hf : Fresh p) (h : RanStmt p n s x s') (hs : P s) : P s' := by
  induction n generalizing s x s' with
  | zero => exact absurd h not_ranStmt_zero
  | succ n ih =>
    obtain ⟨node, kind, still⟩ := h.step hp hf
    exact hE.edit .setStmt rfl (hE.stepKind (fun _ _ _ => ih) kind hs)

/-! ## Phases -/

section

variable (hf : Fresh p)

include hf

theorem field {f : FieldId} (h : RanField p s f s') (hs : P s) : P s' := by
  obtain ⟨found, run, still⟩ := h
  exact hE.edit (.setField still (hf.fields _ (Arena.mem_toList_of_get? found))) rfl
    (hE.type run hs)

theorem param {v : VarId} (h : RanParam p s v s') (hs : P s) : P s' := by
  obtain ⟨found, run, still⟩ := h
  exact hE.edit (.setVar still (hf.vars _ (Arena.mem_toList_of_get? found)) rfl) rfl
    (hE.type run hs)

theorem signature (h : RanSignature p s m s') (hs : P s) : P s' := by
  obtain @⟨d, ty, s1, _, found, result, still, params⟩ := h
  have h1 : P s1 := by
    generalize d.typeExpr = te at result
    cases result with
    | none => exact hs
    | some run => exact hE.type run hs
  exact all (fun _ _ _ run => hE.param hf run) params
    (hE.edit (.setMethod still (hf.methods _ (Arena.mem_toList_of_get? found)) rfl) rfl h1)

theorem types (h : RanTypes p s c s') (hs : P s) : P s' := by
  obtain ⟨-, -, fields, methods⟩ := h
  have h1 := all (fun _ _ _ run => hE.field hf run) fields (hE.place hs rfl)
  exact hE.place (all (fun _ _ _ run => hE.signature hf run) methods h1) rfl

theorem method (hp : p.TreeShaped) {file : FileId} {i : ScopeId} (h : RanMethod p file i s m s')
    (hs : P s) : P s' := by
  cases h with
  | abstract => exact hs
  | body _ _ _ _ params run =>
    have h1 := all (fun _ _ _ hbound hs => ?_) params (hE.place hs rfl)
    · exact hE.place (hE.stmt hp hf run h1) rfl
    · obtain ⟨-, binds⟩ := hbound
      exact hE.place hs rfl

theorem code (hp : p.TreeShaped) (h : RanCode p s c s') (hs : P s) : P s' := by
  obtain ⟨-, -, methods⟩ := h
  exact all (fun _ _ _ run => hE.method hf hp run) methods hs

/-- What is the case once the classes are linked is the case between the phases. -/
theorem phases (hp : p.TreeShaped) (h : Phases p s1 s2 s3 s') (h1 : P s1) :
    P s2 ∧ P s3 ∧ P s' := by
  have h2 := all (fun _ _ _ run => hE.const run) h.consts h1
  have h3 := all (fun _ _ _ run => hE.types hf run) h.types h2
  exact ⟨h2, h3, all (fun _ _ _ run => hE.code hf hp run) h.code h3⟩

end

end Endures

end Ci
