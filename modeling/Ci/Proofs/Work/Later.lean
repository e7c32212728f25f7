-- What a program still has later in a pass. Whatever has been resolved keeps its
-- form and its type, and an expression that has its type has been resolved with all
-- its parts. So questions about what has been resolved keep their answers.
import Ci.Proofs.Pass.Endings
import Ci.Proofs.Work.Fit

namespace Ci

open Pass Arena

variable {D : Set Node} {p q r : Program} {s s' : State} {x : Node} {e : ExprId} {c : ExprId}
  {symbol : Option Symbol} {b : Bool}

/-! ## Classes decide what can be assigned -/

namespace Program

theorem climbs_congr (h : q.classes = p.classes) (ancestor : ClassId) (n : Nat) (c : ClassId) :
    q.climbs ancestor n c = p.climbs ancestor n c := by
  induction n generalizing c with
  | zero => rfl
  | succ _ ih => simp only [climbs, h, ih]

theorem derivesFrom_congr (h : q.classes = p.classes) (c ancestor : ClassId) :
    q.derivesFrom c ancestor = p.derivesFrom c ancestor := by
  simp only [derivesFrom, h, climbs_congr h]

theorem assignable_congr (h : q.classes = p.classes) (a b : Ty) :
    q.assignable a b = p.assignable a b := by
  fun_induction p.assignable a b <;> rw [assignable.eq_def] <;> simp_all [derivesFrom_congr h]

end Program

/-! ## What lasts -/

/-- What has been resolved in one program is the same in a later one. -/
structure Lasts (p q : Program) : Prop where
  size_le : p.exprs.size ≤ q.exprs.size
  exprs : ∀ e n, p.exprs.get? e = some n → n.ty ≠ none → q.exprs.get? e = some n
  added : ∀ e : ExprId, p.exprs.size ≤ e.slot → e.slot < q.exprs.size → q.TypedLiteral e
  outlines : ∀ e n, p.exprs.get? e = some n →
    ∃ n', q.exprs.get? e = some n' ∧ n'.kind.outline = n.kind.outline
  stmts_size : q.stmts.size = p.stmts.size
  classes : q.classes = p.classes
  enums : q.enums = p.enums
  consts_size : q.consts.size = p.consts.size
  consts : ∀ k d, p.consts.get? k = some d → d.status = .resolved → q.consts.get? k = some d
  kept : ∀ k d, p.consts.get? k = some d → ∃ d', q.consts.get? k = some d' ∧ d.Kept d'
  fields : ∀ f d, p.fields.get? f = some d → d.ty ≠ none → q.fields.get? f = some d
  methods : ∀ m d, p.methods.get? m = some d →
    ∃ d', q.methods.get? m = some d' ∧ d'.params = d.params ∧ (d.ty ≠ none → d' = d)
  vars : ∀ v d, p.vars.get? v = some d → d.ty ≠ none → q.vars.get? v = some d

/-- Nothing in a region has been resolved, but literals that have been added. -/
structure Untyped (D : Set Node) (p : Program) : Prop where
  exprs : ∀ e n, .expr e ∈ D → p.exprs.get? e = some n → n.ty = none ∨ p.TypedLiteral e
  vars : ∀ v d, .var v ∈ D → p.vars.get? v = some d → d.ty = none

theorem Untyped.empty : Untyped ∅ p :=
  ⟨fun _ _ h => absurd h (Set.notMem_empty _), fun _ _ h => absurd h (Set.notMem_empty _)⟩

/-- What is as it was at the start has not been resolved. -/
theorem Ready.untyped (h : Ready p s) (hf : Fresh p) (hD : ∀ x ∈ D, p.Same s.program x) :
    Untyped D s.program := by
  refine ⟨fun e n he hn => ?_, fun v d hv hd => ?_⟩
  · exact (h.expr_cases (hD _ he) hn).imp_left fun hn =>
      (hf.exprs n (mem_toList_of_get? hn)).1
  · have hd' : p.vars.get? v = some d := Eq.trans (hD _ hv).symm hd
    exact hf.vars d (mem_toList_of_get? hd')

theorem Fit.untyped (h : Fit p s x) (hf : Fresh p) : Untyped (p.work s.program x) s.program := by
  refine h.ready.untyped hf ?_
  rintro y (hy | hy)
  · exact h.same y hy
  · exact h.ready.waiting y hy

namespace Lasts

theorem trans (h : Lasts p q) (h' : Lasts q r) : Lasts p r where
  size_le := h.size_le.trans h'.size_le
  exprs e n hn ht := h'.exprs e n (h.exprs e n hn ht) ht
  added e hp hr := by
    rcases Nat.lt_or_ge e.slot q.exprs.size with hq | hq
    · obtain ⟨v, line, hv⟩ := h.added e hp hq
      exact ⟨v, line, h'.exprs e _ hv (by simp)⟩
    · exact h'.added e hq hr
  outlines e n hn := by
    obtain ⟨n', hn', ho⟩ := h.outlines e n hn
    obtain ⟨n'', hn'', ho'⟩ := h'.outlines e n' hn'
    exact ⟨n'', hn'', ho'.trans ho⟩
  stmts_size := h'.stmts_size.trans h.stmts_size
  classes := h'.classes.trans h.classes
  enums := h'.enums.trans h.enums
  consts_size := h'.consts_size.trans h.consts_size
  consts k d hd hs := h'.consts k d (h.consts k d hd hs) hs
  kept k d hd := by
    obtain ⟨d', hd', hk⟩ := h.kept k d hd
    obtain ⟨d'', hd'', hk'⟩ := h'.kept k d' hd'
    exact ⟨d'', hd'', hk.trans hk'⟩
  fields f d hd ht := h'.fields f d (h.fields f d hd ht) ht
  methods m d hd := by
    obtain ⟨d', hd', hp, ht⟩ := h.methods m d hd
    obtain ⟨d'', hd'', hp', ht'⟩ := h'.methods m d' hd'
    refine ⟨d'', hd'', hp'.trans hp, fun hty => ?_⟩
    obtain rfl := ht hty
    exact ht' hty
  vars v d hd ht := h'.vars v d (h.vars v d hd ht) ht

theorem of_changes (h : p.Changes D q) (hD : Untyped D p) : Lasts p q where
  size_le := h.exprs.size_le
  exprs e n hn ht := by
    obtain ⟨n', hn', hs⟩ := h.exprs.part e n hn
    by_cases he : .expr e ∈ D
    · obtain ⟨v, line, hv⟩ := (hD.exprs e n he hn).resolve_left ht
      obtain rfl := hv.some_unique hn
      rw [hn', hs.literal v rfl rfl]
    · rw [hn', hs.outside he]
  added := h.added
  outlines e n hn := by
    obtain ⟨n', hn', hs⟩ := h.exprs.part e n hn
    exact ⟨n', hn', hs.outline⟩
  stmts_size := h.stmts_size
  classes := h.classes
  enums := h.enums
  consts_size := h.consts_size
  consts k d hd hs := by
    obtain ⟨d', hd', hstep⟩ := h.consts.part k d hd
    rw [hd', hstep.visited (by simp [hs])]
  kept k d hd := by
    obtain ⟨d', hd', hstep⟩ := h.consts.part k d hd
    exact ⟨d', hd', hstep.kept⟩
  fields f d hd _ := by rw [h.fields, hd]
  methods m d hd := ⟨d, by rw [h.methods, hd], rfl, fun _ => rfl⟩
  vars v d hd ht := by
    obtain ⟨d', hd', hs⟩ := h.vars.part v d hd
    rw [hd', hs.outside fun hin => ht (hD.vars v d hin hd)]

theorem refl (p : Program) : Lasts p p := of_changes (D := ∅) (.refl p) .empty

theorem put {m m' : ExprNode} (hm : s.program.exprs.get? e = some m) (ht : m.ty = none)
    (ho : m'.kind.outline = m.kind.outline) (hl : m'.line = m.line) :
    Lasts s.program (s.put e m').program := by
  refine of_changes (D := {.expr e})
    (.setExpr hm ⟨ho, hl, fun h => absurd rfl h, fun v _ hty => ?_⟩)
    ⟨fun e' n he hn => ?_, fun v d hv => nomatch hv⟩
  · simp [ht] at hty
  · obtain rfl : e' = e := by simpa using he
    obtain rfl := hm.some_unique hn
    exact .inl ht

theorem grow {line : UInt32} {value : Literal} : Lasts s.program (s.grow line value).program :=
  of_changes (D := ∅) .addTyped .empty

theorem setVar {v : VarId} {d d' : Var} (hd : s.program.vars.get? v = some d) (ht : d.ty = none)
    (ho : d'.outline = d.outline) : Lasts s.program (s.setVar v d').program := by
  refine of_changes (D := {.var v}) (.setVar hd ⟨ho, fun h => absurd rfl h⟩)
    ⟨fun e n he => (nomatch he), fun v' d1 hv hd1 => ?_⟩
  obtain rfl : v' = v := by simpa using hv
  obtain rfl := hd.some_unique hd1
  exact ht

theorem setConst {k : ConstId} {d d' : Const} (hd : s.program.consts.get? k = some d)
    (hs : d.status ≠ .resolved) (ht : d.Kept d') : Lasts s.program (s.setConst k d').program :=
  { refl s.program with
    consts_size := by simp [State.setConst]
    kept := fun k' d1 hd1 => by
      by_cases hkk : k = k'
      · subst hkk
        obtain rfl := hd.some_unique hd1
        exact ⟨d', Arena.get?_set_self hd, ht⟩
      · exact ⟨d1, (Arena.get?_set_of_ne hkk).trans hd1, .refl d1⟩
    consts := fun k' d1 hd1 hs1 => by
      have hne : k ≠ k' := by
        rintro rfl
        obtain rfl := hd.some_unique hd1
        exact hs hs1
      exact (Arena.get?_set_of_ne hne).trans hd1 }

theorem setStmt {x : StmtId} {m : StmtNode} : Lasts s.program (s.setStmt x m).program :=
  { refl s.program with stmts_size := by simp [State.setStmt] }

/-- What is a literal is one later, and what is none is none. -/
theorem literal? {v : Option Literal} (h : Lasts p q) (hv : p.literal? e = .ok v) :
    q.literal? e = .ok v := by
  simp only [Program.literal?, Query.bind_ok, fetch_ok] at hv ⊢
  obtain ⟨m, hm, hv⟩ := hv
  obtain ⟨m', hm', ho⟩ := h.outlines e m hm
  refine ⟨m', hm', ?_⟩
  cases hk : m.kind <;> cases hk' : m'.kind <;> simp_all

theorem typedLiteral (h : Lasts p q) (he : p.TypedLiteral e) : q.TypedLiteral e := by
  obtain ⟨v, line, hv⟩ := he
  exact ⟨v, line, h.exprs e _ hv (by simp)⟩

end Lasts

/-! ## Expressions with all their parts -/

/-- The expression and all its parts have types. -/
inductive Whole (p : Program) : ExprId → Prop
  | mk {e : ExprId} {n : ExprNode} (node : p.exprs.get? e = some n) (typed : n.ty ≠ none)
      (parts : ∀ c ∈ n.kind.children, Whole p c) : Whole p e

theorem Whole.literal (h : p.TypedLiteral e) : Whole p e := by
  obtain ⟨v, line, hv⟩ := h
  exact .mk hv (by simp) (by simp)

theorem Whole.later (h : Whole p e) (hl : Lasts p q) : Whole q e := by
  induction h with
  | mk node typed _ ih => exact .mk (hl.exprs _ _ node typed) typed ih

theorem Whole.node (h : Whole p e) (hl : Lasts p q) {n : ExprNode}
    (hn : p.exprs.get? e = some n) : q.exprs.get? e = some n := by
  obtain ⟨node, typed, -⟩ := h
  obtain rfl := node.some_unique hn
  exact hl.exprs e _ hn typed

theorem Whole.child {n : ExprNode} (h : Whole p e) (hn : p.exprs.get? e = some n)
    (hc : c ∈ n.kind.children) : Whole p c := by
  obtain ⟨node, -, parts⟩ := h
  obtain rfl := node.some_unique hn
  exact parts c hc

theorem Expr.mem_parts_of_mem_children {kind : Expr} (h : c ∈ kind.children) :
    .expr c ∈ kind.parts := by
  cases kind <;> simp_all [parts, children]

theorem Program.child_mem_parts (hm : p.exprs.get? e = some m)
    (hc : c ∈ m.kind.children) : .expr c ∈ p.parts (.expr e) := by
  rw [Program.parts_expr hm]
  exact Expr.mem_parts_of_mem_children hc

/-! ## Questions -/

theorem Program.valueTy_ok {t : Ty} :
    p.valueTy e = .ok t ↔ ∃ n, p.exprs.get? e = some n ∧ n.ty.getD .void = t := by
  simp only [valueTy, typeOf, Query.bind_ok, fetch_ok, Query.pure_ok]
  constructor
  · rintro ⟨_, ⟨n, hn, rfl⟩, ht⟩
    exact ⟨n, hn, ht⟩
  · rintro ⟨n, hn, ht⟩
    exact ⟨n.ty, ⟨n, hn, rfl⟩, ht⟩

/-- An expression is the same in two programs, as far as one can ask for it. -/
structure Alike (p q : Program) (e : ExprId) : Prop where
  node : ∀ n, p.exprs.get? e = some n → q.exprs.get? e = some n
  symbol : ∀ n m symbol, n ≤ m → p.symbolWithin n e = .ok symbol → q.symbolWithin m e = .ok symbol
  acts : ∀ n m b, n ≤ m → p.actsWithin n e = .ok b → q.actsWithin m e = .ok b
  left : ∀ n l r, p.exprs.get? e = some n → n.kind = .binary .index l r →
    ∀ n, p.exprs.get? l = some n → q.exprs.get? l = some n

namespace Alike

theorem typeOf (h : Alike p q e) {t : Option Ty} (ht : p.typeOf e = .ok t) :
    q.typeOf e = .ok t := by
  simp only [Program.typeOf, Query.bind_ok, fetch_ok] at ht ⊢
  obtain ⟨n, hn, ht⟩ := ht
  exact ⟨n, h.node n hn, ht⟩

theorem valueTy (h : Alike p q e) {t : Ty} (ht : p.valueTy e = .ok t) : q.valueTy e = .ok t := by
  simp only [Program.valueTy, Query.bind_ok] at ht ⊢
  obtain ⟨u, hu, ht⟩ := ht
  exact ⟨u, h.typeOf hu, ht⟩

theorem literal? (h : Alike p q e) {v : Option Literal} (hv : p.literal? e = .ok v) :
    q.literal? e = .ok v := by
  simp only [Program.literal?, Query.bind_ok, fetch_ok] at hv ⊢
  obtain ⟨n, hn, hv⟩ := hv
  exact ⟨n, h.node n hn, hv⟩

variable (hsize : p.exprs.size ≤ q.exprs.size)

include hsize

theorem symbolOf (h : Alike p q e) (hs : p.symbolOf e = .ok symbol) : q.symbolOf e = .ok symbol :=
  h.symbol _ _ symbol (by simpa [Program.exprDepth] using hsize) hs

theorem hasEffects (h : Alike p q e) (hb : p.hasEffects e = .ok b) : q.hasEffects e = .ok b :=
  h.acts _ _ b (by simpa [Program.exprDepth] using hsize) hb

theorem isVariable (h : Alike p q e) (hb : p.isVariable e = .ok b) : q.isVariable e = .ok b := by
  simp only [Program.isVariable, Query.bind_ok] at hb ⊢
  obtain ⟨symbol, hs, hb⟩ := hb
  exact ⟨symbol, h.symbolOf hsize hs, hb⟩

theorem isPlace (h : Alike p q e) (hb : p.isPlace e = .ok b) : q.isPlace e = .ok b := by
  simp only [Program.isPlace, Query.bind_ok, fetch_ok] at hb ⊢
  obtain ⟨n, hn, hb⟩ := hb
  refine ⟨n, h.node n hn, ?_⟩
  generalize hk : n.kind = kind at hb ⊢
  split at hb
  · exact h.isVariable hsize hb
  · exact h.isVariable hsize hb
  · rename_i left right
    simp only [Program.valueTy, Program.typeOf, Query.bind_ok, fetch_ok] at hb ⊢
    obtain ⟨t, ⟨u, ⟨m, hm, hu⟩, ht⟩, hb⟩ := hb
    exact ⟨t, ⟨u, ⟨m, h.left n left right hn hk m hm, hu⟩, ht⟩, hb⟩
  · exact hb

end Alike

theorem anyM_ok {f g : ExprId → Query Bool} {xs : List ExprId}
    (h : ∀ x ∈ xs, ∀ b, f x = .ok b → g x = .ok b) (hx : xs.anyM f = .ok b) :
    xs.anyM g = .ok b := by
  induction xs with
  | nil => exact hx
  | cons x _ ih =>
    simp only [List.anyM, Query.bind_ok] at hx ⊢
    obtain ⟨a, ha, hx⟩ := hx
    refine ⟨a, h x (by simp) a ha, ?_⟩
    cases a with
    | true => exact hx
    | false => exact ih (fun y hy => h y (by simp [hy])) hx

namespace Whole

variable (h : Whole p e) (hl : Lasts p q)

include h hl

theorem symbolWithin {n m : Nat} (hnm : n ≤ m)
    (ha : p.symbolWithin n e = .ok symbol) : q.symbolWithin m e = .ok symbol := by
  induction n generalizing e m with
  | zero => simp [Program.symbolWithin] at ha
  | succ n ih =>
    obtain ⟨m, rfl⟩ :=
      Nat.exists_eq_succ_of_ne_zero (Nat.ne_of_gt (Nat.lt_of_lt_of_le n.succ_pos hnm))
    simp only [Program.symbolWithin, Query.bind_ok, fetch_ok] at ha ⊢
    obtain ⟨node, hn, ha⟩ := ha
    refine ⟨node, h.node hl hn, ?_⟩
    split at ha
    · exact ha
    · rename_i hk
      exact ih (h.child hn (by simp [hk]))
        (Nat.le_of_succ_le_succ hnm) ha
    · exact ha

theorem actsWithin {n m : Nat} (hnm : n ≤ m) (ha : p.actsWithin n e = .ok b) :
    q.actsWithin m e = .ok b := by
  induction n generalizing e m b with
  | zero => simp [Program.actsWithin] at ha
  | succ n ih =>
    obtain ⟨m, rfl⟩ :=
      Nat.exists_eq_succ_of_ne_zero (Nat.ne_of_gt (Nat.lt_of_lt_of_le n.succ_pos hnm))
    simp only [Program.actsWithin, Query.bind_ok, fetch_ok] at ha ⊢
    obtain ⟨node, hn, ha⟩ := ha
    refine ⟨node, h.node hl hn, ?_⟩
    split at ha
    · rwa [if_pos (by assumption)]
    · rw [if_neg (by assumption)]
      exact anyM_ok (fun c hc b hb => ih (h.child hn hc) (Nat.le_of_succ_le_succ hnm) hb) ha

theorem alike : Alike p q e where
  node _ hn := h.node hl hn
  symbol _ _ _ hnm ha := h.symbolWithin hl hnm ha
  acts _ _ _ hnm ha := h.actsWithin hl hnm ha
  left n l r hn hk _ hm := (h.child hn (by simp [hk])).node hl hm

end Whole

end Ci
