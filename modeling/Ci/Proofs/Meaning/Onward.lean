-- What is known on the way from one state to another while expressions are resolved. A
-- constant that has been visited means what its initializer meant, and so does what takes
-- the place of an expression.
import Ci.Proofs.Meaning.Operators

namespace Ci

open Pass Arena

variable {p q : Program} {n : Nat} {b s s1 s2 s' t : State} {e e' l r c : ExprId} {m : ExprNode}
  {k : ConstId} {d : Const} {x y : Node} {scope : ScopeId} {env : VarId → Value} {text : String}
  {V W : Nat → Option Value}

/-! ## Forms of expressions -/

/-- What a name stands for is a variable or a constant of the kind that has a value. -/
inductive PlainSymbol (s : State) (scope : ScopeId) : Symbol → Prop
  | var {v : VarId} {d : Var} {t : Ty} (found : s.program.vars.get? v = some d)
      (type : d.ty = some t)
      (scalar : t.isScalar) : PlainSymbol s scope (.var v)
  | const {k : ConstId} {d : Const} {x : ExprId} (found : s.program.consts.get? k = some d)
      (value : d.value = some x) (plain : PlainExpr s (s.home scope d.owner) x) :
      PlainSymbol s scope (.const k)

/-- The form of an expression on integers and truth values. -/
def PlainForm (s : State) (scope : ScopeId) : Expr → Prop
  | .literal v => v.value?.isSome
  | .name text known => ∃ symbol, s.denotes scope text known = some symbol ∧
    PlainSymbol s scope symbol
  | .before op inner => op.isPlain ∧ PlainExpr s scope inner
  | .binary op left (.expr right) =>
    op.isPlain ∧ PlainExpr s scope left ∧ PlainExpr s scope right
  | .conditional cond onTrue onFalse =>
    PlainExpr s scope cond ∧ PlainExpr s scope onTrue ∧ PlainExpr s scope onFalse
  | _ => False

theorem PlainExpr.form (h : PlainExpr s scope e) :
    ∃ m, s.program.exprs.get? e = some m ∧ PlainForm s scope m.kind := by
  cases h with
  | literal hm hk hv => exact ⟨_, hm, by rw [hk]; exact hv⟩
  | var hm hk hd hv ht hs => exact ⟨_, hm, by rw [hk]; exact ⟨_, hd, .var hv ht hs⟩⟩
  | const hm hk hd hc hv he => exact ⟨_, hm, by rw [hk]; exact ⟨_, hd, .const hc hv he⟩⟩
  | before hm hk hop he => exact ⟨_, hm, by rw [hk]; exact ⟨hop, he⟩⟩
  | binary hm hk hop hl hr => exact ⟨_, hm, by rw [hk]; exact ⟨hop, hl, hr⟩⟩
  | conditional hm hk hc hl hr => exact ⟨_, hm, by rw [hk]; exact ⟨hc, hl, hr⟩⟩

/-- The parts of such an expression are such expressions. -/
theorem PlainForm.parts {kind : Expr} (h : PlainForm s scope kind) (hy : y ∈ kind.parts) :
    ∃ c, y = .expr c ∧ PlainExpr s scope c := by
  cases kind with
  | before =>
    obtain rfl : y = _ := by simpa using hy
    exact ⟨_, rfl, h.2⟩
  | binary op left right =>
    cases right with
    | expr right =>
      simp only [Expr.parts, Expr.children, Operand.exprs, List.map_cons, List.map_nil,
        List.mem_cons, List.not_mem_nil, or_false] at hy
      rcases hy with rfl | rfl
      · exact ⟨_, rfl, h.2.1⟩
      · exact ⟨_, rfl, h.2.2⟩
    | _ => exact h.elim
  | conditional =>
    simp only [Expr.parts, Expr.children, List.map_cons, List.map_nil, List.mem_cons,
      List.not_mem_nil, or_false] at hy
    rcases hy with rfl | rfl | rfl
    · exact ⟨_, rfl, h.1⟩
    · exact ⟨_, rfl, h.2.1⟩
    · exact ⟨_, rfl, h.2.2⟩
  | literal => simp at hy
  | name => simp at hy
  | after => exact h.elim
  | collection => exact h.elim
  | var => exact h.elim

/-- Such an expression declares no variables. -/
theorem PlainExpr.varFree (h : PlainExpr s scope e)
    (hsame : ∀ y ∈ p.region (.expr e), p.Same s.program y) : p.VarFree (.expr e) := by
  have hin : ∀ y ∈ p.region (.expr e), ∃ c, y = .expr c ∧ PlainExpr s scope c := by
    intro y hy
    induction hy with
    | refl => exact ⟨e, rfl, h⟩
    | @tail y z hy hz ih =>
      obtain ⟨c, rfl, hc⟩ := ih
      obtain ⟨m, hm, hz⟩ := Program.mem_elim hz
      obtain ⟨m', hm', hform⟩ := hc.form
      obtain rfl := (hsame _ hy m hm).some_unique hm'
      exact hform.parts hz
  intro v hv
  obtain ⟨c, hc, -⟩ := hin _ hv
  cases hc

/-! ## From a state on -/

/-- One state comes from another while expressions without variables are resolved. -/
structure Since (b s : State) : Prop where
  lasts : Lasts b.program s.program
  scopes : s.table.scopes = b.table.scopes
  classScopes : s.classScopes = b.classScopes
  enumScopes : s.enumScopes = b.enumScopes
  visited : ∀ k d, b.program.consts.get? k = some d → d.status ≠ .unvisited →
    s.program.consts.get? k = some d

namespace Since

theorem refl (b : State) : Since b b := ⟨.refl _, rfl, rfl, rfl, fun _ _ hd _ => hd⟩

theorem edit (h : Since b s) (he : Edits x s s') (hx : p.VarFree x) : Since b s' := by
  refine ⟨h.lasts.trans he.lasts, ?_, he.place.classScopes.trans h.classScopes,
    he.place.enumScopes.trans h.enumScopes, by rw [he.consts]; exact h.visited⟩
  rcases he.binds with hb | ⟨_, v, rfl, -⟩
  · rw [hb, h.scopes]
  · exact absurd Program.mem_region_self (hx v)

theorem place (h : Since b s) {owner : Owner} (hp : Placed s owner t) : Since b t := by
  cases hp <;> exact ⟨h.lasts, h.scopes, h.classScopes, h.enumScopes, h.visited⟩

theorem backTo (h : Since b s) : Since b (s.backTo t) :=
  ⟨h.lasts, h.scopes, h.classScopes, h.enumScopes, h.visited⟩

/-- A constant that had not been visited changes. -/
theorem setConst {d d' : Const} (h : Since b s) (hd : s.program.consts.get? k = some d)
    (hs : d.status ≠ .resolved) (ht : d.Kept d')
    (hb : ∀ d, b.program.consts.get? k = some d → d.status = .unvisited) :
    Since b (s.setConst k d') := by
  refine ⟨h.lasts.trans (.setConst hd hs ht), h.scopes, h.classScopes, h.enumScopes,
    fun k' d1 hd1 hs1 => ?_⟩
  have hne : k ≠ k' := by
    rintro rfl
    exact hs1 (hb d1 hd1)
  exact (get?_set_of_ne hne).trans (h.visited k' d1 hd1 hs1)

end Since

/-- What takes the place of an expression means, from now on, what the expression meant in an
earlier state. -/
def Retains (env : VarId → Value) (b : State) (scope : ScopeId) (e : ExprId) (r : Program)
    (e' : ExprId) : Prop :=
  ∀ q, Lasts r q → Means env q (fun n => b.evalWithin env n scope e) e'

theorem Retains.later {r : Program} (h : Retains env b scope e r e') (hl : Lasts r q) :
    Retains env b scope e q e' :=
  fun q' hq => h q' (hl.trans hq)

/-- A constant that has been resolved means, from now on, what an expression meant in an earlier
state. -/
structure ConstRetains (env : VarId → Value) (b : State) (scope : ScopeId) (x : ExprId)
    (r : Program) (d : Const) : Prop where
  resolved : d.status = .resolved
  type : ∃ t, d.ty = some t ∧ t.isPlain ∧ ∀ n v, b.evalWithin env n scope x = some v → t.Fits v
  value : ∃ x', d.value = some x' ∧ ∀ q, Lasts r q →
    (∀ n, Implies (b.evalWithin env n scope x) (q.valueWithin env n x')) ∧
      ∀ v, q.literal? x' = .ok (some v) → v.value?.isSome

theorem ConstRetains.later {x : ExprId} {r : Program} (h : ConstRetains env b scope x r d)
    (hl : Lasts r q) : ConstRetains env b scope x q d := by
  obtain ⟨x', hx', hvalue⟩ := h.value
  exact ⟨h.resolved, h.type, x', hx', fun q' hq => hvalue q' (hl.trans hq)⟩

/-- A constant that waited in an earlier state, and whose initializer was an expression on integers
and truth values, means what the initializer meant. -/
def MeansSame (p : Program) (env : VarId → Value) (b : State) (k : ConstId) (r : Program) : Prop :=
  .const k ∈ p.waiting b.program → ∀ d x scope, b.program.consts.get? k = some d →
    d.value = some x → PlainExpr b (b.home scope d.owner) x →
    ∃ d', r.consts.get? k = some d' ∧ ConstRetains env b (b.home scope d.owner) x r d'

/-- All that is known of a constant that has been resolved. -/
def KnownFrom (p : Program) (env : VarId → Value) (b : State) (k : ConstId) (r : Program) : Prop :=
  r.SettledConst k ∧ MeansSame p env b k r

theorem KnownFrom.stable (k : ConstId) (r q : Program) (hl : Lasts r q)
    (h : KnownFrom p env b k r) : KnownFrom p env b k q := by
  refine ⟨h.1.later hl, fun hw d x scope hd hx hplain => ?_⟩
  obtain ⟨d', hd', hretains⟩ := h.2 hw d x scope hd hx hplain
  exact ⟨d', hl.consts k d' hd' hretains.resolved, hretains.later hl⟩

/-- What is the case on the way. -/
structure Onward (p : Program) (env : VarId → Value) (b s : State) : Prop where
  since : Since b s
  known : Told (KnownFrom p env b) s

theorem Onward.settled (h : Onward p env b s) : SettledConsts s :=
  fun k d hd hs => (h.known k d hd hs).1

theorem Onward.edit (h : Onward p env b s) (he : Edits x s s') (hx : p.VarFree x) :
    Onward p env b s' :=
  ⟨h.since.edit he hx, h.known.same KnownFrom.stable he.lasts he.consts⟩

theorem Program.VarFree.part (h : p.VarFree x) (hy : y ∈ p.parts x) : p.VarFree y :=
  fun v hv => h v (Program.region_subset hy hv)

/-- What becomes of an expression that is resolved on the way from a state. -/
structure Renders (p : Program) (env : VarId → Value) (b s : State) (e e' : ExprId) (s' : State) :
    Prop where
  onward : p.VarFree (.expr e) → Onward p env b s → Onward p env b s'
  retains : (∀ y ∈ p.region (.expr e), p.Same b.program y) → PlainExpr b s.table.current e →
    Onward p env b s → Retains env b s.table.current e s'.program e'

/-- What becomes of all that is resolved on the way from a state. -/
abbrev AllRender (p : Program) (env : VarId → Value) (b : State) : Nat → Prop :=
  Each p (fun _ => Renders p env b)
    (fun _ s e _ s' => p.VarFree (.expr e) → Onward p env b s → Onward p env b s')
    (fun _ s _ s' => Onward p env b s → Onward p env b s')

theorem AllRender.upholds (ih : AllRender p env b n) :
    Upholds p n p.VarFree (Onward p env b) where
  part := Program.VarFree.part
  edit hx h hs := hs.edit h hx
  const := ih.const
  value hx run := (ih.expr run).onward hx
  type hx run := ih.type run hx

/-! ## Names -/

/-- What a name stands for depends on the scopes only. -/
theorem ScopeTable.lookup_congr {t t' : ScopeTable} (h : t.scopes = t'.scopes)
    (i : ScopeId) (name : String) : t.lookup i name = t'.lookup i name := by
  have hs : ∀ admits n j, t.search admits name n j = t'.search admits name n j := by
    intro admits n
    induction n with
    | zero => intro j; cases j <;> rfl
    | succ _ ih =>
      intro j
      cases j with
      | none => rfl
      | some => simp only [ScopeTable.search, ScopeTable.fetch, h, ih]
  simp only [ScopeTable.lookup, h, hs]

theorem Since.denotes (h : Since b s) {found : Symbol}
    (hf : s.table.lookup scope text = .ok (some found)) :
    b.denotes scope text none = some found := by
  rw [ScopeTable.lookup_congr h.scopes] at hf
  simp [Pass.State.denotes, hf, Except.toOption]

theorem State.evalWithin_name {known : Option Symbol} {found : Symbol}
    (hm : b.program.exprs.get? e = some m) (hk : m.kind = .name text known)
    (hd : b.denotes scope text known = some found) :
    b.evalWithin env (n + 1) scope e = found.eval env fun k =>
      (b.program.consts.get? k).bind fun d =>
        d.value.bind (b.evalWithin env n (b.home scope d.owner)) := by
  rw [Pass.State.evalWithin, Program.evalVia_eq hm, hk]
  simp [Expr.eval, hd]

theorem State.evalWithin_const {known : Option Symbol} {x : ExprId}
    (hm : b.program.exprs.get? e = some m) (hk : m.kind = .name text known)
    (hd : b.denotes scope text known = some (.const k))
    (hc : b.program.consts.get? k = some d) (hx : d.value = some x) :
    b.evalWithin env (n + 1) scope e = b.evalWithin env n (b.home scope d.owner) x := by
  rw [State.evalWithin_name hm hk hd]
  simp [Symbol.eval, hc, hx]

/-- A constant that had been resolved before means what its value meant. -/
theorem SettledConsts.retains (h : SettledConsts b) (hd : b.program.consts.get? k = some d)
    (hs : d.status = .resolved) {x : ExprId} (hx : d.value = some x)
    (hplain : PlainExpr b scope x) :
    ConstRetains env b scope x b.program d := by
  obtain ⟨hrec, hsealed⟩ := h.get hd hs
  obtain ⟨m, hm, hform⟩ := hplain.form
  have hvalue : ∀ q, Lasts b.program q → ∀ n,
      Implies (b.evalWithin env n scope x) (q.valueWithin env n x) :=
    fun q hq n => (hsealed x hx).implies h hq fun _ _ _ => rfl
  refine ⟨hs, ?_, x, hx, fun q hq => ⟨hvalue q hq, fun v hv => ?_⟩⟩
  · cases howner : d.owner.isEnum with
    | true =>
      obtain ⟨c, hc⟩ : ∃ c, d.owner = .enumDecl c := by
        cases ho : d.owner <;> simp_all [Owner.isEnum]
      exact ⟨_, (hrec.enumerator c hc).1, rfl, fun _ _ _ => trivial⟩
    | false =>
      obtain ⟨x', t, hx', constant, settled, recorded, ty, -⟩ := hrec.plain howner
      obtain rfl := hx.some_unique hx'
      refine ⟨t, ty, ?_⟩
      cases constant with
      | @literal _ m' w node kind =>
        obtain rfl := hm.some_unique node
        rw [kind] at hform
        obtain rfl : w.ty = t := by
          simpa [Program.ty?, hm, settled.literal m w hm kind] using recorded
        refine ⟨w.isPlain_ty hform, fun n v hv => w.fits_ty ?_⟩
        have hv' := Program.valueWithin_mono (Nat.le_succ n) v (hvalue _ (.refl _) n v hv)
        rwa [Program.valueWithin_literal hm kind] at hv'
      | @enumerator _ k' d' symbol found owner =>
        -- the value is named by a value of an enumeration, which is resolved as well
        obtain ⟨⟨d'', hd'', hs''⟩, hty⟩ := settled.proper symbol
        obtain rfl := found.some_unique hd''
        obtain ⟨c, hc⟩ : ∃ c, d'.owner = .enumDecl c := by
          cases ho : d'.owner <;> simp_all [Owner.isEnum]
        have henum := ((h.get found hs'').1.enumerator c hc).1
        rw [Program.ty?, hty] at recorded
        obtain rfl : .enumeration c = t := by simpa [Program.symbolTy?, found, henum] using recorded
        exact ⟨rfl, fun _ _ _ => trivial⟩
      | collection node kind =>
        obtain rfl := hm.some_unique node
        rw [kind] at hform
        exact hform.elim
  · obtain ⟨m', hm', hk⟩ := Program.literal?_ok.1 hv
    obtain rfl := ((hsealed x hx).settled.whole.node hq hm).some_unique hm'
    rw [hk] at hform
    exact hform

/-- A name has been bound and typed. -/
theorem retains_bound {found : Symbol} {ty : Ty} {r : Program}
    (hm : b.program.exprs.get? e = some m)
    (hk : m.kind = .name text none) (hd : b.denotes scope text none = some found) {m' : ExprNode}
    (hm' : r.exprs.get? e' = some m') (hk' : m'.kind = .name text (some found))
    (ht : m'.ty = some ty) (hplain : ty.isPlain)
    (hfits : ∀ n v, b.evalWithin env n scope e = some v → ty.Fits v)
    (hval : ∀ q, Lasts r q → ∀ n k, found = .const k →
      Implies ((b.program.consts.get? k).bind fun d =>
          d.value.bind (b.evalWithin env n (b.home scope d.owner)))
        ((q.consts.get? k).bind fun d => d.value.bind (q.valueWithin env n))) :
    Retains env b scope e r e' := by
  intro q hq
  have hm'' := hq.exprs e' m' hm' (by simp [ht])
  refine ⟨⟨m', ty, hm'', ht, hplain, by simp [hk'], hfits⟩, fun n v hv => ?_⟩
  cases n with
  | zero => cases hv
  | succ n =>
    rw [State.evalWithin_name hm hk hd] at hv
    rw [Program.valueWithin, Program.evalVia_eq hm'', hk']
    cases found with
    | const k => exact hval q hq n k rfl v hv
    | _ => exact hv

theorem retains_var {v : VarId} {d : Var} {ty : Ty} {r : Program} {m' : ExprNode}
    (hm : b.program.exprs.get? e = some m) (hk : m.kind = .name text none)
    (hd : b.denotes scope text none = some (.var v)) (hv : b.program.vars.get? v = some d)
    (hty : d.ty = some ty) (scalar : ty.isScalar) (admits : b.Admits env)
    (hm' : r.exprs.get? e' = some m') (hk' : m'.kind = .name text (some (.var v)))
    (ht : m'.ty = some ty) : Retains env b scope e r e' := by
  refine retains_bound hm hk hd hm' hk' ht ?_ (fun n w hw => ?_) (by simp)
  · cases ty <;> simp_all [Ty.isScalar, Ty.isPlain]
  · cases n with
    | zero => cases hw
    | succ n =>
      rw [State.evalWithin_name hm hk hd] at hw
      rw [← Option.some.inj hw]
      exact (admits v d ty hv hty scalar).fits

section

variable {d' : Const} {x : ExprId} (hm : b.program.exprs.get? e = some m)
  (hk : m.kind = .name text none) (hd : b.denotes scope text none = some (.const k))
  (hc : b.program.consts.get? k = some d) (hx : d.value = some x)

include hm hk hd hc hx

theorem retains_const {r : Program} {m' : ExprNode} (hc' : r.consts.get? k = some d')
    (h : ConstRetains env b (b.home scope d.owner) x r d') (hm' : r.exprs.get? e' = some m')
    (hk' : m'.kind = .name text (some (.const k))) (ht : m'.ty = d'.ty) :
    Retains env b scope e r e' := by
  obtain ⟨ty, hty, hplain, hfits⟩ := h.type
  obtain ⟨x', hx', hvalue⟩ := h.value
  refine retains_bound hm hk hd hm' hk' (ht.trans hty) hplain (fun n w hw => ?_) ?_
  · cases n with
    | zero => cases hw
    | succ n =>
      rw [State.evalWithin_const hm hk hd hc hx] at hw
      exact hfits n w hw
  · rintro q hq n _ ⟨⟩
    simpa [hc, hx, hq.consts k d' hc' h.resolved, hx'] using (hvalue q hq).1 n

/-- The value of a constant takes the place of its name. -/
theorem retains_inlined {v : Literal} {m' : ExprNode}
    (h : ConstRetains env b (b.home scope d.owner) x s.program d')
    (value : Resolve.inlined? scope d' s = .ok (some v) s)
    (still : s.program.exprs.get? e = some m') (room : s.program.exprs.size < UInt32.size)
    (hs : SettledConsts (s.grow m'.line v)) :
    Retains env b scope e (s.grow m'.line v).program s.program.exprs.next := by
  obtain ⟨x', hx', hlit⟩ : ∃ x, d'.value = some x ∧ s.program.literal? x = .ok (some v) := by
    obtain ⟨-, -, ⟨⟨⟩, -⟩ | ⟨-, hvalue⟩⟩ := Resolve.inlined?_eq_ok.1 value
    exact hvalue
  obtain ⟨x'', hx'', hvalue⟩ := h.value
  obtain rfl := hx'.some_unique hx''
  obtain ⟨hval, hsome⟩ := hvalue _ (.refl _)
  have hfold : ∀ n w, b.evalWithin env n scope e = some w → v.value? = some w := by
    intro n w hw
    cases n with
    | zero => cases hw
    | succ n =>
      rw [State.evalWithin_const hm hk hd hc hx] at hw
      have hw' := Program.valueWithin_mono (Nat.le_succ n) w (hval n w hw)
      obtain ⟨ml, hml, hkl⟩ := Program.literal?_ok.1 hlit
      rwa [Program.valueWithin_literal hml hkl] at hw'
  have hmeans : Means env (s.grow m'.line v).program (fun n => b.evalWithin env n scope e) _ :=
    ((conveys_fold (hsome v hlit) hfold rfl).of_ok trivial
      (fold_eq_ok.2 ⟨room, rfl, _, still, rfl⟩)).2
  exact fun q hq => hmeans.later (.of_literal ⟨v, m'.line, get?_next_push room⟩) hs hq

end

/-- A constant that is named and has been resolved means what its initializer meant. -/
theorem Onward.retains (h : Onward p env b s) (hb : Ready p b) (settled : SettledConsts b)
    {d' : Const} {x : ExprId} (hlook : b.table.lookup scope text = .ok (some (.const k)))
    (hd : b.program.consts.get? k = some d) (hx : d.value = some x)
    (hplain : PlainExpr b (b.home scope d.owner) x) (hd' : s.program.consts.get? k = some d')
    (hs : d'.status = .resolved) :
    ConstRetains env b (b.home scope d.owner) x s.program d' := by
  cases hst : d.status with
  | resolved =>
    obtain rfl := (h.since.visited k d hd (by simp [hst])).some_unique hd'
    exact (settled.retains hd hst hx hplain).later h.since.lasts
  | inProgress =>
    obtain rfl := (h.since.visited k d hd (by simp [hst])).some_unique hd'
    simp [hst] at hs
  | unvisited =>
    obtain ⟨j, c, hj, hc⟩ := finds_lookup _ _ _ _ hlook
    obtain ⟨d1, hd1, hdecl⟩ := hb.bound j c text k hj hc
    obtain rfl := hd.some_unique hd1
    have hw : .const k ∈ p.waiting b.program :=
      ⟨k, d, hdecl.resolve_right fun hne => hne hst, hd, hst, Program.mem_region_self⟩
    obtain ⟨d'', hd'', hretains⟩ := (h.known k d' hd' hs).2 hw d x scope hd hx hplain
    obtain rfl := hd'.some_unique hd''
    exact hretains

end Ci
