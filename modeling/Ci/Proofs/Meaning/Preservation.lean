-- Resolution keeps the meaning of expressions on integers and truth values: what takes
-- the place of an expression has every value that the expression had, and a range that
-- is recorded for it holds them. While an expression is resolved, constants are visited
-- that it names. What is known of each of them is that it means what its initializer
-- meant.
import Ci.Proofs.Frame.Context
import Ci.Proofs.Meaning.Onward

namespace Ci

open Pass Arena

variable {p : Program} {n : Nat} {b s s' t : State} {e e' : ExprId} {m : ExprNode} {k : ConstId}
  {d : Const} {scope : ScopeId} {env : VarId → Value} {text : String} {V W : Nat → Option Value}

/-! ## Expressions -/

theorem Means.retains (h : Means env s.program (fun n => b.evalWithin env n scope e) e')
    (hs : Sealed s.program e') (hc : SettledConsts s) : Retains env b scope e s.program e' :=
  fun _ hq => h.later hs hc hq

/-- The value of an operator is found from those of its operands. -/
theorem above_operands (env : VarId → Value) (scope : ScopeId)
    (hm : b.program.exprs.get? e = some m) (hname : ∀ text known, m.kind ≠ .name text known) :
    Above (fun n => b.evalWithin env n scope e)
      fun n => m.kind.eval (fun _ _ => none) (b.evalWithin env n scope) := by
  refine ⟨rfl, fun n v hv => ?_⟩
  rw [Pass.State.evalWithin, Program.evalVia_eq hm] at hv
  exact Expr.eval_implies (fun text known hk => absurd hk (hname text known))
    (fun _ _ => .refl _) v hv

/-- An operator is put back with operands that mean what those meant that it had. -/
theorem Open.put {kind : Expr} (hV : Above V W) (hm : s.program.exprs.get? e = some m)
    (ht : m.ty = none) (hlit : kind.isLiteral = false)
    (hname : ∀ text known, kind ≠ .name text known)
    (hl : Lasts s.program (s.put e { m with kind }).program)
    (hval : ∀ q, Lasts s.program q → ∀ n, Implies (W n)
      (kind.eval (fun _ _ => none) (q.valueWithin env n))) :
    Open env (s.put e { m with kind }) V e := by
  have hself := get?_put_self (m := { m with kind }) hm
  refine ⟨hV.zero, ⟨_, hself, hlit⟩, fun m' t hm' n v hv => ?_⟩
  obtain rfl := hself.some_unique hm'
  have htype : Lasts (s.put e { m with kind }).program
      ((s.put e { m with kind }).put e { m with kind, ty := some t }).program :=
    .put hself ht rfl rfl
  obtain ⟨n, rfl, hw⟩ := hV.elim hv
  rw [Program.valueWithin, Program.evalVia_eq (get?_put_self hself)]
  refine Expr.eval_implies (fun text known hk => ?_) (fun _ _ => .refl _) v
    (hval _ (hl.trans htype) n v hw)
  exact absurd hk (hname text known)

theorem retains_literal {v : Literal} {m' : ExprNode} {r : Program}
    (hm : b.program.exprs.get? e = some m) (hk : m.kind = .literal v) (hv : v.value?.isSome)
    (hm' : r.exprs.get? e' = some m') (hk' : m'.kind = .literal v) (ht : m'.ty = some v.ty) :
    Retains env b scope e r e' := by
  have hval : ∀ n w, b.evalWithin env (n + 1) scope e = some w → v.value? = some w := by
    intro n w hw
    rw [Pass.State.evalWithin, Program.evalVia_eq hm, hk] at hw
    exact hw
  intro q hq
  have hm'' := hq.exprs e' m' hm' (by simp [ht])
  refine ⟨⟨m', v.ty, hm'', ht, v.isPlain_ty hv, fun w hw => ?_, fun n w hw => ?_⟩, fun n w hw => ?_⟩
  · rw [hk'] at hw
    cases hw
    exact ⟨rfl, hv⟩
  · cases n with
    | zero => cases hw
    | succ n => exact v.fits_ty (hval n w hw)
  · cases n with
    | zero => cases hw
    | succ n => exact (Program.valueWithin_literal hm'' hk').trans (hval n w hw)

section

variable (hm : b.program.exprs.get? e = some m) (ht : m.ty = none) (hsealed : Sealed s'.program e')
  (hs' : SettledConsts s') (still : s.program.exprs.get? e = some m)

include hm ht hsealed hs' still

theorem retains_before {op : PrefixOp} {inner inner' : ExprId} (hk : m.kind = .before op inner)
    (hop : op.isPlain) (hinner : Retains env b scope inner s.program inner')
    (ends : Resolve.beforeEnd e inner' op (s.put e { m with kind := .before op inner' })
      = .ok e' s') : Retains env b scope e s'.program e' := by
  have hV := above_operands env scope hm (by simp [hk])
  rw [hk] at hV
  have hput : Lasts s.program (s.put e { m with kind := .before op inner' }).program :=
    .put still ht (by simp [hk]) rfl
  have hopen : Open env (s.put e { m with kind := .before op inner' }) _ e :=
    .put hV still ht rfl (by simp) hput fun q hq n => ((hinner q hq).value n).bind
  have hends := (conveys_beforeEnd hopen (hinner _ hput) hop hV).of_ok trivial ends
  exact hends.2.retains hsealed hs'

theorem retains_binary {op : BinaryOp} {left left' right right' : ExprId}
    (hk : m.kind = .binary op left (.expr right)) (hop : op.isPlain)
    (hleft : Retains env b scope left s.program left')
    (hright : Retains env b scope right s.program right')
    (ends : Resolve.operation e op left' right'
      (s.put e { m with kind := .binary op left' (.expr right') }) = .ok e' s') :
    Retains env b scope e s'.program e' := by
  have hV := above_operands env scope hm (by simp [hk])
  rw [hk] at hV
  have hput :
      Lasts s.program (s.put e { m with kind := .binary op left' (.expr right') }).program :=
    .put still ht (by simp [hk]) rfl
  have hopen : Open env (s.put e { m with kind := .binary op left' (.expr right') }) _ e :=
    .put hV still ht rfl (by simp) hput
      fun q hq n => ((hleft q hq).value n).combine ((hright q hq).value n)
  have hends := (conveys_operation hopen (hleft _ hput) (hright _ hput) hop hV).of_ok trivial ends
  exact hends.2.retains hsealed hs'

theorem retains_conditional {c c' l l' r r' : ExprId} (hk : m.kind = .conditional c l r)
    (hcond : Retains env b scope c s.program c') (hleft : Retains env b scope l s.program l')
    (hright : Retains env b scope r s.program r')
    (ends : Resolve.choice e c' l' r' (s.put e { m with kind := .conditional c' l' r' })
      = .ok e' s') : Retains env b scope e s'.program e' := by
  have hV := above_operands env scope hm (by simp [hk])
  rw [hk] at hV
  have hput : Lasts s.program (s.put e { m with kind := .conditional c' l' r' }).program :=
    .put still ht (by simp [hk]) rfl
  have hopen : Open env (s.put e { m with kind := .conditional c' l' r' }) _ e :=
    .put hV still ht rfl (by simp) hput fun q hq n =>
      ((hcond q hq).value n).choose ((hleft q hq).value n) ((hright q hq).value n)
  have hends := (conveys_choice hopen (hcond _ hput) (hleft _ hput) (hright _ hput) hV).of_ok
    trivial ends
  exact hends.2.retains hsealed hs'

end

section

variable (hb : Ready p b) (settled : SettledConsts b) (admits : b.Admits env)
  (ih : AllRender p env b n)

include hb settled admits ih

omit admits in
/-- A constant that is named has been visited, so that it means what its initializer meant. -/
theorem RanConst.retains (run : RanConst p n s k s') (hs : Onward p env b s)
    (hlook : s.table.lookup scope text = .ok (some (.const k)))
    (hsymbol : PlainSymbol b scope (.const k)) :
    Onward p env b s' ∧ ∃ d d' x, b.program.consts.get? k = some d ∧ d.value = some x ∧
      s'.program.consts.get? k = some d' ∧
      ConstRetains env b (b.home scope d.owner) x s'.program d' := by
  cases hsymbol with
  | @const _ d x found value plain =>
    have hs' := ih.const run hs
    obtain ⟨d', hd', hres⟩ := run.resolved
    rw [ScopeTable.lookup_congr hs.since.scopes] at hlook
    exact ⟨hs', d, d', x, found, value, hd',
      hs'.retains hb settled hlook found value plain hd' hres⟩

theorem Named.retains (h : Named p n s ScopeTable.lookup scope e m text e' s')
    (hs : Onward p env b s) (hm : s.program.exprs.get? e = some m) (ht : m.ty = none)
    (hk : m.kind = .name text none) (hx : p.VarFree (.expr e))
    (hm' : b.program.exprs.get? e = some m) {symbol : Symbol}
    (hd : b.denotes scope text none = some symbol) (hsymbol : PlainSymbol b scope symbol) :
    Retains env b scope e s'.program e' := by
  have hbind : ∀ found, Onward p env b (s.put e { m with kind := .name text (some found) }) :=
    fun found => hs.edit (.put hm ht (by simp [hk]) rfl) hx
  have hfound : ∀ {found}, s.table.lookup scope text = .ok (some found) → found = symbol := by
    intro found hfound
    exact Option.some.inj ((hs.since.denotes hfound).symm.trans hd)
  cases h with
  | @kept found ty s1 finds reached still type =>
    obtain rfl := hfound finds
    have hput : Lasts s1.program (s1.put e { m with
        kind := .name text (some found), ty := some ty }).program := .put still ht rfl rfl
    cases reached with
    | const run =>
      obtain ⟨-, d, d', x, hdb, hdx, hd', hretains⟩ :=
        run.retains hb settled ih (hbind _) finds hsymbol
      exact retains_const hm' hk hd hdb hdx hd' (hretains.later hput) (get?_put_self still) rfl
        (by simpa [Program.symbolTy?, hd'] using type.symm)
    | other ne =>
      cases hsymbol with
      | @var v d t found scalarTy scalar =>
        obtain rfl : t = ty := by
          have hv := hs.since.lasts.vars v d found (by simp [scalarTy])
          simpa [Program.symbolTy?, State.put, hv, scalarTy] using type
        exact retains_var hm' hk hd found scalarTy scalar admits (get?_put_self still) rfl rfl
      | const => exact absurd rfl (ne _)
  | inlined finds run still found value room =>
    obtain rfl := hfound finds
    obtain ⟨h1, d, d', x, hdb, hdx, hd', hretains⟩ :=
      run.retains hb settled ih (hbind _) finds hsymbol
    obtain rfl := found.some_unique hd'
    exact (retains_inlined hm' hk hd hdb hdx hretains value still room
      (h1.edit (x := .expr e) .grow hx).settled :)

/-- What takes the place of an expression means what the expression meant. -/
theorem Step.retains (hf : Fresh p) (h : Step p n s e e' s') (hfit : Fit p s (.expr e))
    (hs : Onward p env b s) (hsame : ∀ y ∈ p.region (.expr e), p.Same b.program y)
    (hplain : PlainExpr b s.table.current e) (hsealed : Sealed s'.program e')
    (hs' : SettledConsts s') : Retains env b s.table.current e s'.program e' := by
  obtain ⟨m0, hm0, hform⟩ := hplain.form
  have hfree : p.VarFree (.expr e) := hplain.varFree hsame
  -- the node was the same in the earlier state
  have hnode : ∀ {m}, p.exprs.get? e = some m → m = m0 := fun node =>
    (hsame _ Program.mem_region_self _ node).some_unique hm0
  -- parts of the node are resolved one after the other
  have hpart : ∀ {m c c' t t'}, p.exprs.get? e = some m → c ∈ m.kind.children →
      t.table.current = s.table.current → Onward p env b t → PlainExpr b s.table.current c →
      Ran p n t c c' t' → t'.table.current = s.table.current ∧ Onward p env b t' ∧
        Retains env b s.table.current c t'.program c' := by
    intro m c c' t t' node hc hcur ht hplain run
    have hmem := Program.child_mem_parts node hc
    refine ⟨run.moves.place.current.trans hcur, (ih.expr run).onward (hfree.part hmem) ht, ?_⟩
    have := (ih.expr run).retains (fun y hy => hsame y (Program.region_subset hmem hy))
    rw [hcur] at this
    exact this hplain ht
  cases h with
  | @literal m v node kind =>
    obtain ⟨m', hm', ho⟩ := hs.since.lasts.outlines e m0 hm0
    obtain rfl := node.some_unique hm'
    have hk0 : m0.kind = .literal v := by
      rw [kind] at ho
      cases hk : m0.kind <;> simp_all [Expr.outline]
    rw [hk0] at hform
    exact retains_literal hm0 hk0 hform (get?_put_self node) kind rfl
  | name node kind named =>
    obtain rfl := hnode node
    rw [kind] at hform
    obtain ⟨symbol, hd, hsymbol⟩ := hform
    exact named.retains hb settled admits ih hs (hfit.node node) (hf.untyped node) kind hfree hm0 hd
      hsymbol
  | before node kind operand still ends =>
    obtain rfl := hnode node
    rw [kind] at hform
    obtain ⟨-, -, hinner⟩ := hpart node (by simp [kind]) rfl hs hform.2 operand
    exact retains_before hm0 (hf.untyped node) hsealed hs' still kind hform.1 hinner ends
  | binary node kind _ _ first second still ends =>
    obtain rfl := hnode node
    rw [kind] at hform
    obtain ⟨hop, hplainl, hplainr⟩ := hform
    obtain ⟨hcur, h1, hleft⟩ := hpart node (by simp [kind]) rfl hs hplainl first
    obtain ⟨-, -, hright⟩ := hpart node (by simp [kind]) hcur h1 hplainr second
    exact retains_binary hm0 (hf.untyped node) hsealed hs' still kind hop
      (hleft.later (second.lasts hf)) hright ends
  | conditional node kind condition _ first second still ends =>
    obtain rfl := hnode node
    rw [kind] at hform
    obtain ⟨hplainc, hplainl, hplainr⟩ := hform
    obtain ⟨hcur, h1, hcond⟩ := hpart node (by simp [kind]) rfl hs hplainc condition
    obtain ⟨hcur, h2, hleft⟩ := hpart node (by simp [kind]) hcur h1 hplainl first
    obtain ⟨-, -, hright⟩ := hpart node (by simp [kind]) hcur h2 hplainr second
    have hlast := second.lasts hf
    exact retains_conditional hm0 (hf.untyped node) hsealed hs' still kind
      (hcond.later ((first.lasts hf).trans hlast)) (hleft.later hlast) hright ends
  | newArray node kind =>
    rw [← hnode node, kind] at hform
    cases hform.1
  | newObject node kind =>
    rw [← hnode node, kind] at hform
    cases hform.1
  | ownerMember node kind =>
    rw [← hnode node, kind] at hform
    cases hform.1
  | valueMember node kind =>
    rw [← hnode node, kind] at hform
    cases hform.1
  | after node kind =>
    rw [← hnode node, kind] at hform
    exact hform.elim
  | call node kind =>
    rw [← hnode node, kind] at hform
    exact hform.elim
  | collection node kind =>
    rw [← hnode node, kind] at hform
    exact hform.elim
  | var node kind =>
    rw [← hnode node, kind] at hform
    exact hform.elim

end

/-! ## Constants -/

/-- A constant that no body owns is visited where it is declared. -/
theorem Placed.current {owner : Owner} (h : Placed s owner t) (hb : Since b s)
    (howner : owner ≠ .body) : t.table.current = b.home scope owner := by
  cases h with
  | program => rfl
  | classDecl _ found =>
    rw [hb.classScopes] at found
    simp [Pass.State.home, found, ScopeTable.enter]
  | enumDecl _ found =>
    rw [hb.enumScopes] at found
    simp [Pass.State.home, found, ScopeTable.enter]
  | body => exact absurd rfl howner

/-- The value of a constant has been resolved. -/
theorem Valued.retains {written : Option Ty} {ty : Ty} {value' : Option ExprId} {x : ExprId}
    (h : Valued p n k d written s ty value' s') (hx : d.value = some x)
    (hretains : ∀ {x'}, Ran p n s x x' s' → Retains env b scope x s'.program x') :
    ConstRetains env b scope x s'.program
      { d with status := .resolved, value := value', ty := some ty } := by
  -- what takes the place of the value means what the value meant
  have hvalue : ∀ {x'}, Ran p n s x x' s' → ∀ q, Lasts s'.program q →
      (∀ n, Implies (b.evalWithin env n scope x) (q.valueWithin env n x')) ∧
        ∀ v, q.literal? x' = .ok (some v) → v.value?.isSome := fun run q hq =>
    ⟨(hretains run q hq).value, fun v hv => ((hretains run q hq).literal hv).1⟩
  cases h with
  | enumNone _ value => cases value.symm.trans hx
  | enum _ value run =>
    obtain rfl := value.some_unique hx
    exact ⟨rfl, ⟨_, rfl, rfl, fun _ _ _ => trivial⟩, _, rfl, hvalue run⟩
  | plain _ value run type =>
    obtain rfl := value.some_unique hx
    exact ⟨rfl, ⟨_, rfl, (hretains run _ (.refl _)).suits type⟩, _, rfl, hvalue run⟩

section

variable (hp : p.TreeShaped) (hf : Fresh p) (hb : Ready p b)
  (free : ∀ k, p.Declares k → p.VarFree (.const k))
  (owned : ∀ k d, p.Declares k → p.consts.get? k = some d → d.owner ≠ .body)

include hp hf hb free owned

theorem StepConst.onward (ih : AllRender p env b n)
    (hk : Known (p.waiting s.program) s.program k) (h : StepConst p n s k s')
    (hs : Onward p env b s) : Onward p env b s' := by
  cases h with
  | skipped => exact hs
  | @visited d t t1 t2 written ty value' found current unvisited placed type value still =>
    have hdecl : p.Declares k := by
      rcases hk with hk | ⟨d', hd', hv⟩
      · exact (Program.const_mem_waiting hk).1
      · obtain rfl := current.some_unique hd'
        exact absurd unvisited hv
    -- the constant had not been visited before
    have hbefore : ∀ d, b.program.consts.get? k = some d → d.status = .unvisited := by
      intro d' hd'
      by_contra hv
      obtain rfl := current.some_unique (hs.since.visited k d' hd' hv)
      exact hv unvisited
    have hdt : t.program.consts.get? k = some d := by rw [placed.program_eq, current]
    have hparts := Program.parts_const found
    have hvisit : Onward p env b (t.setConst k (d.visit d.value)) :=
      ⟨(hs.since.place placed).setConst hdt
        (by simp [unvisited]) ⟨rfl, fun _ _ => .inl rfl⟩ hbefore,
        (hs.known.place placed.program_eq).visit KnownFrom.stable hdt unvisited⟩
    have ht1 : Onward p env b t1 ∧ t1.table.current = t.table.current := by
      generalize hte : d.typeExpr = te at type
      cases type with
      | none => exact ⟨hvisit, rfl⟩
      | some run =>
        exact ⟨ih.type run ((free k hdecl).part (by simp [hparts, hte])) hvisit,
          run.moves.place.current⟩
    have ht2 : Onward p env b t2 := by
      have hrun : ∀ {x x'}, d.value = some x → Ran p n t1 x x' t2 → Onward p env b t2 :=
        fun hx run => (ih.expr run).onward ((free k hdecl).part (by simp [hparts, hx])) ht1.1
      cases value with
      | enumNone => exact ht1.1
      | enum _ hx run => exact hrun hx run
      | plain _ hx run => exact hrun hx run
    have hset : Lasts t2.program (t2.setConst k { d with
        status := .resolved, value := value', ty := some ty }).program :=
      .setConst still (by simp [Const.visit]) value.kept
    refine ⟨(ht2.since.setConst still (by simp [Const.visit]) value.kept hbefore).backTo,
      (ht2.known.setConst KnownFrom.stable still (by simp [Const.visit]) value.kept fun _ =>
        ⟨SettledConsts.visits hp hf type value still, fun hw d' x scope hd' hx hplain => ?_⟩).place
          rfl⟩
    obtain rfl : d = d' := by
      have hsame : b.program.consts.get? k = p.consts.get? k := hb.waiting _ hw
      exact found.some_unique (hsame.symm.trans hd')
    refine ⟨_, get?_set_self still, (value.retains hx fun run => ?_).later hset⟩
    rw [← ht1.2.trans (placed.current hs.since (owned k d hdecl found))] at hplain ⊢
    refine (ih.expr run).retains (fun y hy => hb.waiting y ?_) hplain ht1.1
    exact ⟨k, d, hdecl, hd', unvisited, Program.region_subset (by simp [hparts, hx]) hy⟩

end

end Ci
