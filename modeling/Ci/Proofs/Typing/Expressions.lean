-- What has been checked of expressions. Each check is made on operands that have been
-- resolved, and these keep their types to the end, so it holds of the program that
-- comes out.
import Ci.Proofs.Typing.Records

namespace Ci

open Pass

variable {p q r : Program} {n : Nat} {s s1 s2 s' : State} {e e' inner left right : ExprId}
  {m m' : ExprNode} {t : Ty} {E : Option ExprId → Prop} {P : Site → Prop}

/-! ## Checks last -/

theorem Whole.ty? (h : Whole r e) (hl : Lasts r q) (ht : r.valueTy e = .ok t) :
    q.ty? e = some t := by
  obtain ⟨node, typed, -⟩ := h
  obtain ⟨n, hn, rfl⟩ := Program.valueTy_ok.1 ht
  obtain rfl := node.some_unique hn
  obtain ⟨u, hu⟩ := Option.ne_none_iff_exists'.1 typed
  simp [Program.ty?, hl.exprs e _ hn typed, hu]

theorem Pass.Coerces.fits (h : Coerces r e t) (hw : Whole r e) (hl : Lasts r q) : q.Fits e t := by
  obtain ⟨got, hgot, hass⟩ := h
  exact ⟨got, hw.ty? hl hgot, by rw [Program.assignable_congr hl.classes, hass]⟩

/-- Only truth values may stand where a truth value is expected. -/
theorem Program.Fits.bool (h : q.Fits e .bool) : q.ty? e = some .bool := by
  obtain ⟨got, hgot, hass⟩ := h
  rw [hgot]
  cases got <;> simp_all [Program.assignable, Ty.isNullable]

theorem target_of_isPlace (h : r.isPlace e = .ok true) (hw : Whole r e) (hl : Lasts r q) :
    q.Target e := by
  have hq := (hw.alike hl).isPlace hl.size_le h
  simp only [Program.isPlace, Query.bind_ok, Arena.fetch_ok] at hq
  obtain ⟨m, hm, hq⟩ := hq
  have hvar : q.isVariable e = .ok true → q.Target e := by
    intro hv
    simp only [Program.isVariable, Query.bind_ok] at hv
    obtain ⟨symbol, hs, hv⟩ := hv
    split at hv
    · exact .var hs
    · exact .field hs
    · simp at hv
  split at hq
  · exact hvar hq
  · exact hvar hq
  · rename_i left right hk
    simp only [Query.bind_ok, Query.pure_ok, Program.valueTy_ok] at hq
    obtain ⟨_, ⟨ml, hml, rfl⟩, harray⟩ := hq
    cases hty : ml.ty with
    | none => simp [hty, Ty.isArray] at harray
    | some =>
      rw [hty, Option.getD_some] at harray
      exact .item hm hk (by simp [Program.ty?, hml, hty]) harray
  · simp at hq

/-! ## Ends of operators -/

theorem Resolve.requirePlace_eq_ok {u : Unit} :
    requirePlace e s = .ok u s' ↔ s.program.isPlace e = .ok true ∧ s' = s := by
  simp only [requirePlace, bind_eq_ok, ask_eq_ok]
  constructor
  · rintro ⟨b, _, ⟨hb, rfl⟩, h⟩
    cases b with
    | true => exact ⟨hb, (pure_eq_ok.1 h).2⟩
    | false => simp at h
  · rintro ⟨hb, rfl⟩
    exact ⟨true, _, ⟨hb, rfl⟩, rfl⟩

section

variable (hl : Lasts s.program q)

include hl

theorem beforeEnd_fits {op : PrefixOp} (ends : Resolve.beforeEnd e inner op s = .ok e' s')
    (hw : Whole s.program inner) : q.ExprFits (.before op inner) := by
  have hstep : ∀ {delta}, Resolve.steppedBefore e inner delta s = .ok e' s' → q.Target inner := by
    intro delta h
    simp only [Resolve.steppedBefore, bind_eq_ok, valueTy_eq_ok, Resolve.requirePlace_eq_ok] at h
    obtain ⟨t, _, ⟨-, rfl⟩, _, _, hnum, _, _, ⟨hplace, rfl⟩, -⟩ := h
    obtain rfl := (Silent.requireNumeric).of_ok hnum
    exact target_of_isPlace hplace hw hl
  cases op with
  | increment => exact hstep ends
  | decrement => exact hstep ends
  | not =>
    simp only [Resolve.beforeEnd, Resolve.logicalNot, bind_eq_ok, coerce_eq_ok] at ends
    obtain ⟨_, _, ⟨hc, -⟩, -⟩ := ends
    exact (hc.fits hw hl).bool
  | _ => trivial

theorem afterEnd_fits {op : PostfixOp} (ends : Resolve.afterEnd e inner s = .ok e' s')
    (hw : Whole s.program inner) : q.ExprFits (.after op inner) := by
  simp only [Resolve.afterEnd, bind_eq_ok, valueTy_eq_ok, Resolve.requirePlace_eq_ok] at ends
  obtain ⟨t, _, ⟨-, rfl⟩, _, _, hnum, _, _, ⟨hplace, rfl⟩, -⟩ := ends
  obtain rfl := (Silent.requireNumeric).of_ok hnum
  exact target_of_isPlace hplace hw hl

theorem operation_fits {op : BinaryOp} (ends : Resolve.operation e op left right s = .ok e' s')
    (hleft : Whole s.program left) (hright : Whole s.program right) (hdot : op ≠ .dot)
    (hcall : op ≠ .call) : q.ExprFits (.binary op left (.expr right)) := by
  have hlogical : ∀ {b}, Resolve.logical e b left right s = .ok e' s' →
      q.ty? left = some .bool ∧ q.ty? right = some .bool := by
    intro b h
    simp only [Resolve.logical, bind_eq_ok, coerce_eq_ok] at h
    obtain ⟨_, _, ⟨hc, rfl⟩, _, _, ⟨hc', rfl⟩, -⟩ := h
    exact ⟨(hc.fits hleft hl).bool, (hc'.fits hright hl).bool⟩
  cases op with
  | dot => exact absurd rfl hdot
  | call => exact absurd rfl hcall
  | condAnd => exact hlogical ends
  | condOr => exact hlogical ends
  | assign =>
    simp only [Resolve.operation, Resolve.assignment, bind_eq_ok, valueTy_eq_ok, coerce_eq_ok,
      Resolve.requirePlace_eq_ok] at ends
    obtain ⟨_, _, ⟨hplace, rfl⟩, t, _, ⟨ht, rfl⟩, _, _, ⟨hc, rfl⟩, -⟩ := ends
    exact ⟨target_of_isPlace hplace hleft hl, t, hleft.ty? hl ht, hc.fits hright hl⟩
  | update =>
    simp only [Resolve.operation, Resolve.update, bind_eq_ok, Resolve.requirePlace_eq_ok] at ends
    obtain ⟨_, _, ⟨hplace, rfl⟩, -⟩ := ends
    exact target_of_isPlace hplace hleft hl
  | _ => trivial

end

/-! ## Places inside expressions -/

namespace Program

/-- Everything fits at a place and inside it, what is returned there is as expected, and what is
recorded is justified. -/
abbrev Sound (q : Program) (E : Option ExprId → Prop) (a : Site) : Prop :=
  q.Everywhere (fun b => q.Checked b ∧ q.Returns E b ∧ q.Records b) a

/-- Everything fits at a place and inside it, and what is recorded is justified. -/
abbrev Recorded (q : Program) (a : Site) : Prop :=
  q.Everywhere (fun b => q.Checked b ∧ q.Records b) a

theorem Sound.recorded {a : Site} (h : q.Sound E a) : q.Recorded a := h.mono fun _ h => ⟨h.1, h.2.2⟩

theorem sound_value (hm : q.exprs.get? e = some m) (hfits : q.ExprFits m.kind)
    (hj : q.Justifies m.ty m.kind) (h : ∀ b ∈ m.kind.valueSites, q.Sound E b) :
    q.Sound E (.value e) := by
  refine .intro ⟨fun m' hm' => ?_, trivial, fun m' hm' => ?_⟩
    fun b hb => h b (by simpa [holds, hm] using hb)
  · obtain rfl := hm.some_unique hm'
    exact hfits
  · obtain rfl := hm.some_unique hm'
    exact hj

theorem sound_literal (h : q.TypedLiteral e) : q.Sound E (.value e) := by
  obtain ⟨v, line, hv⟩ := h
  exact sound_value hv trivial (.other rfl (by simp)) (by simp [Expr.valueSites])

/-- A name stands for itself. -/
theorem sound_name {text : String} {symbol : Option Symbol} (hm : r.exprs.get? e = some m)
    (hk : m.kind = .name text symbol) (hl : Lasts r q) : q.Sound E (.value e) := by
  obtain ⟨m', hm', ho⟩ := hl.outlines e m hm
  obtain ⟨symbol', hk'⟩ : ∃ symbol', m'.kind = .name text symbol' := by
    rw [hk] at ho
    cases hkind : m'.kind <;> simp_all
  exact sound_value hm' (by rw [hk']; trivial) (by rw [hk']; exact .other rfl (by simp))
    (by simp [hk', Expr.valueSites])

theorem sound_type (hm : q.exprs.get? e = some m) (h : ∀ b ∈ m.kind.typeSites, q.Sound E b) :
    q.Sound E (.type e) :=
  .intro ⟨trivial, trivial, trivial⟩ fun b hb => h b (by simpa [holds, hm] using hb)

end Program

/-! ## Types -/

theorem RanInt.literal_later {v : Int64} (hp : p.TreeShaped) (hf : Fresh p)
    (h : RanInt p n s e e' v s') (hl : Lasts s'.program q) : q.TypedLiteral e' := by
  obtain ⟨m, hm, hk⟩ := h.node
  have ht := (h.toRan.settled hp hf).literal m _ hm hk
  refine ⟨.int v, m.line, ?_⟩
  rw [hl.exprs e' m hm (by simp [ht]), ← hk, ← ht]

/-- The parts of a type around its base hold nothing but literals. -/
theorem Spells.sound {a : Resolve.Spelling} (h : Spells q e a) (hb : q.Sound E (.type a.base)) :
    q.Sound E (.type e) := by
  have hmark : ∀ {e base writable}, Marks q e base writable → q.Sound E (.type base) →
      q.Sound E (.type e) := by
    intro e base writable mark hs
    cases mark with
    | bang node kind => exact Program.sound_type node (by simpa [kind, Expr.typeSites] using hs)
    | none => exact hs
  induction h with
  | base mark => exact hmark mark hb
  | pointer mark node kind _ ih =>
    refine hmark mark (Program.sound_type node ?_)
    simpa [kind, Expr.typeSites] using ih hb
  | @storage _ _ _ length v _ ml _ mark node kind lnode lkind typed _ _ _ ih =>
    have hlength : q.Sound E (.value length) := by
      refine Program.sound_literal ⟨.int v, ml.line, ?_⟩
      rw [lnode, ← lkind, ← typed]
    refine hmark mark (Program.sound_type node ?_)
    simpa [kind, Expr.typeSites] using ⟨ih hb, hlength⟩

section

variable (hp : p.TreeShaped) (hf : Fresh p)

include hp hf

theorem Plain.sound {writable : Bool} (h : Plain p n s e writable t s') (hfit : Fit p s (.expr e))
    (still : s'.program.exprs.get? e = some m) (hl : Lasts s'.program q)
    (hm : q.exprs.get? e = some { m with ty := some t }) : q.Sound E (.type e) := by
  refine Program.sound_type hm ?_
  cases h with
  | name node =>
    rw [get?_put_self (hfit.node node)] at still
    simp [← Option.some.inj still, Expr.typeSites]
  | string node kind =>
    rw [hfit.node_put node (by simp [kind]) still, kind]
    simp [Expr.typeSites]
  | storage node kind =>
    rw [hfit.node_put node (by simp [kind]) still, kind]
    simp [Expr.typeSites]
  | @range _ _ _ _ _ _ _ _ _ s2 node kind _ first second _ still0 =>
    rw [get?_put_self still0] at still
    have hback : Lasts s2.program q := by
      refine Lasts.trans ?_ hl
      exact .put_back hf node still0 (by simp [kind]) rfl
    have hleft := first.literal_later hp hf ((second.toRan.lasts hf).trans hback)
    have hright := second.literal_later hp hf hback
    simp only [← Option.some.inj still, Expr.typeSites, Operand.exprs, List.map_cons, List.map_nil,
      List.mem_cons, List.not_mem_nil, or_false, forall_eq_or_imp, forall_eq]
    exact ⟨Program.sound_literal hleft, Program.sound_literal hright⟩
  | @rangeFromZero _ _ _ _ _ s1 node kind _ operand _ still0 =>
    rw [get?_put_self still0] at still
    have hback : Lasts s1.program q := by
      refine Lasts.trans ?_ hl
      exact .put_back hf node still0 (by simp [kind]) rfl
    simp only [← Option.some.inj still, Expr.typeSites, List.mem_singleton, forall_eq]
    exact Program.sound_literal (operand.literal_later hp hf hback)

theorem StepType.sound (h : StepType p n s e t s') (hfit : Fit p s (.expr e))
    (hl : Lasts s'.program q) : q.Sound E (.type e) := by
  obtain @⟨a, t, m, s1, s2, spelled, plain, mark, still⟩ := h
  obtain ⟨hread, hlasts, -⟩ := spelled.readAs hp hf hfit (fun h => h.settled hp hf) plain still rfl
  refine (hread.later hl).spells.sound (plain.sound hp hf (spelled.fit hp hfit) still
    (hlasts.trans hl) ?_)
  refine hl.exprs a.base _ ?_ (by simp)
  rw [get?_typeAll, get?_put_self still]
  simp

end

/-! ## All expressions -/

namespace Step

variable (hf : Fresh p)

include hf

/-- An expression that is put back and gets its type. -/
theorem sound_put (node : p.exprs.get? e = some m) (still : s.program.exprs.get? e = some m)
    (hl : Lasts (s.put e m').program q) (ho : m'.kind.outline = m.kind.outline)
    (hline : m'.line = m.line) (ht : m'.ty ≠ none) (hfits : Lasts s.program q → q.ExprFits m'.kind)
    (hj : q.Justifies m'.ty m'.kind) (hsites : Lasts s.program q → ∀ b ∈ m'.kind.valueSites,
      q.Sound E b) :
    q.Sound E (.value e) := by
  have hback : Lasts s.program q := by
    refine Lasts.trans ?_ hl
    exact .put_back hf node still ho hline
  exact Program.sound_value (hl.exprs e m' (get?_put_self still) ht) (hfits hback) hj (hsites hback)

/-- An operator that is put back with its operands and then ends. -/
theorem sound_ending {V : Program → Prop} {parts : List ExprId} {f : Pass ExprId}
    (node : p.exprs.get? e = some m) (still : s.program.exprs.get? e = some m)
    (hend : Ending V e parts (s.put e m') f e' s') (ho : m'.kind.outline = m.kind.outline)
    (hline : m'.line = m.line) (ht : m'.ty = m.ty) (hl : Lasts s'.program q)
    (hfits : Lasts (s.put e m').program q → q.ExprFits m'.kind)
    (hj : ∀ {t : State} {m1 : ExprNode}, Lasts (s.put e m').program t.program →
      t.program.exprs.get? e = some m1 → m1.kind = m'.kind →
      (V t.program → f t = .ok e t) → t.program.Justifies m1.ty m1.kind)
    (hsites : Lasts s.program q → ∀ b ∈ m'.kind.valueSites, q.Sound E b)
    (hparts : ∀ c ∈ parts, .value c ∈ m'.kind.valueSites) : q.Sound E (.value e') := by
  have hback : Lasts s.program (s.put e m').program := .put_back hf node still ho hline
  cases hend with
  | typed _ ty found again =>
    obtain rfl := (get?_put_self still).some_unique found
    have hself := get?_put_self (m := { m' with ty := some ty }) found
    have hput : Lasts (s.put e m').program q := by
      refine Lasts.trans ?_ hl
      exact .put found (ht.trans (hf.untyped node)) rfl rfl
    have hq := hl.exprs e _ hself (by simp)
    exact Program.sound_value hq (hfits hput) (hj (t := { s with program := q }) hput hq rfl
      fun hV => again _ _ hV hq rfl) (hsites (hback.trans hput))
  | folded line value room =>
    refine Program.sound_literal (hl.typedLiteral ⟨value, line, ?_⟩)
    exact Arena.get?_next_push room
  | part e' mem => exact hsites (hback.trans hl) _ (hparts e' mem)

omit hf in
/-- The access to a member, which holds a name. -/
theorem sound_accessed {member r' : ExprId} (h : Accessed e m member s r' e' s')
    (hk : m.kind = .binary .dot left (.expr member)) (hl : Lasts s'.program q) (ht : m.ty = none)
    (hends : r' = member ∨ s.program.TypedLiteral r')
    (hleft : Lasts s.program q → q.Sound E (.value left))
    (hmember : Lasts s.program q → q.Sound E (.value member)) : q.Sound E (.value e') := by
  cases h with
  | @kept _ _ still =>
    have hback : Lasts s.program q := by
      refine Lasts.trans ?_ hl
      exact .put still ht rfl rfl
    refine Program.sound_value (hl.exprs e _ (get?_put_self still) (by simp)) ?_ ?_ ?_
    · rw [hk]
      trivial
    · rw [hk]
      exact .other rfl (by simp)
    · simpa [hk, Expr.valueSites] using ⟨hleft hback, hmember hback⟩
  | folded ne => exact Program.sound_literal (hl.typedLiteral (hends.resolve_left ne))

end Step

/-- The arguments of a call have been checked against the parameters. -/
theorem RanList.argumentsFit (hp : p.TreeShaped) (hf : Fresh p) {args args' : List ExprId}
    {params : List VarId}
    (h : RanList p (fun _ => n) Prod.fst Passes s (args.zip params) args' s')
    (hlen : params.length = args.length) (hl : Lasts s'.program q) :
    List.Forall₂ q.ArgumentFits args' params := by
  induction args generalizing s args' params with
  | nil =>
    obtain rfl := List.length_eq_zero_iff.1 hlen
    cases h
    exact .nil
  | cons _ _ ih =>
    cases params with
    | nil => simp at hlen
    | cons v =>
      cases h with
      | cons first holds rest =>
        obtain ⟨d, t, hd, ht, hc⟩ := holds
        have hlater := (rest.lasts hf).trans hl
        refine .cons ⟨d, t, hlater.vars v d hd (by simp [ht]), ht, ?_⟩
          (ih rest (by simpa using hlen))
        exact hc.fits (first.settled hp hf).whole hlater

theorem RanList.sound {ι : Type} {depth : State → Nat} {exprOf : ι → ExprId}
    {C : ι → ExprId → State → Prop} {xs : List ι} {es : List ExprId} (hf : Fresh p)
    (ih : ∀ {s e e' s'}, Ran p (depth s) s e e' s' → Lasts s'.program q → q.Sound E (.value e'))
    (h : RanList p depth exprOf C s xs es s') (hl : Lasts s'.program q) :
    ∀ e ∈ es, q.Sound E (.value e) := by
  induction h with
  | nil => simp
  | cons first _ rest ihr =>
    exact List.forall_mem_cons.2 ⟨ih first ((rest.lasts hf).trans hl), ihr hl⟩

theorem OfValue.sound {member : ExprId} {mm : ExprNode} {text : String} {ty : Ty} (hf : Fresh p)
    (h : OfValue p n e m left member mm text s ty e' s') (hl : Lasts s'.program q)
    (hm : s.program.exprs.get? e = some m) (ht : m.ty = none)
    (hk : m.kind = .binary .dot left (.expr member)) (hmm : s.program.exprs.get? member = some mm)
    (hmt : mm.ty = none) (hmk : mm.kind = .name text none) (hne : member ≠ e)
    (hleft : Lasts s.program q → q.Sound E (.value left)) : q.Sound E (.value e') := by
  cases h with
  | literalLength _ _ _ room =>
    exact Program.sound_literal (hl.typedLiteral ⟨_, m.line, Arena.get?_next_push room⟩)
  | arrayLength _ room =>
    exact Program.sound_literal (hl.typedLiteral ⟨_, m.line, Arena.get?_next_push room⟩)
  | stringLength =>
    set mm' : ExprNode := { mm with kind := .name text (some .stringLength), ty := some .length }
    have hput : Lasts s.program (s.put member mm').program :=
      .put hmm hmt (by simp [mm', hmk]) rfl
    have hacc : Accessed e m member (s.put member mm') member e
        ((s.put member mm').put e { m with ty := some .length }) :=
      .kept (Program.valueTy_ok.2 ⟨mm', get?_put_self hmm, rfl⟩) ((get?_put_of_ne hne).trans hm)
    exact Step.sound_accessed hacc hk hl ht (.inl rfl) (fun hlater => hleft (hput.trans hlater))
      fun hlater => Program.sound_name hmm hmk (hput.trans hlater)
  | ofClass _ _ named accessed =>
    have hnamed := Lasts.named hf named hmm hmt hmk
    exact Step.sound_accessed accessed hk hl ht named.ends
      (fun hlater => hleft (hnamed.trans hlater))
      fun hlater => Program.sound_name hmm hmk (hnamed.trans hlater)

theorem Expr.valueSites_before {op : PrefixOp} (h : op ≠ .new) :
    (Expr.before op inner).valueSites = [.value inner] := by
  cases op <;> first | rfl | exact absurd rfl h

theorem Expr.allocatedSites_of_outline {kind kind' : Expr} (h : kind'.outline = kind.outline)
    (hk : ∀ left length, kind ≠ .binary .index left (.expr length)) :
    kind'.allocatedSites e = [.type e] := by
  unfold allocatedSites
  split
  · rename_i left length
    cases kind with
    | binary _ _ r => cases r <;> simp_all [outline]
    | _ => simp [outline] at h
  · rfl

section

variable (hp : p.TreeShaped) (hf : Fresh p)

include hp hf

/-! ### One form after the other -/

section

variable (ih : ∀ {s e e' s'}, Ran p n s e e' s' → Lasts s'.program q → q.Sound E (.value e'))
  (iht : ∀ {s e t s'}, RanType p n s e t s' → Lasts s'.program q → q.Sound E (.type e))

section

variable (node : p.exprs.get? e = some m) (hl : Lasts s'.program q)

include ih node hl

theorem sound_before {op : PrefixOp} {inner' : ExprId} (kind : m.kind = .before op inner)
    (operand : Ran p n s inner inner' s1) (still : s1.program.exprs.get? e = some m)
    (ends : Resolve.beforeEnd e inner' op (s1.put e { m with kind := .before op inner' })
      = .ok e' s') : q.Sound E (.value e') := by
  have hinner : Whole (s1.put e { m with kind := .before op inner' }).program inner' :=
    (operand.settled hp hf).whole.later (.put_back hf node still (by simp [kind]) rfl)
  refine Step.sound_ending hf node still (Resolve.settles_beforeEnd _ _ ends)
    (by simp [kind]) rfl rfl hl (fun hput => beforeEnd_fits hput ends hinner)
    (fun hput hm hk again => ?_) (fun hlater => ?_) (by simp)
  · refine ⟨fun harith v hv => ?_, by simp [hk]⟩
    rw [hk] at harith ⊢
    refine acts_of_beforeEnd hm hm hv ?_ (again ⟨hput, by simpa using hinner.alike hput⟩)
    cases op <;> simp_all [Expr.isArithmetic]
  · have hop : op ≠ .new := by
      rintro rfl
      simp [Resolve.beforeEnd] at ends
    simpa [Expr.valueSites_before hop] using ih operand hlater

theorem sound_after {op : PostfixOp} {inner' : ExprId} (kind : m.kind = .after op inner)
    (operand : Ran p n s inner inner' s1) (still : s1.program.exprs.get? e = some m)
    (ends : Resolve.afterEnd e inner' (s1.put e { m with kind := .after op inner' }) = .ok e' s') :
    q.Sound E (.value e') := by
  refine Step.sound_ending hf node still (Resolve.settles_afterEnd _ _ ends)
    (by simp [kind]) rfl rfl hl (fun hput => afterEnd_fits hput ends ?_)
    (fun _ _ hk _ => by rw [hk]; exact .other rfl (by simp)) (fun hlater => ?_) (by simp)
  · exact (operand.settled hp hf).whole.later (.put_back hf node still (by simp [kind]) rfl)
  · simpa [Expr.valueSites] using ih operand hlater

theorem sound_binary {op : BinaryOp} {left' right' : ExprId}
    (kind : m.kind = .binary op left (.expr right)) (notDot : op ≠ .dot) (notCall : op ≠ .call)
    (first : Ran p n s left left' s1) (second : Ran p n s1 right right' s2)
    (still : s2.program.exprs.get? e = some m)
    (ends : Resolve.operation e op left' right'
      (s2.put e { m with kind := .binary op left' (.expr right') }) = .ok e' s') :
    q.Sound E (.value e') := by
  have hput : Lasts s2.program
      (s2.put e { m with kind := .binary op left' (.expr right') }).program :=
    .put_back hf node still (by simp [kind]) rfl
  have hleft := (first.settled hp hf).whole.later ((second.lasts hf).trans hput)
  have hright := (second.settled hp hf).whole.later hput
  refine Step.sound_ending hf node still (Settles.operation _ _ ends)
    (by simp [kind]) rfl rfl hl
    (fun hlater => operation_fits hlater ends hleft hright notDot notCall)
    (fun hlater hm hk again => ?_) (fun hlater => ?_) (by simp [Expr.valueSites])
  · refine ⟨fun harith v hv => ?_, by simp [hk]⟩
    rw [hk] at harith ⊢
    have hagain := again ⟨hlater, by simpa using ⟨hleft.alike hlater, hright.alike hlater⟩⟩
    cases op <;> simp only [Expr.isArithmetic, reduceCtorEq] at harith
    exact acts_of_arithmetic hm hm hv hagain
  · simpa [Expr.valueSites] using
      ⟨ih first ((second.lasts hf).trans hlater), ih second hlater⟩

theorem sound_conditional {c c' a a' b b' : ExprId} {s3 : State}
    (kind : m.kind = .conditional c a b) (condition : Ran p n s c c' s1)
    (boolean : Coerces s1.program c' .bool) (first : Ran p n s1 a a' s2)
    (second : Ran p n s2 b b' s3) (still : s3.program.exprs.get? e = some m)
    (ends : Resolve.choice e c' a' b' (s3.put e { m with kind := .conditional c' a' b' })
      = .ok e' s') : q.Sound E (.value e') := by
  have hput : Lasts s3.program (s3.put e { m with kind := .conditional c' a' b' }).program :=
    .put_back hf node still (by simp [kind]) rfl
  refine Step.sound_ending hf node still (Settles.choice _ _ ends) (by simp [kind]) rfl rfl hl
    (fun hlater => ?_) (fun _ _ hk _ => by rw [hk]; exact .other rfl (by simp)) (fun hlater => ?_)
    (by simp [Expr.valueSites])
  · exact (boolean.fits (condition.settled hp hf).whole
      ((first.lasts hf).trans ((second.lasts hf).trans (hput.trans hlater)))).bool
  · have hlast := (first.lasts hf).trans (second.lasts hf)
    simpa [Expr.valueSites] using ⟨ih condition (hlast.trans hlater),
      ih first ((second.lasts hf).trans hlater), ih second hlater⟩

omit hp in
theorem sound_valueMember {mm : ExprNode} {left' member : ExprId} {text : String} {ty : Ty}
    (hfit : Fit p s (.expr e)) (kind : m.kind = .binary .dot left (.expr member))
    (mnode : p.exprs.get? member = some mm) (mkind : mm.kind = .name text none)
    (value : Ran p n s left left' s1) (still : s1.program.exprs.get? e = some m)
    (mstill : s1.program.exprs.get? member = some mm)
    (ofValue : OfValue p n e { m with kind := .binary .dot left' (.expr member) } left' member mm
      text (s1.put e { m with kind := .binary .dot left' (.expr member) }) ty e' s') :
    q.Sound E (.value e') := by
  have hne : e ≠ member :=
    (hfit.ne_part node (by simp [kind])).symm
  have ht := hf.untyped node
  have hback : Lasts s1.program
      (s1.put e { m with kind := .binary .dot left' (.expr member) }).program :=
    .put_back hf node still (by simp [kind]) rfl
  have hmember : (s1.put e { m with
      kind := .binary .dot left' (.expr member) }).program.exprs.get? member = some mm :=
    (get?_put_of_ne hne).trans mstill
  exact ofValue.sound hf hl (get?_put_self still) ht rfl hmember (hf.untyped mnode) mkind hne.symm
    fun hlater => ih value (hback.trans hlater)

omit ih in
theorem sound_ownerMember {mm ml : ExprNode} {member r : ExprId} {text owner : String}
    {found : Symbol} {scope : ScopeId} {ty : Ty} (hfit : Fit p s (.expr e))
    (kind : m.kind = .binary .dot left (.expr member)) (mnode : p.exprs.get? member = some mm)
    (mkind : mm.kind = .name text none) (lnode : p.exprs.get? left = some ml)
    (lkind : ml.kind = .name owner none)
    (named : Named p n (s.put left { ml with kind := .name owner (some found), ty := some ty })
      ScopeTable.lookupMember scope member mm text r s1)
    (accessed : Accessed e m member s1 r e' s') : q.Sound E (.value e') := by
  have hleft := hfit.node_child node (by simp [kind]) lnode
  have hmember := hfit.node_child node (by simp [kind]) mnode
  have hne : left ≠ member := by
    have := hp.children_nodup node
    simpa [kind] using this
  have hput : Lasts s.program (s.put left { ml with
      kind := .name owner (some found), ty := some ty }).program :=
    .put_back hf lnode hleft (by simp [lkind]) rfl
  have hnamed := hput.trans (Lasts.named hf named ((get?_put_of_ne hne).trans hmember)
    (hf.untyped mnode) mkind)
  exact Step.sound_accessed accessed kind hl (hf.untyped node) named.ends
    (fun hlater => Program.sound_name hleft lkind (hnamed.trans hlater))
    fun hlater => Program.sound_name hmember mkind (hnamed.trans hlater)

end

section

variable (node : p.exprs.get? e = some m)

include node

include ih in
theorem sound_call {callee callee' : ExprId} {args args' : List ExprId} {f : MethodId} {d : Method}
    (kind : m.kind = .binary .call callee (.args args)) (function : Ran p n s callee callee' s1)
    (symbol : s1.program.symbolOf callee' = .ok (some (.method f)))
    (method : s1.program.methods.get? f = some d) (count : d.params.length = args.length)
    (arguments : RanList p (fun _ => n) Prod.fst Passes s1 (args.zip d.params) args' s2)
    (still : s2.program.exprs.get? e = some m)
    (hl : Lasts (s2.put e { m with
      kind := .binary .call callee' (.args args'), ty := some (d.ty.getD .void) }).program q) :
    q.Sound E (.value e) := by
  have hlen : args'.length = args.length := by
    rw [arguments.length, List.length_zip, count, Nat.min_self]
  refine Step.sound_put hf node still hl ?_ rfl (by simp) (fun hlater => ?_) (.other rfl (by simp))
    fun hlater => ?_
  · simp [kind, List.map_const', hlen]
  · have hfirst := (arguments.lasts hf).trans hlater
    obtain ⟨d', hd', hparams, -⟩ := hfirst.methods f d method
    have hfit' := arguments.argumentsFit hp hf count hlater
    rw [← hparams] at hfit'
    exact ⟨f, d', ((function.settled hp hf).whole.alike hfirst).symbolOf hfirst.size_le symbol, hd',
      hfit'.length_eq, hfit'⟩
  · have hargs := arguments.sound hf ih hlater
    have hcallee := ih function ((arguments.lasts hf).trans hlater)
    simpa [Expr.valueSites] using ⟨hcallee, hargs⟩

omit hp in
include ih in
theorem sound_collection {items rest' : List ExprId} {first' : ExprId} {u : Ty} {length : UInt32}
    (kind : m.kind = .collection items)
    (list : RanList p (fun _ => n) id (fun _ _ _ => True) s items (first' :: rest') s1)
    (still : s1.program.exprs.get? e = some m)
    (hl : Lasts (s1.put e { m with
      kind := .collection (first' :: rest'), ty := some (.arrayStorage u length) }).program q) :
    q.Sound E (.value e) := by
  refine Step.sound_put hf node still hl ?_ rfl (by simp) (fun _ => trivial)
    ⟨by simp [Expr.isArithmetic], fun _ _ => ⟨_, _, rfl⟩⟩ fun hlater => ?_
  · simp only [kind, Expr.outline, List.map_const', list.length]
  · have hitems := list.sound hf ih hlater
    simpa [Expr.valueSites] using hitems

omit hp in
include ih iht in
theorem sound_newArray {mi : ExprNode} {length length' : ExprId} {t : Ty} (hfit : Fit p s (.expr e))
    (kind : m.kind = .before .new inner) (inode : p.exprs.get? inner = some mi)
    (ikind : mi.kind = .binary .index left (.expr length)) (element : RanType p n s left t s1)
    (count : Ran p n s1 length length' s2) (still : s2.program.exprs.get? e = some m)
    (istill : s2.program.exprs.get? inner = some mi)
    (hl : Lasts ((s2.put inner ⟨.binary .index left (.expr length'), mi.line,
      some (.arrayPointer t true)⟩).put e { m with ty := some (.arrayPointer t true) }).program q) :
    q.Sound E (.value e) := by
  have hne : inner ≠ e := hfit.ne_part node (by simp [kind])
  refine Step.sound_put hf node ((get?_put_of_ne hne).trans still) hl rfl rfl (by simp)
    (fun _ => by rw [kind]; trivial) (by rw [kind]; exact .other rfl (by simp)) fun hlater => ?_
  have hinner := hlater.exprs inner _ (get?_put_self istill) (by simp)
  have hback : Lasts s2.program q := by
    refine Lasts.trans ?_ hlater
    exact .put_back hf inode istill (by simp [ikind]) rfl
  simp only [kind, Expr.valueSites, List.mem_singleton, forall_eq]
  refine .intro ⟨trivial, trivial, trivial⟩ ?_
  simpa [Program.holds, hinner, Expr.allocatedSites] using
    ⟨iht element ((count.lasts hf).trans hback), ih count hback⟩

omit hp in
include iht in
theorem sound_newObject {mi : ExprNode} {c : ClassId} (kind : m.kind = .before .new inner)
    (inode : s.program.exprs.get? inner = some mi)
    (ikind : ∀ left length, mi.kind ≠ .binary .index left (.expr length))
    (object : RanType p n s inner (.classStorage c) s1) (still : s1.program.exprs.get? e = some m)
    (hl : Lasts (s1.put e { m with ty := some (.classPointer c true) }).program q) :
    q.Sound E (.value e) := by
  refine Step.sound_put hf node still hl rfl rfl (by simp) (fun _ => by rw [kind]; trivial)
    (by rw [kind]; exact .other rfl (by simp)) fun hlater => ?_
  obtain ⟨mi', hmi', ho⟩ := ((object.lasts hf).trans hlater).outlines inner mi inode
  simp only [kind, Expr.valueSites, List.mem_singleton, forall_eq]
  refine .intro ⟨trivial, trivial, trivial⟩ ?_
  have hsites : mi'.kind.allocatedSites inner = [.type inner] :=
    Expr.allocatedSites_of_outline ho ikind
  simpa [Program.holds, hmi', hsites] using iht object hlater

include ih iht in
theorem sound_var {v : VarId} {d : Var} {t : Ty} {value' : Option ExprId} {table : ScopeTable}
    (kind : m.kind = .var v) (vnode : p.vars.get? v = some d)
    (type : RanType p n s d.typeExpr t s1) (started : Started p n t s1 d.value value' s2)
    (still : s2.program.exprs.get? e = some m) (vstill : s2.program.vars.get? v = some d)
    (hl : Lasts ({ s2.setVar v { d with value := value', ty := some t } with
      table := table }.put e { m with ty := some t }).program q) : q.Sound E (.value e) := by
  have hvar : q.vars.get? v = some { d with value := value', ty := some t } :=
    hl.vars v _ (Arena.get?_set_self vstill) (by simp)
  have hset : Lasts s2.program
    (s2.setVar v { d with value := value', ty := some t }).program := by
    refine .setVar vstill (hf.vars d (Arena.mem_toList_of_get? vnode)) ?_
    simp [Var.outline, started.outline]
  have hstill : (s2.setVar v { d with value := value', ty := some t }).program.exprs.get? e =
    some m := still
  refine Step.sound_put hf node hstill hl rfl rfl (by simp) (fun _ => by rw [kind]; trivial)
    (by rw [kind]; exact .other rfl (by simp)) fun hlater => ?_
  have hback : Lasts s2.program q := hset.trans hlater
  have htype := iht type ((started.lasts hf).trans hback)
  simp only [kind, Expr.valueSites, List.mem_singleton, forall_eq]
  generalize d.value = value at started
  cases started with
  | none =>
    refine .intro ⟨fun d' hd' => ?_, trivial, trivial⟩
      (by simpa [Program.holds, hvar] using htype)
    obtain rfl := hvar.some_unique hd'
    simp
  | some run fits =>
    refine .intro ⟨fun d' hd' => ?_, trivial, trivial⟩ ?_
    · obtain rfl := hvar.some_unique hd'
      simpa using fits.fits (run.settled hp hf).whole hback
    · simpa [Program.holds, hvar] using ⟨htype, ih run hback⟩

end

include ih iht

/-- What has been resolved fits, whatever its form. -/
theorem Step.sound (hfit : Fit p s (.expr e)) (h : Step p n s e e' s')
    (hl : Lasts s'.program q) : q.Sound E (.value e') := by
  cases h with
  | @literal m v node kind =>
    refine Program.sound_literal (hl.typedLiteral ⟨v, m.line, ?_⟩)
    rw [← kind]
    exact get?_put_self node
  | name node kind named =>
    have hm := hfit.node node
    rcases named.ends with rfl | hlit
    · exact Program.sound_name hm kind ((Lasts.named hf named hm (hf.untyped node) kind).trans hl)
    · exact Program.sound_literal (hl.typedLiteral hlit)
  | before node kind operand still ends =>
    exact sound_before hp hf ih node hl kind operand still ends
  | newArray node kind inode ikind element count still istill =>
    exact sound_newArray hf ih iht node hfit kind inode ikind element count still istill hl
  | newObject node kind inode ikind object still =>
    exact sound_newObject hf iht node kind inode ikind object still hl
  | after node kind _ operand still ends =>
    exact sound_after hp hf ih node hl kind operand still ends
  | ownerMember node kind mnode mkind lnode lkind _ _ named accessed =>
    exact sound_ownerMember hp hf node hl hfit kind mnode mkind lnode lkind named accessed
  | valueMember node kind mnode mkind value still mstill _ ofValue =>
    exact sound_valueMember hf ih node hl hfit kind mnode mkind value still mstill ofValue
  | call node kind function symbol method count arguments still =>
    exact sound_call hp hf ih node kind function symbol method count arguments still hl
  | binary node kind notDot notCall first second still ends =>
    exact sound_binary hp hf ih node hl kind notDot notCall first second still ends
  | conditional node kind condition boolean first second still ends =>
    exact sound_conditional hp hf ih node hl kind condition boolean first second still ends
  | collection node kind list _ _ _ still => exact sound_collection hf ih node kind list still hl
  | var node kind vnode type started still vstill =>
    exact sound_var hp hf ih iht node kind vnode type started still vstill hl

end

/-- Everything that has been resolved or read fits. -/
theorem each_sound (n : Nat) :
    Each p (fun _ _ _ e' s' => Lasts s'.program q → q.Sound E (.value e'))
      (fun _ _ e _ s' => Lasts s'.program q → q.Sound E (.type e)) (fun _ _ _ _ => True) n :=
  .all hp hf (fun _ ih _ _ _ _ hfit step => step.sound hp hf ih.expr ih.type hfit)
    (fun _ _ _ _ _ _ hfit step => step.sound hp hf hfit) (fun _ _ _ _ _ _ _ => trivial) n

theorem Ran.sound (h : Ran p n s e e' s') (hl : Lasts s'.program q) : q.Sound E (.value e') :=
  (each_sound hp hf n).expr h hl

theorem RanType.sound (h : RanType p n s e t s') (hl : Lasts s'.program q) : q.Sound E (.type e) :=
  (each_sound hp hf n).type h hl

end

end Ci
