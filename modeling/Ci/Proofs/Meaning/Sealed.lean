-- What resolution leaves behind. In an expression that has been resolved every name is
-- known to stand for something, and so is every name in a constant that has been
-- resolved. So such an expression has the same values from every scope and for good.
import Ci.Proofs.Meaning.Evaluation
import Ci.Proofs.Typing.WellTyped

namespace Ci

open Pass Arena

variable {p q r : Program} {n : Nat} {s s1 s2 s3 s' : State} {e e' : ExprId} {m m' : ExprNode}
  {k : ConstId} {d : Const} {V : Program → Prop} {parts : List ExprId} {f : Pass ExprId}
  {env : VarId → Value} {scope : ScopeId} {kind kind' : Expr}
  {look : ScopeId → String → Option Symbol → Option Symbol} {home : ScopeId → Owner → ScopeId}

/-! ## Expressions that have been resolved -/

/-- An expression that has been resolved with all its operands. -/
inductive Sealed (q : Program) : ExprId → Prop
  | mk {e : ExprId} {m : ExprNode} (settled : Settled q e) (node : q.exprs.get? e = some m)
      (operands : ∀ c ∈ m.kind.operands, Sealed q c) : Sealed q e

namespace Sealed

theorem settled (h : Sealed q e) : Settled q e := by
  obtain ⟨settled, -, -⟩ := h
  exact settled

theorem later (h : Sealed r e) (hl : Lasts r q) : Sealed q e := by
  induction h with
  | mk settled node _ ih => exact .mk (settled.later hl) (settled.whole.node hl node) ih

theorem of_literal (h : q.TypedLiteral e) : Sealed q e := by
  have hs := Settled.of_literal h
  obtain ⟨v, line, hv⟩ := h
  exact .mk hs hv (by simp [Expr.operands])

end Sealed

/-- What has no operands gets none. -/
theorem Expr.operands_eq_nil (h : kind'.outline = kind.outline) (hk : kind.operands = []) :
    kind'.operands = [] := by
  cases kind' with
  | before => cases kind <;> simp_all [outline, operands]
  | binary op left right =>
    cases right with
    | expr =>
      cases kind with
      | binary op' left' right' => cases right' <;> simp_all [outline, Operand.outline, operands]
      | _ => simp [outline] at h
    | _ => rfl
  | conditional => cases kind <;> simp_all [outline, operands]
  | _ => rfl

/-- An operator is put back with operands that have been resolved, and then ends. -/
theorem Sealed.ending (hend : Ending V e parts (s.put e m') f e' s')
    (hs : Settled s'.program e') (hm : s.program.exprs.get? e = some m) (ht : m.ty = none)
    (ho : m'.kind.outline = m.kind.outline) (hl : m'.line = m.line) (ht' : m'.ty = m.ty)
    (hc : ∀ c ∈ m'.kind.operands, Sealed s.program c) (hparts : ∀ c ∈ parts, Sealed s.program c) :
    Sealed s'.program e' := by
  have hback : Lasts s.program (s.put e m').program := .put hm ht ho hl
  have hself := get?_put_self (m := m') hm
  cases hend with
  | typed _ ty found =>
    obtain rfl := hself.some_unique found
    have hput : Lasts (s.put e m').program ((s.put e m').put e { m' with ty := some ty }).program :=
      .put hself (ht'.trans ht) rfl rfl
    exact .mk hs (get?_put_self hself) fun c hc' => (hc c hc').later (hback.trans hput)
  | folded line value room => exact .of_literal ⟨value, line, get?_next_push room⟩
  | part e' mem => exact (hparts e' mem).later hback

theorem Step.sealed (hf : Fresh p) (hfit : Fit p s (.expr e)) (h : Step p n s e e' s')
    (hs : Settled s'.program e') (hl : Lasts s.program s'.program)
    (ih : ∀ {s e e' s'}, Ran p n s e e' s' → Sealed s'.program e') : Sealed s'.program e' := by
  -- what takes the place of an expression without operands
  have hends : ∀ {m}, p.exprs.get? e = some m → m.kind.operands = [] →
      e' = e ∨ s'.program.TypedLiteral e' → Sealed s'.program e' := by
    rintro m node hk (rfl | hlit)
    · obtain ⟨m', hm', ho⟩ := hl.outlines e' m (hfit.node node)
      exact .mk hs hm' (by simp [Expr.operands_eq_nil ho hk])
    · exact .of_literal hlit
  cases h with
  | @literal m v node kind =>
    have hself : (s.put e { m with ty := some v.ty }).program.exprs.get? e = _ := get?_put_self node
    exact .mk hs hself (by simp [kind, Expr.operands])
  | name node kind named => exact hends node (by simp [kind, Expr.operands]) named.ends
  | before node kind operand still ends =>
    refine .ending (Resolve.settles_beforeEnd _ _ ends) hs still (hf.untyped node)
      (by simp [kind]) rfl
      rfl (fun c hc => ?_) (by simp)
    obtain rfl : c = _ := by simpa [Expr.operands] using (List.mem_ite_nil_right.1 hc).2
    exact ih operand
  | newArray node kind =>
    exact hends node (by simp [kind, Expr.operands, PrefixOp.isPlain]) (.inl rfl)
  | newObject node kind =>
    exact hends node (by simp [kind, Expr.operands, PrefixOp.isPlain]) (.inl rfl)
  | after node kind _ operand still ends =>
    exact .ending (Resolve.settles_afterEnd _ _ ends) hs still (hf.untyped node)
      (by simp [kind]) rfl
      rfl (by simp [Expr.operands]) (by simp)
  | ownerMember node kind _ _ _ _ _ _ named accessed =>
    exact hends node (by simp [kind, Expr.operands, BinaryOp.isPlain]) (accessed.ends named.ends)
  | valueMember node kind _ _ _ _ _ _ ofValue =>
    exact hends node (by simp [kind, Expr.operands, BinaryOp.isPlain]) ofValue.ends
  | call node kind => exact hends node (by simp [kind, Expr.operands]) (.inl rfl)
  | binary node kind _ _ first second still ends =>
    have h1 := (ih first).later (second.lasts hf)
    have h2 := ih second
    refine .ending (Settles.operation _ _ ends) hs still (hf.untyped node) (by simp [kind]) rfl
      rfl (fun c hc => ?_) (by simpa using h2)
    have hc' := (List.mem_ite_nil_right.1 hc).2
    simp only [List.mem_cons, List.not_mem_nil, or_false] at hc'
    rcases hc' with rfl | rfl
    · exact h1
    · exact h2
  | conditional node kind condition _ first second still ends =>
    have h0 := (ih condition).later ((first.lasts hf).trans (second.lasts hf))
    have h1 := (ih first).later (second.lasts hf)
    exact .ending (Settles.choice _ _ ends) hs still (hf.untyped node) (by simp [kind]) rfl
      rfl (by simpa [Expr.operands] using ⟨h0, h1, ih second⟩)
      (by simpa using ⟨h1, ih second⟩)
  | collection node kind => exact hends node (by simp [kind, Expr.operands]) (.inl rfl)
  | var node kind => exact hends node (by simp [kind, Expr.operands]) (.inl rfl)

theorem Ran.sealed (hp : p.TreeShaped) (hf : Fresh p) (h : Ran p n s e e' s') :
    Sealed s'.program e' := by
  induction n generalizing s e e' s' with
  | zero => exact absurd h not_ran_zero
  | succ n ih => exact (h.step hp hf).sealed hf h.fit (h.settled hp hf) (h.lasts hf) ih

/-! ## Constants that have been resolved -/

theorem Program.ConstantValue.later (h : r.ConstantValue e) (hw : Whole r e) (hl : Lasts r q) :
    q.ConstantValue e := by
  induction h with
  | literal node kind => exact .literal (hw.node hl node) kind
  | enumerator symbol found owner =>
    obtain ⟨d', hd', hkept⟩ := hl.kept _ _ found
    exact .enumerator ((hw.alike hl).symbolOf hl.size_le symbol) hd' (by rw [hkept.owner, owner])
  | collection node kind _ ih =>
    exact .collection (hw.node hl node) kind fun i hi =>
      ih i hi (hw.child node (by simpa [kind] using hi))

theorem Lasts.ty? {t : Ty} (hl : Lasts r q) (ht : r.ty? e = some t) : q.ty? e = some t := by
  obtain ⟨m, hm, hty⟩ := Option.bind_eq_some_iff.1 ht
  exact Option.bind_eq_some_iff.2 ⟨m, hl.exprs e m hm (by simp [hty]), hty⟩

theorem Program.ConstRecords.later (h : r.ConstRecords d) (hl : Lasts r q) : q.ConstRecords d := by
  refine ⟨h.resolved, fun howner => ?_, fun c hc => ?_⟩
  · obtain ⟨e, t, value, constant, settled, recorded, ty, declared⟩ := h.plain howner
    refine ⟨e, t, value, constant.later settled.whole hl, settled.later hl, hl.ty? recorded, ty,
      fun x hx => ?_⟩
    obtain ⟨u, hu, hass⟩ := declared x hx
    exact ⟨u, hl.ty? hu, by rwa [assignable_congr hl.classes]⟩
  · obtain ⟨ty, value⟩ := h.enumerator c hc
    refine ⟨ty, fun e he => ?_⟩
    obtain ⟨settled, t, ht, hfits⟩ := value e he
    exact ⟨settled.later hl, t, hl.ty? ht, hfits⟩

/-- A constant has been resolved, with its value. -/
def Program.SettledConst (q : Program) (k : ConstId) : Prop :=
  ∃ d, q.consts.get? k = some d ∧ q.ConstRecords d ∧ ∀ x ∈ d.value, Sealed q x

theorem Program.SettledConst.later (h : r.SettledConst k) (hl : Lasts r q) : q.SettledConst k := by
  obtain ⟨d, hd, hrec, hx⟩ := h
  exact ⟨d, hl.consts k d hd hrec.resolved, hrec.later hl, fun x hx' => (hx x hx').later hl⟩

/-- The constants that have been resolved are as resolution leaves them. -/
abbrev SettledConsts : State → Prop := Told fun k q => q.SettledConst k

namespace SettledConsts

theorem stable (k : ConstId) (r q : Program) (hl : Lasts r q) (h : r.SettledConst k) :
    q.SettledConst k := h.later hl

theorem get (h : SettledConsts s) (hd : s.program.consts.get? k = some d)
    (hs : d.status = .resolved) :
    s.program.ConstRecords d ∧ ∀ x ∈ d.value, Sealed s.program x := by
  obtain ⟨d', hd', hrec, hx⟩ := h k d hd hs
  obtain rfl := hd.some_unique hd'
  exact ⟨hrec, hx⟩

variable (hp : p.TreeShaped) (hf : Fresh p)

include hp hf

theorem visits {t t1 t2 : State} {written : Option Ty} {ty : Ty} {value' : Option ExprId}
    (type : Written p n t d.typeExpr written t1) (value : Valued p n k d written t1 ty value' t2)
    (still : t2.program.consts.get? k = some (d.visit d.value)) :
    (t2.setConst k { d with
      status := .resolved, value := value', ty := some ty }).program.SettledConst k := by
  have hset : Lasts t2.program (t2.setConst k { d with
      status := .resolved, value := value', ty := some ty }).program :=
    .setConst still (by simp [Const.visit]) value.kept
  refine ⟨_, get?_set_self still, constRecords_of_visit hp hf type value still (.refl _),
    fun x hx => ?_⟩
  cases value with
  | enumNone => simp at hx
  | enum _ _ run =>
    obtain rfl := Option.mem_some.1 hx
    exact (run.sealed hp hf).later hset
  | plain _ _ run =>
    obtain rfl := Option.mem_some.1 hx
    exact (run.sealed hp hf).later hset

/-- All that the rules do keeps the constants settled. -/
theorem each (n : Nat) : Each p (fun _ s _ _ s' => SettledConsts s → SettledConsts s')
    (fun _ s _ _ s' => SettledConsts s → SettledConsts s')
    (fun _ s _ s' => SettledConsts s → SettledConsts s') n :=
  Told.each stable hp hf (fun _ _ type value still _ => visits hp hf type value still) n

theorem stmt {x : StmtId} (h : RanStmt p n s x s') : SettledConsts s → SettledConsts s' :=
  Told.stmt stable hp hf (fun _ _ type value still _ => visits hp hf type value still) h

/-- The constants are settled at the start, and they are settled between the phases of the pass. -/
theorem phases (h : Phases p s1 s2 s3 s') :
    SettledConsts s1 ∧ SettledConsts s2 ∧ SettledConsts s3 ∧ SettledConsts s' :=
  Told.phases stable hp hf (fun _ _ type value still _ => visits hp hf type value still) h

end SettledConsts

/-! ## Values that stay -/

/-- An expression that has been resolved has every value, by what its names are known to stand for,
that it has from a scope, also later. -/
theorem Sealed.implies (h : Sealed s.program e) (hc : SettledConsts s) (hl : Lasts s.program q)
    (hlook : ∀ scope text symbol, look scope text (some symbol) = some symbol) :
    Implies (s.program.evalVia env look home n scope e) (q.valueWithin env n e) := by
  induction n generalizing scope e with
  | zero => simp [Program.evalVia, Implies]
  | succ n ih =>
    obtain ⟨settled, node, operands⟩ := h
    refine Program.evalVia_implies node (settled.whole.node hl node)
      (fun text known symbol hk h => ?_)
      (fun text known k d x hk h hd hx => ?_) fun c hc' => ih (operands c hc')
    · obtain ⟨found, rfl, -, -⟩ := settled.name _ text known node hk
      rwa [hlook] at h
    · obtain ⟨found, rfl, hproper, -⟩ := settled.name _ text known node hk
      obtain rfl := Option.some.inj ((hlook _ _ _).symm.trans h)
      obtain ⟨d', hd', hs⟩ := hproper
      obtain rfl := hd.some_unique hd'
      exact ⟨d, hl.consts k d hd hs, hx, ih ((hc.get hd hs).2 x hx)⟩

theorem Sealed.valueWithin_later (h : Sealed s.program e) (hc : SettledConsts s)
    (hl : Lasts s.program q) :
    Implies (s.program.valueWithin env n e) (q.valueWithin env n e) :=
  h.implies hc hl fun _ _ _ => rfl

end Ci
