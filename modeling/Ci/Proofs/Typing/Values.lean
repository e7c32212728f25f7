-- What a program that is resolved without an error records of the values that are known
-- in advance. An operator whose value is known is only left where an operand does
-- something, and the constants outside the enumerations are closed values. The values of
-- enumerations only have the right type.
import Ci.Proofs.Typing.WellTyped

namespace Ci

open Pass

variable {p q : Program} {s1 s2 s3 s' : State} {e : ExprId} {k : ConstId} {c : EnumId} {t : Ty}
  {i : Interval}

/-- What is recorded at the places of a program that is resolved. -/
theorem records_of_resolve (hp : p.TreeShaped) (hf : Fresh p)
    (h : p.resolve.abort = none) {a : Site}
    (ha : p.resolve.program.Reachable a) : p.resolve.program.Records a := by
  obtain ⟨s', hrun, hprogram⟩ := run_of_resolve h
  obtain ⟨_, _, _, _, -, -, -, -, hphases⟩ := phases_of_run hp hf hrun
  rw [hprogram] at ha ⊢
  exact (hphases.recorded hp hf ha).2

/-! ## Operators -/

/-- An operator on integers that has a single value for a type is only left in place where an
operand does something. -/
theorem known_operator_acts (p : Program) (hp : p.TreeShaped) (hf : Fresh p)
    (h : p.resolve.abort = none) (e : ExprId) (n : ExprNode) (i : Interval)
    (he : p.resolve.program.Reachable (.value e)) (node : p.resolve.program.exprs.get? e = some n)
    (operator : n.kind.isArithmetic = true) (ty : n.ty = some (.range i)) (single : i.min = i.max) :
    ∃ c ∈ n.kind.children, p.resolve.program.Acts c := by
  have hi : i = .point i.min := by
    obtain ⟨a, b⟩ := i
    obtain rfl : a = b := single
    rfl
  rw [hi] at ty
  exact (records_of_resolve hp hf h he n node).operator operator i.min ty

/-- A class that multiplies what a call returns by zero. -/
def silencer : Program :=
  let expr (kind : Expr) : ExprNode := ⟨kind, 1, none⟩
  { Program.empty with
    exprs := .ofList [expr (.literal (.int 0)), expr (.literal (.int 9)),
      expr (.binary (.order .lessOrEqual) ⟨0⟩ (.expr ⟨1⟩)), expr (.name "next" none),
      expr (.binary .call ⟨3⟩ (.args [])), expr (.literal (.int 0)),
      expr (.binary (.arith .mul) ⟨5⟩ (.expr ⟨4⟩))]
    stmts := .ofList [⟨.expr ⟨6⟩, 1⟩]
    classes := .ofList [⟨"Silencer", ⟨0⟩, 1, false, .normal, none, none, [], [],
      [⟨0⟩, ⟨1⟩], .unvisited⟩]
    methods := .ofList [⟨"next", 1, .hidden, .normal, true, some ⟨2⟩, [], none, none⟩,
      ⟨"run", 1, .hidden, .normal, true, none, [], some ⟨0⟩, none⟩] }

theorem silencer_acts : ∃ n, silencer.resolve.program.exprs.get? ⟨6⟩ = some n ∧
    n.ty = some (.range (.point 0)) ∧ ∃ c ∈ n.kind.children, silencer.resolve.program.Acts c := by
  have hp : silencer.TreeShaped := by decide +kernel
  have hf : Fresh silencer := by decide +kernel
  have h : silencer.resolve.abort = none := by decide +kernel
  have hr : silencer.resolve.program.Reachable (.value ⟨6⟩) := by
    have h0 : Site.classDecl ⟨0⟩ ∈ silencer.resolve.program.roots := by decide +kernel
    have h1 : Site.method ⟨1⟩ ∈ silencer.resolve.program.holds (.classDecl ⟨0⟩) := by decide +kernel
    have h2 : Site.stmt ⟨0⟩ ∈ silencer.resolve.program.holds (.method ⟨1⟩) := by decide +kernel
    have h3 : Site.value ⟨6⟩ ∈ silencer.resolve.program.holds (.stmt ⟨0⟩) := by decide +kernel
    exact (((Program.Reachable.root h0).tail h1).tail h2).tail h3
  have hn : silencer.resolve.program.exprs.get? ⟨6⟩ =
      some ⟨.binary (.arith .mul) ⟨5⟩ (.expr ⟨4⟩), 1, some (.range (.point 0))⟩ := by decide +kernel
  exact ⟨_, hn, rfl, known_operator_acts silencer hp hf h ⟨6⟩ _ (.point 0) hr hn rfl rfl rfl⟩

/-! ## Constants -/

/-- A constant that is known in advance, with the type that is recorded for its value. -/
structure Program.KnownConst (q : Program) (d : Const) (e : ExprId) (t : Ty) : Prop where
  status : d.status = .resolved
  value : d.value = some e
  constant : q.ConstantValue e
  recorded : q.ty? e = some t
  ty : d.ty = some t
  /-- The type that is written for the constant holds the value, but for arrays. -/
  declared : ∀ x ∈ d.typeExpr, ∃ u, q.ty? x = some u ∧
    (u.isArray = false → q.assignable t u = .ok true)
  /-- A number is a literal. -/
  number : ∀ i, t = .range i → ∃ n v, q.exprs.get? e = some n ∧ n.kind = .literal (.int v) ∧
    i = .point v

/-- A value of an enumeration never gets another type than the enumeration. -/
theorem Phases.enumerator_ty (h : Phases p s1 s2 s3 s') (hf : Fresh p) {d : Const}
    (hd : s'.program.consts.get? k = some d) (hc : d.owner = .enumDecl c) :
    d.ty = none ∨ d.ty = some (.enumeration c) := by
  have hl := (h.proceeds hf).lasts
  obtain ⟨classes, ordered, hprogram⟩ := h.linked.program
  have hsize : k.slot < p.consts.size := by
    have hlt := Arena.lt_size_of_get? hd
    rwa [hl.consts_size, hprogram] at hlt
  obtain ⟨d0, hd0⟩ := Arena.exists_get? hsize
  obtain ⟨d', hd', hkept⟩ := hl.kept k d0 (by rw [hprogram]; exact hd0)
  obtain rfl := hd.some_unique hd'
  rw [← (hf.consts d0 (Arena.mem_toList_of_get? hd0)).2]
  exact hkept.type c (hkept.owner ▸ hc)

/-- A known value that is a number is a literal. -/
theorem Program.ConstantValue.number (h : q.ConstantValue e) (hs : Settled q e)
    (ht : q.ty? e = some (.range i))
    (henum : ∀ k d c, q.consts.get? k = some d → d.owner = .enumDecl c →
      d.ty = none ∨ d.ty = some (.enumeration c))
    (hj : ∀ n, q.exprs.get? e = some n → q.Justifies n.ty n.kind) :
    ∃ n v, q.exprs.get? e = some n ∧ n.kind = .literal (.int v) ∧ i = .point v := by
  cases h with
  | @literal _ n w node kind =>
    have hw := hs.literal n w node kind
    rw [Program.ty?, node, Option.bind_some, hw] at ht
    cases w with
    | int v => exact ⟨n, v, node, kind, by simpa [Literal.ty, eq_comm] using ht⟩
    | _ => simp [Literal.ty, Ty.double] at ht
  | @enumerator _ k d symbol found =>
    have hty := (hs.proper symbol).2
    rw [← Program.ty?, ht] at hty
    obtain ⟨c, hc⟩ : ∃ c, d.owner = .enumDecl c := by
      cases howner : d.owner <;> simp_all [Owner.isEnum]
    rcases henum k d c found hc with hd | hd <;> simp [Program.symbolTy?, found, hd] at hty
  | @collection _ n items node kind _ =>
    obtain ⟨u, l, hty⟩ := (hj n node).collection items kind
    simp [Program.ty?, node, hty] at ht

/-- Every constant outside the enumerations is known in advance. -/
theorem constant_known (p : Program) (hp : p.TreeShaped) (hf : Fresh p)
    (h : p.resolve.abort = none) (k : ConstId) (hk : p.resolve.program.Reachable (.const k)) :
    ∃ d, p.resolve.program.consts.get? k = some d ∧
      (d.owner.isEnum = false → ∃ e t, p.resolve.program.KnownConst d e t) := by
  obtain ⟨d, hd, hrec⟩ := records_of_resolve hp hf h hk
  refine ⟨d, hd, fun howner => ?_⟩
  obtain ⟨e, t, value, constant, settled, recorded, ty, declared⟩ := hrec.plain howner
  refine ⟨e, t, hrec.resolved, value, constant, recorded, ty, declared, fun i hi => ?_⟩
  have he : p.resolve.program.Reachable (.value e) :=
    hk.tail (by simp [Program.holds, hd, value])
  refine constant.number settled (hi ▸ recorded) (fun k d c hd hc => ?_)
    (records_of_resolve hp hf h he)
  obtain ⟨s', hrun, hprogram⟩ := run_of_resolve h
  obtain ⟨_, _, _, _, -, -, -, -, hphases⟩ := phases_of_run hp hf hrun
  exact hphases.enumerator_ty hf (hprogram ▸ hd) hc

/-- A limit that is written as a sum. -/
def limit : Program :=
  let expr (kind : Expr) : ExprNode := ⟨kind, 1, none⟩
  { Program.empty with
    exprs := .ofList [expr (.name "int" none), expr (.literal (.int 2)), expr (.literal (.int 3)),
      expr (.binary (.arith .add) ⟨1⟩ (.expr ⟨2⟩))]
    consts := .ofList [⟨"Limit", 1, .program ⟨0⟩, .hidden, some ⟨0⟩, some ⟨3⟩, .unvisited, none⟩]
    globals := [⟨0⟩] }

theorem limit_known : ∃ d e t, limit.resolve.program.consts.get? ⟨0⟩ = some d ∧
    d.ty = some (.range (.point 5)) ∧ limit.resolve.program.KnownConst d e t := by
  have hp : limit.TreeShaped := by decide +kernel
  have hf : Fresh limit := by decide +kernel
  have h : limit.resolve.abort = none := by decide +kernel
  have hr : limit.resolve.program.Reachable (.const ⟨0⟩) := .root (by decide +kernel)
  have hty : ∀ d, limit.resolve.program.consts.get? ⟨0⟩ = some d →
      d.owner.isEnum = false ∧ d.ty = some (.range (.point 5)) := by decide +kernel
  obtain ⟨d, hd, hknown⟩ := constant_known limit hp hf h ⟨0⟩ hr
  obtain ⟨e, t, het⟩ := hknown (hty d hd).1
  exact ⟨d, e, t, hd, (hty d hd).2, het⟩

/-! ## Values of enumerations -/

/-- Every value of an enumeration has the type of the enumeration, and what is written for it is an
integer or one of its values. If what is written is known in advance, it is an integer literal or
stands for a constant. -/
theorem enumerator_typed (p : Program) (hp : p.TreeShaped) (hf : Fresh p)
    (h : p.resolve.abort = none) (k : ConstId) (d : Const) (c : EnumId)
    (hk : p.resolve.program.Reachable (.const k)) (found : p.resolve.program.consts.get? k = some d)
    (owner : d.owner = .enumDecl c) :
    d.status = .resolved ∧ d.ty = some (.enumeration c) ∧
      ∀ e ∈ d.value, ∃ n t, p.resolve.program.exprs.get? e = some n ∧ n.ty = some t ∧
        (t.isInteger = true ∨ t = .enumeration c) ∧
        (∀ w, n.kind = .literal w → ∃ v, w = .int v ∧ t = .range (.point v)) ∧
        (p.resolve.program.isConstant e = .ok true → (∃ v, n.kind = .literal (.int v)) ∨
          ∃ k', p.resolve.program.symbolOf e = .ok (some (.const k'))) := by
  obtain ⟨d', hd', hrec⟩ := records_of_resolve hp hf h hk
  obtain rfl := found.some_unique hd'
  obtain ⟨hty, hvalue⟩ := hrec.enumerator c owner
  refine ⟨hrec.resolved, hty, fun e he => ?_⟩
  obtain ⟨hsettled, t, ht, hfits⟩ := hvalue e he
  obtain ⟨n, hn, hnt⟩ := Option.bind_eq_some_iff.1 ht
  have hliteral : ∀ w, n.kind = .literal w → ∃ v, w = .int v ∧ t = .range (.point v) := by
    intro w hw
    have hwt := hsettled.literal n w hn hw
    obtain rfl := hnt.some_unique hwt
    cases w with
    | int v => exact ⟨v, rfl, rfl⟩
    | _ => simp [Literal.ty, Ty.double, Ty.isInteger] at hfits
  refine ⟨n, t, hn, hnt, hfits, hliteral, fun hconst => ?_⟩
  cases hsettled.whole.constantValue (.refl _) hconst with
  | literal node kind =>
    obtain rfl := hn.some_unique node
    obtain ⟨v, rfl, -⟩ := hliteral _ kind
    exact .inl ⟨v, kind⟩
  | enumerator symbol => exact .inr ⟨_, symbol⟩
  | collection node kind =>
    -- a collection is neither an integer nor a value of the enumeration
    obtain rfl := hn.some_unique node
    have he' : p.resolve.program.Reachable (.value e) :=
      hk.tail (by simp [Program.holds, found, Option.mem_def.1 he])
    obtain ⟨u, l, hty⟩ := (records_of_resolve hp hf h he' n hn).collection _ kind
    obtain rfl := hnt.some_unique hty
    simp [Ty.isInteger] at hfits

/-- An enumeration of one letter of a text, by its place in the text. -/
def letter (place : Int64) : Program :=
  let expr (kind : Expr) : ExprNode := ⟨kind, 1, none⟩
  { Program.empty with
    exprs := .ofList [expr (.literal (.string "abc")), expr (.literal (.int place)),
      expr (.binary .index ⟨0⟩ (.expr ⟨1⟩))]
    enums := .ofList [⟨"Letter", ⟨0⟩, 1, false, [⟨0⟩]⟩]
    consts := .ofList [⟨"A", 1, .enumDecl ⟨0⟩, .hidden, none, some ⟨2⟩, .unvisited, none⟩] }

theorem letter_typed : ∃ d, (letter 1).resolve.program.consts.get? ⟨0⟩ = some d ∧
    d.value ≠ none ∧ d.status = .resolved ∧ d.ty = some (.enumeration ⟨0⟩) := by
  have hp : (letter 1).TreeShaped := by decide +kernel
  have hf : Fresh (letter 1) := by decide +kernel
  have h : (letter 1).resolve.abort = none := by decide +kernel
  have hr : (letter 1).resolve.program.Reachable (.const ⟨0⟩) := by
    have h0 : Site.enumDecl ⟨0⟩ ∈ (letter 1).resolve.program.roots := by decide +kernel
    exact (Program.Reachable.root h0).tail (by decide +kernel)
  obtain ⟨d, hd⟩ : ∃ d, (letter 1).resolve.program.consts.get? ⟨0⟩ = some d :=
    Option.isSome_iff_exists.1 (by decide +kernel)
  have howner : ∀ d, (letter 1).resolve.program.consts.get? ⟨0⟩ = some d →
      d.owner = .enumDecl ⟨0⟩ ∧ d.value ≠ none := by decide +kernel
  have hall := enumerator_typed (letter 1) hp hf h ⟨0⟩ d ⟨0⟩ hr hd (howner d hd).1
  exact ⟨d, hd, (howner d hd).2, hall.1, hall.2.1⟩

/-- The letter behind the end of the text is left as it is written. -/
theorem letter_not_constant : (letter 5).TreeShaped ∧ Fresh (letter 5) ∧
    (letter 5).resolve.abort = none ∧
    ((letter 5).resolve.program.consts.get? ⟨0⟩).bind (·.value) = some ⟨2⟩ ∧
    (letter 5).resolve.program.exprs.get? ⟨2⟩ =
      some ⟨.binary .index ⟨0⟩ (.expr ⟨1⟩), 1, some .char⟩ := by
  refine ⟨?_, ?_, ?_, ?_, ?_⟩ <;> decide +kernel

end Ci
