-- What has been resolved stays resolved. Work only touches what has no type yet, so
-- whatever has its type keeps it to the end of the pass, and an expression that has
-- been resolved has a type with all its parts.
import Ci.Proofs.Work.Statements

namespace Ci

open Pass Arena

variable {p q : Program} {n : Nat} {s s1 s2 s' : State} {e e' l : ExprId} {k : ConstId}
  {D : Set Node} {x y : Node} {m m' : ExprNode} {t : Ty} {ι : Type} {found : Symbol}
  {value' : Option ExprId} {depth : State → Nat} {es parts : List ExprId} {text : String}
  {V : Program → Prop} {f : Pass ExprId} {a : Resolve.Spelling} {writable : Bool}
  {R : State → ι → State → Prop} {exprOf : ι → ExprId} {C : ι → ExprId → State → Prop}

/-! ## Work leaves what has a type -/

theorem Fresh.untyped (h : Fresh p) (hm : p.exprs.get? e = some m) : m.ty = none :=
  (h.exprs m (mem_toList_of_get? hm)).1

theorem RanAll.lasts {is : List ι}
    (hR : ∀ s i s', R s i s' → Lasts s.program s'.program) (h : RanAll R s is s') :
    Lasts s.program s'.program := by
  induction h with
  | nil => exact .refl _
  | cons first _ ih => exact (hR _ _ _ first).trans ih

/-- Each item has had its turn. -/
theorem RanAll.turn {is : List ι} {i : ι}
    (hR : ∀ s i s', R s i s' → Lasts s.program s'.program) (h : RanAll R s is s') (hi : i ∈ is) :
    ∃ a b, Lasts s.program a.program ∧ R a i b ∧ Lasts b.program s'.program := by
  induction h with
  | nil => simp at hi
  | cons first rest ih =>
    rcases List.mem_cons.1 hi with rfl | hi
    · exact ⟨_, _, .refl _, first, rest.lasts hR⟩
    · obtain ⟨a, b, ha, hab, hb⟩ := ih hi
      exact ⟨a, b, (hR _ _ _ first).trans ha, hab, hb⟩

section

variable (hf : Fresh p)

include hf

theorem Ran.lasts (h : Ran p n s e e' s') : Lasts s.program s'.program :=
  .of_changes h.moves.program (h.fit.untyped hf)

theorem RanType.lasts (h : RanType p n s e t s') : Lasts s.program s'.program :=
  .of_changes h.moves.program (h.fit.untyped hf)

theorem RanConst.lasts (h : RanConst p n s k s') : Lasts s.program s'.program :=
  .of_changes h.moves.program (h.ready0.untyped hf h.ready0.waiting)

theorem RanLocal.lasts (h : RanLocal p s k s') : Lasts s.program s'.program :=
  .of_changes h.moves.program (h.fit.untyped hf)

theorem RanStmt.lasts {x : StmtId} (h : RanStmt p n s x s') : Lasts s.program s'.program :=
  .of_changes h.moves.program (h.fit.untyped hf)

theorem Reached.lasts (h : Reached p n s found s') : Lasts s.program s'.program := by
  cases h with
  | const run => exact run.lasts hf
  | other => exact .refl _

theorem Started.lasts {value : Option ExprId} (h : Started p n t s value value' s') :
    Lasts s.program s'.program := by
  cases h with
  | none => exact .refl _
  | some run => exact run.lasts hf

theorem RanList.lasts {xs : List ι}
    (h : RanList p depth exprOf C s xs es s') : Lasts s.program s'.program := by
  induction h with
  | nil => exact .refl _
  | cons first _ _ ih => exact (first.lasts hf).trans ih

theorem RanCases.lasts {R : State → StmtId → State → Prop} {cases cases' : List Case}
    (hR : ∀ s x s', R s x s' → Lasts s.program s'.program) (h : RanCases p R s cases cases' s') :
    Lasts s.program s'.program := by
  induction h with
  | nil => exact .refl _
  | cons labels body _ ih => exact ((labels.lasts hf).trans (RanAll.lasts hR body)).trans ih

theorem Valued.lasts {d : Const} {w : Option Ty}
    (h : Valued p n k d w s t value' s') : Lasts s.program s'.program := by
  cases h with
  | enumNone => exact .refl _
  | enum _ _ run => exact run.lasts hf
  | plain _ _ run => exact run.lasts hf

omit hf in
/-- The value of an enumeration has that type. -/
theorem Valued.kept {d : Const} {w : Option Ty}
    (h : Valued p n k d w s t value' s') :
    (d.visit d.value).Kept { d with status := .resolved, value := value', ty := some t } := by
  refine ⟨rfl, fun c hc => .inr ?_⟩
  cases h with
  | enumNone owner => rw [Owner.enumDecl.inj (owner.symm.trans hc)]
  | enum owner => rw [Owner.enumDecl.inj (owner.symm.trans hc)]
  | plain owner => exact absurd hc (owner c)

/-- An expression that no work has come to is put back with other parts. -/
theorem Lasts.put_back (node : p.exprs.get? e = some m) (still : s.program.exprs.get? e = some m)
    (ho : m'.kind.outline = m.kind.outline) (hl : m'.line = m.line) :
    Lasts s.program (s.put e m').program := .put still (hf.untyped node) ho hl

end

/-- An expression gets its type after all its parts. -/
theorem Whole.put (hm : s.program.exprs.get? e = some m) (ht : m.ty = none)
    (ho : m'.kind.outline = m.kind.outline) (hl : m'.line = m.line) (ht' : m'.ty ≠ none)
    (hc : ∀ c ∈ m'.kind.children, Whole s.program c) : Whole (s.put e m').program e :=
  .mk (get?_put_self hm) ht' fun c hc' => (hc c hc').later (.put hm ht ho hl)

/-! ## Names -/

/-- What a value stands for has its type for good. -/
def Proper (p : Program) : Symbol → Prop
  | .const k => ∃ d, p.consts.get? k = some d ∧ d.status = .resolved
  | .field f => ∃ d, p.fields.get? f = some d ∧ d.ty ≠ none
  | .method m => ∃ d, p.methods.get? m = some d ∧ d.ty ≠ none
  | .var v => ∃ d, p.vars.get? v = some d ∧ d.ty ≠ none
  | .stringLength => True
  | .type _ | .classDecl _ | .enumDecl _ => False

theorem Proper.later (h : Proper p found) (hl : Lasts p q) : Proper q found := by
  cases found with
  | const k =>
    obtain ⟨d, hd, hs⟩ := h
    exact ⟨d, hl.consts k d hd hs, hs⟩
  | field f =>
    obtain ⟨d, hd, ht⟩ := h
    exact ⟨d, hl.fields f d hd ht, ht⟩
  | method f =>
    obtain ⟨d, hd, ht⟩ := h
    obtain ⟨d', hd', -, hsame⟩ := hl.methods f d hd
    obtain rfl := hsame ht
    exact ⟨d', hd', ht⟩
  | var v =>
    obtain ⟨d, hd, ht⟩ := h
    exact ⟨d, hl.vars v d hd ht, ht⟩
  | _ => exact h

theorem Proper.symbolTy? (h : Proper p found) (hl : Lasts p q)
    (ht : p.symbolTy? found = some t) : q.symbolTy? found = some t := by
  cases found with
  | const k =>
    obtain ⟨d, hd, hs⟩ := h
    simpa [Program.symbolTy?, hl.consts k d hd hs, hd] using ht
  | field f =>
    obtain ⟨d, hd, hs⟩ := h
    simpa [Program.symbolTy?, hl.fields f d hd hs, hd] using ht
  | method f =>
    obtain ⟨d, hd, hs⟩ := h
    obtain ⟨d', hd', -, hsame⟩ := hl.methods f d hd
    obtain rfl := hsame hs
    simpa [Program.symbolTy?, hd', hd] using ht
  | var v =>
    obtain ⟨d, hd, hs⟩ := h
    simpa [Program.symbolTy?, hl.vars v d hd hs, hd] using ht
  | stringLength => exact ht
  | type _ => exact h.elim
  | classDecl _ => exact h.elim
  | enumDecl _ => exact h.elim

/-- The type of what a value stands for is recorded for good. -/
theorem Proper.type_later (h : Proper p found) (hl : Lasts p q)
    (ht : m.ty = p.symbolTy? found) (hn : m.ty ≠ none) : m.ty = q.symbolTy? found := by
  obtain ⟨u, hu⟩ := Option.ne_none_iff_exists'.1 hn
  rw [hu, h.symbolTy? hl (ht.symm.trans hu)]

theorem Reached.proper (h : Reached p n s found s')
    (ht : s'.program.symbolTy? found = some t) : Proper s'.program found := by
  cases h with
  | const run => exact run.resolved
  | other ne =>
    cases found with
    | const k => exact absurd rfl (ne k)
    | field =>
      obtain ⟨d, hd, ht⟩ := Option.bind_eq_some_iff.1 ht
      exact ⟨d, hd, by simp [ht]⟩
    | method =>
      obtain ⟨d, hd, ht⟩ := Option.bind_eq_some_iff.1 ht
      exact ⟨d, hd, by simp [ht]⟩
    | var =>
      obtain ⟨d, hd, ht⟩ := Option.bind_eq_some_iff.1 ht
      exact ⟨d, hd, by simp [ht]⟩
    | stringLength => trivial
    | type _ => simp [Program.symbolTy?] at ht
    | classDecl _ => simp [Program.symbolTy?] at ht
    | enumDecl _ => simp [Program.symbolTy?] at ht

/-- The expression is a name that stands for a value and has its type. -/
structure Bound (p : Program) (e : ExprId) (text : String) (found : Symbol) : Prop where
  node : ∃ m, p.exprs.get? e = some m ∧ m.kind = .name text (some found) ∧ m.ty ≠ none ∧
    m.ty = p.symbolTy? found
  proper : Proper p found

theorem Bound.later (h : Bound p e text found) (hl : Lasts p q) : Bound q e text found := by
  obtain ⟨m, hm, hk, hn, ht⟩ := h.node
  exact ⟨⟨m, hl.exprs e m hm hn, hk, hn, h.proper.type_later hl ht hn⟩, h.proper.later hl⟩

theorem Bound.whole (h : Bound p e text found) : Whole p e := by
  obtain ⟨m, hm, hk, ht, -⟩ := h.node
  exact .mk hm ht (by simp [hk])

/-- An expression that has been resolved as a value: it has its type with all its parts, a
literal has its own type, and a name or an access has the type of the value that it stands for. -/
structure Settled (p : Program) (e : ExprId) : Prop where
  whole : Whole p e
  literal : ∀ m v, p.exprs.get? e = some m → m.kind = .literal v → m.ty = some v.ty
  name : ∀ m text symbol, p.exprs.get? e = some m → m.kind = .name text symbol →
    ∃ found, symbol = some found ∧ Proper p found ∧ m.ty = p.symbolTy? found
  member : ∀ m left member, p.exprs.get? e = some m → m.kind = .binary .dot left (.expr member) →
    ∃ text found, Bound p member text found ∧ m.ty = p.symbolTy? found

namespace Settled

theorem later (h : Settled p e) (hl : Lasts p q) : Settled q e := by
  -- the node is the same as it was
  have hnode : ∀ {m}, q.exprs.get? e = some m → p.exprs.get? e = some m ∧ m.ty ≠ none := by
    intro m hm
    obtain ⟨hm0, ht, -⟩ := h.whole
    obtain rfl := (hl.exprs e _ hm0 ht).some_unique hm
    exact ⟨hm0, ht⟩
  refine ⟨h.whole.later hl, fun m v hm hk => h.literal m v (hnode hm).1 hk,
    fun m text symbol hm hk => ?_, fun m left member hm hk => ?_⟩
  · obtain ⟨found, hfound, hp, ht⟩ := h.name m text symbol (hnode hm).1 hk
    exact ⟨found, hfound, hp.later hl, hp.type_later hl ht (hnode hm).2⟩
  · obtain ⟨text, found, hb, ht⟩ := h.member m left member (hnode hm).1 hk
    exact ⟨text, found, hb.later hl, hb.proper.type_later hl ht (hnode hm).2⟩

theorem of_literal (h : p.TypedLiteral e) : Settled p e := by
  have hw := Whole.literal h
  obtain ⟨v, line, hv⟩ := h
  refine ⟨hw, fun m w hm hk => ?_, fun m text symbol hm hk => ?_, fun m left member hm hk => ?_⟩ <;>
    obtain rfl := hv.some_unique hm
  · obtain rfl := Expr.literal.inj hk
    rfl
  · cases hk
  · cases hk

theorem of_bound (h : Bound p e text found) : Settled p e := by
  obtain ⟨m, hm, hk, -, ht⟩ := h.node
  refine ⟨h.whole, fun m' v hm' hk' => ?_, fun m' text' symbol hm' hk' => ?_,
    fun m' left member hm' hk' => ?_⟩
  · obtain rfl := hm.some_unique hm'
    cases hk.symm.trans hk'
  · obtain rfl := hm.some_unique hm'
    obtain ⟨-, rfl⟩ := Expr.name.inj (hk.symm.trans hk')
    exact ⟨found, rfl, h.proper, ht⟩
  · obtain rfl := hm.some_unique hm'
    cases hk.symm.trans hk'

/-- An expression other than a literal, a name and an access. -/
theorem of_kind (hw : Whole p e) (hm : p.exprs.get? e = some m) (hlit : m.kind.isLiteral = false)
    (hname : ∀ text symbol, m.kind ≠ .name text symbol)
    (hdot : ∀ left member, m.kind ≠ .binary .dot left (.expr member)) : Settled p e := by
  refine ⟨hw, fun m' v hm' hk => ?_, fun m' text symbol hm' hk => ?_,
    fun m' left member hm' hk => ?_⟩
  · obtain rfl := hm.some_unique hm'
    simp [hk] at hlit
  · obtain rfl := hm.some_unique hm'
    exact absurd hk (hname text symbol)
  · obtain rfl := hm.some_unique hm'
    exact absurd hk (hdot left member)

/-- An operator whose operands have been resolved and that has been put back with them. -/
theorem ending (hend : Ending V e parts s f e' s') (hm : s.program.exprs.get? e = some m)
    (ht : m.ty = none) (hc : ∀ c ∈ m.kind.children, Whole s.program c)
    (hlit : m.kind.isLiteral = false) (hname : ∀ text symbol, m.kind ≠ .name text symbol)
    (hdot : ∀ left member, m.kind ≠ .binary .dot left (.expr member))
    (hparts : ∀ c ∈ parts, Settled s.program c) : Settled s'.program e' := by
  cases hend with
  | typed _ ty found =>
    obtain rfl := hm.some_unique found
    have hl : Lasts s.program (s.put e { m with ty := some ty }).program := .put hm ht rfl rfl
    have hself := get?_put_self (m := { m with ty := some ty }) hm
    exact of_kind (.mk hself (by simp) fun c hc' => (hc c hc').later hl) hself hlit hname hdot
  | folded line value room => exact of_literal ⟨value, line, Arena.get?_next_push room⟩
  | part e' mem => exact hparts e' mem

end Settled

/-- What a value that has been resolved stands for has its type, and the value has the same. -/
theorem Settled.proper (h : Settled p e) (hs : p.symbolOf e = .ok (some found)) :
    Proper p found ∧ (p.exprs.get? e).bind (·.ty) = p.symbolTy? found := by
  have hname : ∀ {n e text found'} {symbol : Option Symbol}, Bound p e text found' →
      p.symbolWithin n e = .ok symbol → symbol = some found' := by
    intro n e text found' symbol hb hs
    obtain ⟨m, hm, hk, -⟩ := hb.node
    cases n with
    | zero => simp [Program.symbolWithin] at hs
    | succ =>
      simp only [Program.symbolWithin, Query.bind_ok, fetch_ok] at hs
      obtain ⟨m', hm', hs⟩ := hs
      obtain rfl := hm.some_unique hm'
      simp only [hk, Query.pure_ok] at hs
      exact hs.symm
  simp only [Program.symbolOf, Program.exprDepth, Program.symbolWithin, Query.bind_ok,
    fetch_ok] at hs
  obtain ⟨m, hm, hs⟩ := hs
  split at hs
  · rename_i text symbol hk
    obtain rfl : symbol = some found := by simpa using hs
    obtain ⟨_, hsome, hproper, ht⟩ := h.name m text _ hm hk
    obtain rfl := Option.some.inj hsome
    exact ⟨hproper, by simp [hm, ht]⟩
  · rename_i left member hk
    obtain ⟨text, found', hb, ht⟩ := h.member m left member hm hk
    obtain rfl := Option.some.inj (hname hb hs)
    exact ⟨hb.proper, by simp [hm, ht]⟩
  · simp at hs

/-! ## Names and members -/

section

variable {look : Resolve.Look} {scope : ScopeId} {text : String} {member r left : ExprId}
  {mm : ExprNode}

theorem Lasts.named (hf : Fresh p) (h : Named p n s look scope e m text e' s')
    (hm : s.program.exprs.get? e = some m) (ht : m.ty = none) (hk : m.kind = .name text none) :
    Lasts s.program s'.program := by
  have hbind : ∀ found,
    Lasts s.program (s.put e { m with kind := .name text (some found) }).program :=
    fun found => .put hm ht (by simp [hk]) rfl
  cases h with
  | kept _ reached still =>
    exact ((hbind _).trans (reached.lasts hf)).trans (.put still ht rfl rfl)
  | inlined _ run => exact ((hbind _).trans (run.lasts hf)).trans .grow

/-- A name that stays is bound to what has been found. -/
theorem Named.bound (h : Named p n s look scope e m text e s')
    (hm : s.program.exprs.get? e = some m) :
    ∃ found, look s.table scope text = .ok (some found) ∧ Bound s'.program e text found := by
  cases h with
  | kept finds reached still type =>
    refine ⟨_, finds, ⟨_, get?_put_self still, rfl, by simp, type.symm⟩, ?_⟩
    cases reached with
    | const run => exact run.resolved
    | other ne => exact (Reached.other (p := p) (n := n) ne).proper type
  | @inlined _ _ _ _ _ _ still _ _ room =>
    exact absurd (lt_size_of_get? still) (by
      rw [slot_next room]
      exact Nat.lt_irrefl _)

theorem Named.settled (h : Named p n s look scope e m text e' s')
    (hm : s.program.exprs.get? e = some m) : Settled s'.program e' := by
  rcases h.ends with rfl | hl
  · obtain ⟨found, -, hb⟩ := h.bound hm
    exact .of_bound hb
  · exact .of_literal hl

theorem Lasts.accessed (h : Accessed e m member s r e' s') (ht : m.ty = none) :
    Lasts s.program s'.program := by
  cases h with
  | kept _ still => exact .put still ht rfl rfl
  | folded => exact .refl _

theorem Accessed.settled (h : Accessed e m member s r e' s') (ht : m.ty = none)
    (hk : m.kind = .binary .dot left (.expr member)) (hl : Whole s.program left)
    (hb : r = member → ∃ text found, Bound s.program member text found)
    (hr : Settled s.program r) : Settled s'.program e' := by
  cases h with
  | @kept ty value still =>
    have hlast : Lasts s.program (s.put e { m with ty := some ty }).program := .put still ht rfl rfl
    have hself := get?_put_self (m := { m with ty := some ty }) still
    obtain ⟨text, found, hb⟩ := hb rfl
    have hb' := hb.later hlast
    have hty : s.program.symbolTy? found = some ty := by
      obtain ⟨mb, hmb, -, hn, htb⟩ := hb.node
      obtain ⟨m1, hm1, rfl⟩ := Program.valueTy_ok.1 value
      obtain rfl := hmb.some_unique hm1
      obtain ⟨u, hu⟩ := Option.ne_none_iff_exists'.1 hn
      rw [← htb, hu]
      rfl
    refine ⟨.mk hself (by simp) fun c hc => ?_, fun m' v hm' hk' => ?_,
      fun m' text symbol hm' hk' => ?_, fun m' l r hm' hk' => ?_⟩
    · simp only [hk, Expr.children, Operand.exprs, List.mem_cons, List.not_mem_nil, or_false] at hc
      rcases hc with rfl | rfl
      · exact hl.later hlast
      · exact hb'.whole
    · obtain rfl := hself.some_unique hm'
      cases hk.symm.trans hk'
    · obtain rfl := hself.some_unique hm'
      cases hk.symm.trans hk'
    · obtain rfl := hself.some_unique hm'
      obtain ⟨-, -, hr⟩ := Expr.binary.inj (hk.symm.trans hk')
      obtain rfl := Operand.expr.inj hr
      exact ⟨text, found, hb', hty.symm⟩
  | folded => exact hr

theorem OfValue.settled {ty : Ty} (hf : Fresh p)
    (h : OfValue p n e m left member mm text s ty e' s')
    (hm : s.program.exprs.get? e = some m) (ht : m.ty = none)
    (hk : m.kind = .binary .dot left (.expr member)) (hl : Whole s.program left)
    (hmm : s.program.exprs.get? member = some mm) (hmt : mm.ty = none)
    (hmk : mm.kind = .name text none) : Settled s'.program e' := by
  cases h with
  | literalLength _ _ _ room => exact .of_literal ⟨_, m.line, Arena.get?_next_push room⟩
  | arrayLength _ room => exact .of_literal ⟨_, m.line, Arena.get?_next_push room⟩
  | stringLength =>
    have hne : member ≠ e := by
      rintro rfl
      obtain rfl := hm.some_unique hmm
      cases hk.symm.trans hmk
    -- the member is bound first, then the access gets its type
    set mm' : ExprNode := { mm with kind := .name text (some .stringLength), ty := some .length }
      with hmm'
    have hlast : Lasts s.program (s.put member mm').program :=
      .put hmm hmt (by simp [hmm', hmk]) rfl
    have hb : Bound (s.put member mm').program member text .stringLength :=
      ⟨⟨mm', get?_put_self hmm, rfl, by simp [hmm'], rfl⟩, trivial⟩
    have hacc : Accessed e m member (s.put member mm') member e
        ((s.put member mm').put e { m with ty := some .length }) := by
      exact .kept (Program.valueTy_ok.2 ⟨mm', get?_put_self hmm, rfl⟩)
        ((get?_put_of_ne hne).trans hm)
    exact hacc.settled ht hk (hl.later hlast) (fun _ => ⟨text, _, hb⟩) (.of_bound hb)
  | ofClass _ found named accessed =>
    refine accessed.settled ht hk (hl.later (.named hf named hmm hmt hmk)) (fun hr => ?_)
      (named.settled hmm)
    subst hr
    obtain ⟨found, -, hb⟩ := named.bound hmm
    exact ⟨text, found, hb⟩

end

/-! ## Types -/

theorem Program.work_subset (hy : y ∈ p.region x) (hw : p.waiting r ⊆ p.waiting q) :
    p.work r y ⊆ p.work q x :=
  Set.union_subset_union (Program.region_subset_of_mem hy) hw

theorem Program.Changes.put (node : p.exprs.get? e = some m) (hf : Fresh p)
    (hm : s.program.exprs.get? e = some m) (he : .expr e ∈ D)
    (ho : m'.kind.outline = m.kind.outline) (hl : m'.line = m.line) :
    s.program.Changes D (s.put e m').program :=
  .setExpr hm ⟨ho, hl, fun h => absurd he h, fun v _ hty => by simp [hf.untyped node] at hty⟩

/-- The brackets are taken off by work on the type alone. -/
theorem Spelled.changes (h : Spelled p n s e a s') (hp : p.TreeShaped)
    (hf : Fresh p) (hfit : Fit p s (.expr e)) :
    s.program.Changes (p.work s.program (.expr e)) s'.program := by
  induction h with
  | base => exact .refl _
  | pointer mark node kind _ ih =>
    refine (ih ((mark.fit hp hfit).part_expr hp node (by simp [kind]))).mono ?_
    exact Program.work_subset (mark.left_mem node kind) subset_rfl
  | @storage s s1 _ e base left length length' _ m _ mark node kind count _ _ still _ ih =>
    have hfit' := mark.fit hp hfit
    have hlen : .expr length ∈ p.region (.expr e) := Program.parts_mem_region mark.mem (by
      simp [Program.parts_expr node, kind])
    have hback : s1.program.Changes (p.work s.program (.expr e))
        (s1.put base { m with kind := .binary .index left (.expr length') }).program :=
      .put node hf still (.inl mark.mem) (by simp [kind]) rfl
    refine ((count.moves.program.mono (Program.work_subset hlen subset_rfl)).trans hback).trans
      ((ih (count.toRan.fit_left hp hfit' node kind)).mono ?_)
    refine Program.work_subset (mark.left_mem node kind) ?_
    rw [Program.waiting_put]
    exact Program.waiting_subset count.moves.program

theorem Plain.changes (h : Plain p n s e writable t s') (hf : Fresh p) (hfit : Fit p s (.expr e)) :
    s.program.Changes (p.work s.program (.expr e)) s'.program := by
  have hpart : ∀ {m : ExprNode} {c}, p.exprs.get? e = some m → c ∈ m.kind.children →
      .expr c ∈ p.region (.expr e) :=
    fun hm hc => Program.part_mem_region (Program.child_mem_parts hm hc)
  have hself : .expr e ∈ p.work s.program (.expr e) := .inl Program.mem_region_self
  cases h with
  | name node kind =>
    exact .put node hf (hfit.node node) hself (by simp [kind]) rfl
  | string node kind lnode =>
    have hl := hpart node (c := _) (by rw [kind]; exact List.mem_cons_self)
    exact .put lnode hf (hfit.same _ hl _ lnode) (.inl hl) rfl rfl
  | storage node kind lnode lkind =>
    have hl := hpart node (c := _) (by rw [kind]; exact List.mem_cons_self)
    exact .put lnode hf (hfit.same _ hl _ lnode) (.inl hl) (by simp [lkind]) rfl
  | @range _ _ left _ right _ _ _ _ _ node kind _ first second _ still =>
    have hl : .expr left ∈ p.region (.expr e) := hpart node (by simp [kind])
    have hr : .expr right ∈ p.region (.expr e) :=
      hpart node (by simp [kind])
    refine ((first.moves.program.mono (Program.work_subset hl subset_rfl)).trans
      (second.moves.program.mono (Program.work_subset hr ?_))).trans
      (.put node hf still hself (by simp [kind]) rfl)
    exact Program.waiting_subset first.moves.program
  | rangeFromZero node kind _ operand _ still =>
    have hi := hpart node (by rw [kind]; exact List.mem_cons_self)
    exact (operand.moves.program.mono (Program.work_subset hi subset_rfl)).trans
      (.put node hf still hself (by simp [kind]) rfl)

/-- An exclamation mark that has been taken off, or none. -/
inductive Marks (q : Program) (e : ExprId) : ExprId → Bool → Prop
  | bang {m : ExprNode} {inner : ExprId} (node : q.exprs.get? e = some m)
      (kind : m.kind = .after .bang inner) : Marks q e inner true
  | none {m : ExprNode} (node : q.exprs.get? e = some m)
      (kind : ∀ inner, m.kind ≠ .after .bang inner) : Marks q e e false

/-- A type expression that is taken apart without a change to the program. Every length is a
literal. -/
inductive Spells (q : Program) : ExprId → Resolve.Spelling → Prop
  | base {e base : ExprId} {writable : Bool} {m : ExprNode} (mark : Marks q e base writable)
      (node : q.exprs.get? base = some m)
      (plain : ∀ left right, m.kind ≠ .binary .index left right) :
      Spells q e ⟨base, writable, [], [e]⟩
  | pointer {e base left : ExprId} {writable : Bool} {m : ExprNode} {rest : Resolve.Spelling}
      (mark : Marks q e base writable) (node : q.exprs.get? base = some m)
      (kind : m.kind = .binary .index left .none) (spells : Spells q left rest) :
      Spells q e { rest with
        brackets := .pointer writable :: rest.brackets, nodes := e :: base :: rest.nodes }
  | storage {e base left length : ExprId} {v : Int64} {m ml : ExprNode} {rest : Resolve.Spelling}
      (mark : Marks q e base false) (node : q.exprs.get? base = some m)
      (kind : m.kind = .binary .index left (.expr length))
      (lnode : q.exprs.get? length = some ml) (lkind : ml.kind = .literal (.int v))
      (typed : ml.ty = some (Literal.int v).ty) (low : ¬ v < 0) (high : ¬ 2147483647 < v)
      (spells : Spells q left rest) :
      Spells q e { rest with
        brackets := .storage (UInt32.ofNat v.toNatClampNeg) :: rest.brackets,
        nodes := e :: base :: rest.nodes }

theorem Spells.whole (h : Spells q e a) (hb : Whole q a.base)
    (hn : ∀ x ∈ a.nodes, x ≠ a.base → ∃ m, q.exprs.get? x = some m ∧ m.ty ≠ none) : Whole q e := by
  -- a node on the way has its type, so it is enough to look at its parts
  have hnode : ∀ {x m} {base : ExprId} {nodes : List ExprId},
      (∀ x ∈ nodes, x ≠ base → ∃ m, q.exprs.get? x = some m ∧ m.ty ≠ none) → Whole q base →
      x ∈ nodes → q.exprs.get? x = some m → (∀ c ∈ m.kind.children, Whole q c) → Whole q x := by
    intro x m base nodes hn hb hx hm hc
    by_cases hxb : x = base
    · exact hxb ▸ hb
    · obtain ⟨m', hm', ht⟩ := hn x hx hxb
      obtain rfl := hm.some_unique hm'
      exact .mk hm ht hc
  have hmark : ∀ {e b base writable} {nodes : List ExprId},
      (∀ x ∈ nodes, x ≠ base → ∃ m, q.exprs.get? x = some m ∧ m.ty ≠ none) → Whole q base →
      e ∈ nodes → Marks q e b writable → Whole q b → Whole q e := by
    intro e b base writable nodes hn hb he mark hw
    cases mark with
    | bang node kind => exact hnode hn hb he node (by simpa [kind] using hw)
    | none => exact hw
  induction h with
  | base mark => exact hmark hn hb (by simp) mark hb
  | pointer mark node kind _ ih =>
    have hleft := ih hb fun x hx => hn x (by simp [hx])
    refine hmark hn hb (by simp) mark (hnode hn hb (by simp) node ?_)
    simpa [kind] using hleft
  | @storage _ _ _ length _ _ _ _ mark node kind lnode lkind typed _ _ _ ih =>
    have hleft := ih hb fun x hx => hn x (by simp [hx])
    refine hmark hn hb (by simp) mark (hnode hn hb (by simp) node ?_)
    have hlen : Whole q length := .mk lnode (by simp [typed]) (by simp [lkind])
    simpa [kind] using ⟨hleft, hlen⟩

theorem get?_typeAll :
    (s.typeAll t es).program.exprs.get? e =
      (s.program.exprs.get? e).map fun m => if e ∈ es then { m with ty := some t } else m := by
  induction es generalizing s with
  | nil => simp [State.typeAll]
  | cons x _ ih =>
    rw [State.typeAll]
    cases hx : s.program.exprs.get? x with
    | none =>
      rw [Option.elim, ih]
      by_cases hex : e = x
      · simp [hex, hx]
      · simp [hex]
    | some =>
      rw [Option.elim, ih]
      by_cases hex : e = x
      · subst hex
        rw [get?_put_self hx, hx]
        simp
      · rw [get?_put_of_ne (Ne.symm hex)]
        simp [hex]

theorem Lasts.typeAll
    (h : ∀ x ∈ es, ∀ m, s.program.exprs.get? x = some m → m.ty = none ∨ m.ty = some t) :
    Lasts s.program (s.typeAll t es).program := by
  induction es generalizing s with
  | nil => exact .refl _
  | cons x _ ih =>
    rw [State.typeAll]
    cases hx : s.program.exprs.get? x with
    | none => exact ih fun y hy => h y (by simp [hy])
    | some mx =>
      have hput : Lasts s.program (s.put x { mx with ty := some t }).program := by
        rcases h x (by simp) mx hx with ht | ht
        · exact .put hx ht rfl rfl
        · rw [← ht, put_get? hx]
          exact .refl _
      refine hput.trans (ih fun y hy m hm => ?_)
      by_cases hxy : x = y
      · subst hxy
        obtain rfl := (get?_put_self hx).some_unique hm
        exact .inr rfl
      · exact h y (by simp [hy]) m ((get?_put_of_ne hxy).symm.trans hm)

theorem RanInt.node {v : Int64} (h : RanInt p n s e e' v s') :
    ∃ m, s'.program.exprs.get? e' = some m ∧ m.kind = .literal (.int v) := by
  have hv := h.literal
  simp only [Program.literal?, Query.bind_ok, fetch_ok] at hv
  obtain ⟨m, hm, hv⟩ := hv
  refine ⟨m, hm, ?_⟩
  split at hv
  · rename_i w hw
    rw [hw]
    simpa using hv
  · simp at hv

/-- The nodes around what stands before the last brackets are left as they are while that is
taken apart. -/
theorem Spelled.around {base left : ExprId} {right : Operand}
    (h : Spelled p n s1 left a s') (hp : p.TreeShaped) (hf : Fresh p) (hfit : Fit p s (.expr e))
    (hleft : Fit p s1 (.expr left)) (hw : p.waiting s1.program ⊆ p.waiting s.program)
    (mark : Marked p s e base writable) (node : p.exprs.get? base = some m)
    (kind : m.kind = .binary .index left right) {x : ExprId} (hx : x = e ∨ x = base) :
    x ≠ a.base ∧ ∀ mx, s1.program.exprs.get? x = some mx → s'.program.exprs.get? x = some mx := by
  have hpart : .expr left ∈ p.parts (.expr base) := by
    simp [Program.parts_expr node, kind]
  have hbase : .expr base ∉ p.region (.expr left) := (mark.fit hp hfit).loose.not_mem hpart
  have hself : .expr e ∉ p.region (.expr left) := by
    cases mark with
    | bang enode ekind =>
      have hin : .expr base ∈ p.parts (.expr e) := by
        simp [Program.parts_expr enode, ekind]
      exact fun hr => hfit.loose.not_mem hin (Program.region_subset hpart hr)
    | none => exact hbase
  have hin : .expr x ∈ p.region (.expr e) ∧ .expr x ∉ p.region (.expr left) := by
    rcases hx with rfl | rfl
    · exact ⟨Program.mem_region_self, hself⟩
    · exact ⟨mark.mem, hbase⟩
  refine ⟨fun hxa => hin.2 (hxa ▸ h.base_mem), (h.changes hp hf hleft).same (x := .expr x) ?_⟩
  rintro (hr | hr)
  · exact hin.2 hr
  · exact hfit.not_waiting hin.1 (hw hr)

/-- The nodes on the way to the part before the brackets have no types yet. -/
theorem Spelled.untyped (h : Spelled p n s e a s') (hp : p.TreeShaped)
    (hf : Fresh p) (hfit : Fit p s (.expr e)) :
    ∀ x ∈ a.nodes, x ≠ a.base → ∃ m, s'.program.exprs.get? x = some m ∧ m.ty = none := by
  have hfirst : ∀ {s e m}, Fit p s (.expr e) → p.exprs.get? e = some m →
      ∃ m, s.program.exprs.get? e = some m ∧ m.ty = none := fun hfit hm =>
    ⟨_, hfit.node hm, hf.untyped hm⟩
  induction h with
  | @base _ _ _ _ _ mark =>
    intro x hx hne
    obtain rfl := List.mem_singleton.1 hx
    cases mark with
    | bang enode => exact hfirst hfit enode
    | none => exact absurd rfl hne
  | @pointer s _ _ _ left _ m _ mark node kind spelled ih =>
    have hbfit := mark.fit hp hfit
    have hleft := hbfit.part_expr hp node (by simp [kind] : left ∈ _)
    intro x hx hne
    simp only [List.mem_cons, ← or_assoc] at hx
    rcases hx with hx | hx
    · obtain ⟨mx, hmx, ht⟩ : ∃ m, s.program.exprs.get? x = some m ∧ m.ty = none := by
        rcases hx with rfl | rfl
        · cases mark with
          | bang enode => exact hfirst hfit enode
          | none => exact hfirst hbfit node
        · exact hfirst hbfit node
      exact ⟨mx, (spelled.around hp hf hfit hleft subset_rfl mark node kind hx).2 mx hmx, ht⟩
    · exact ih hleft x hx hne
  | @storage s s1 _ _ base left _ length' _ m _ mark node kind count _ _ still spelled ih =>
    have hbfit := mark.fit hp hfit
    have hleft := count.toRan.fit_left (r := { m with kind := .binary .index left (.expr length') })
      hp hbfit node kind
    have hself := get?_put_self (m := { m with kind := .binary .index left (.expr length') }) still
    have hw : p.waiting s1.program ⊆ p.waiting s.program :=
      Program.waiting_subset count.moves.program
    intro x hx hne
    simp only [List.mem_cons, ← or_assoc] at hx
    rcases hx with hx | hx
    · have hkeep := (spelled.around hp hf hfit hleft hw mark node kind hx).2
      obtain rfl : x = base := by
        rcases hx with rfl | rfl
        · cases mark
          rfl
        · rfl
      have ht := hf.untyped node
      exact ⟨_, hkeep _ hself, ht⟩
    · exact ih hleft x hx hne

/-- Taking the brackets off leaves a type that spells the same. -/
theorem Spelled.spells (h : Spelled p n s e a s') (hp : p.TreeShaped)
    (hf : Fresh p) (hfit : Fit p s (.expr e))
    (ih : ∀ {s e e' s'}, Ran p n s e e' s' → Settled s'.program e') (hl : Lasts s'.program q)
    (hn : ∀ x ∈ a.nodes, x ≠ a.base → ∀ m, s'.program.exprs.get? x = some m →
      ∃ m', q.exprs.get? x = some m' ∧ m'.kind = m.kind)
    (hb : ∃ m, q.exprs.get? a.base = some m ∧ (∀ left right, m.kind ≠ .binary .index left right) ∧
      ∀ inner, m.kind ≠ .after .bang inner) : Spells q e a := by
  induction h with
  | @base _ e base _ _ mark =>
    obtain ⟨mb, hmb, hplain, hbang⟩ := hb
    refine .base ?_ hmb hplain
    cases mark with
    | bang enode ekind =>
      have hne := hfit.ne_part enode (c := base) (by simp [ekind])
      obtain ⟨m', hm', hk⟩ := hn e (by simp) hne.symm _ (hfit.node enode)
      exact .bang hm' (hk.trans ekind)
    | none => exact .none hmb hbang
  | @pointer _ _ e base left _ _ _ mark node kind spelled ihs =>
    have hbfit := mark.fit hp hfit
    have hleft := hbfit.part_expr hp node (by simp [kind] : left ∈ _)
    have hkeep := fun {x} => spelled.around (x := x) hp hf hfit hleft subset_rfl mark node kind
    obtain ⟨m', hm', hk⟩ := hn base (by simp) (hkeep (.inr rfl)).1 _
      ((hkeep (.inr rfl)).2 _ (hbfit.same _ Program.mem_region_self _ node))
    refine .pointer ?_ hm' (hk.trans kind) (ihs hleft hl (fun x hx => hn x (by simp [hx])) hb)
    cases mark with
    | bang enode ekind =>
      obtain ⟨m1, hm1, hk1⟩ := hn e (by simp) (hkeep (.inl rfl)).1 _
        ((hkeep (.inl rfl)).2 _ (hfit.node enode))
      exact .bang hm1 (hk1.trans ekind)
    | none => exact .none hm' (by simp [hk, kind])
  | @storage s s1 _ _ base left length length' _ m rest mark node kind count low high still
      spelled ihs =>
    have hbfit := mark.fit hp hfit
    have hleft := count.toRan.fit_left (r := { m with kind := .binary .index left (.expr length') })
      hp hbfit node kind
    have hself := get?_put_self (m := { m with kind := .binary .index left (.expr length') }) still
    have hw : p.waiting s1.program ⊆ p.waiting s.program :=
      Program.waiting_subset count.moves.program
    obtain ⟨hne, hkeep⟩ := spelled.around hp hf hfit hleft hw mark node kind (.inr rfl)
    obtain ⟨m', hm', hk⟩ := hn base (by simp) hne _ (hkeep _ hself)
    -- the length has been resolved before the rest
    obtain ⟨ml, hml, hlit⟩ := count.node
    have hty := (ih count.toRan).literal ml _ hml hlit
    have hback : Lasts s1.program
        (s1.put base { m with kind := .binary .index left (.expr length') }).program :=
      .put_back hf node still (by simp [kind]) rfl
    have hlast :=
      (hback.trans (.of_changes (spelled.changes hp hf hleft) (hleft.untyped hf))).trans hl
    refine .storage ?_ hm' hk (hlast.exprs length' ml hml (by simp [hty])) hlit hty low high
      (ihs hleft hl (fun x hx => hn x (by simp [hx])) hb)
    cases mark with
    | none => exact .none hm' (by simp [hk])

/-- Work on a part leaves the node as it was. -/
theorem Fit.node_put {m0 mc : ExprNode} {c : ExprId} (h : Fit p s (.expr e))
    (node : p.exprs.get? e = some m0) (hc : c ∈ m0.kind.children)
    (still : (s.put c mc).program.exprs.get? e = some m) : m = m0 := by
  rw [get?_put_of_ne (h.ne_part node hc), h.same _ Program.mem_region_self _ node] at still
  exact (Option.some.inj still).symm

/-- What stands before the brackets is no array and has no mark. -/
theorem Plain.kind (h : Plain p n s e writable t s') :
    ∃ m, p.exprs.get? e = some m ∧ (∀ left right, m.kind ≠ .binary .index left right) ∧
      ∀ inner, m.kind ≠ .after .bang inner := by
  cases h with
  | name node kind => exact ⟨_, node, by simp [kind], by simp [kind]⟩
  | string node kind => exact ⟨_, node, by simp [kind], by simp [kind]⟩
  | storage node kind => exact ⟨_, node, by simp [kind], by simp [kind]⟩
  | range node kind => exact ⟨_, node, by simp [kind], by simp [kind]⟩
  | rangeFromZero node kind => exact ⟨_, node, by simp [kind], by simp [kind]⟩

theorem Plain.whole (h : Plain p n s e writable t s') (hf : Fresh p)
    (hfit : Fit p s (.expr e)) (ih : ∀ {s e e' s'}, Ran p n s e e' s' → Settled s'.program e')
    (still : s'.program.exprs.get? e = some m) :
    m.ty = none ∧ Whole (s'.put e { m with ty := some t }).program e := by
  -- a name before parentheses has its type
  have hname : ∀ {left : ExprId} {m0 ml ml' : ExprNode} {t : Ty}, p.exprs.get? e = some m0 →
      m0.kind = .binary .call left (.args []) → p.exprs.get? left = some ml →
      (∃ text symbol, ml'.kind = .name text symbol) → ml'.ty ≠ none →
      (s.put left ml').program.exprs.get? e = some m →
      m.ty = none ∧ Whole ((s.put left ml').put e { m with ty := some t }).program e := by
    rintro left m0 ml ml' t node kind lnode ⟨text, symbol, hk⟩ ht still
    have hpart : left ∈ m0.kind.children := by simp [kind]
    have hne := hfit.ne_part node hpart
    obtain rfl := ((get?_put_of_ne hne).trans (hfit.node node)).some_unique still
    have hl := hfit.node_child node hpart lnode
    refine ⟨hf.untyped node, .put still (hf.untyped node) rfl rfl (by simp) ?_⟩
    simp only [kind, Expr.children, Operand.exprs, List.mem_singleton, forall_eq]
    exact .mk (get?_put_self hl) ht (by simp [hk])
  cases h with
  | @name _ _ _ _ node =>
    have ht := hf.untyped node
    obtain rfl := (get?_put_self (hfit.node node)).some_unique still
    exact ⟨ht, .put still ht rfl rfl (by simp) (by simp)⟩
  | @string _ ml _ node kind lnode lkind =>
    have htyped : ({ ml with ty := some .stringStorage } : ExprNode).ty ≠ none := by simp
    exact hname node kind lnode ⟨_, _, lkind⟩ htyped still
  | storage node kind lnode => exact hname node kind lnode ⟨_, _, rfl⟩ (by simp) still
  | @range m0 rel _ left' _ right' _ _ _ s2 node kind _ first second _ still0 =>
    have ht := hf.untyped node
    have hback : Lasts s2.program (s2.put e { m0 with
        kind := .binary (.order rel) left' (.expr right') }).program :=
      .put_back hf node still0 (by simp [kind]) rfl
    obtain rfl := (get?_put_self still0).some_unique still
    refine ⟨ht, .put still ht rfl rfl (by simp) ?_⟩
    simp only [Expr.children, Operand.exprs, List.mem_cons, List.not_mem_nil, or_false,
      forall_eq_or_imp, forall_eq]
    exact ⟨(ih first.toRan).whole.later ((second.toRan.lasts hf).trans hback),
      (ih second.toRan).whole.later hback⟩
  | @rangeFromZero m0 op _ inner' _ s1 node kind _ operand _ still0 =>
    have ht := hf.untyped node
    have hback : Lasts s1.program (s1.put e { m0 with kind := .before op inner' }).program :=
      .put_back hf node still0 (by simp [kind]) rfl
    obtain rfl := (get?_put_self still0).some_unique still
    refine ⟨ht, .put still ht rfl rfl (by simp) ?_⟩
    simp only [Expr.children, List.mem_singleton, forall_eq]
    exact (ih operand.toRan).whole.later hback

/-- A type expression that has been read: it spells what has been found, and its nodes have their
types. -/
structure ReadAs (q : Program) (e : ExprId) (a : Resolve.Spelling) (t : Ty) : Prop where
  spells : Spells q e a
  base : ∃ m, q.exprs.get? a.base = some m ∧ m.ty = some t
  nodes : ∀ x ∈ a.nodes, x ≠ a.base → ∃ m, q.exprs.get? x = some m ∧
    m.ty = some (a.brackets.foldl Resolve.Brackets.array t)

/-- What has been read is read the same later. -/
theorem ReadAs.later {r : Program} (h : ReadAs q e a t) (hl : Lasts q r) : ReadAs r e a t := by
  obtain ⟨mb, hmb, htb⟩ := h.base
  -- all nodes of the type have types
  have htyped : ∀ x ∈ a.base :: a.nodes, ∃ m, q.exprs.get? x = some m ∧ m.ty ≠ none := by
    intro x hx
    by_cases hxb : x = a.base
    · exact ⟨mb, hxb ▸ hmb, by simp [htb]⟩
    · obtain ⟨m, hm, ht⟩ := h.nodes x (by simpa [hxb] using hx) hxb
      exact ⟨m, hm, by simp [ht]⟩
  have hnode : ∀ {x m} {l : List ExprId}, (∀ x ∈ l, ∃ m, q.exprs.get? x = some m ∧ m.ty ≠ none) →
      x ∈ l → q.exprs.get? x = some m → r.exprs.get? x = some m := by
    intro x m l hn hx hm
    obtain ⟨m', hm', ht⟩ := hn x hx
    obtain rfl := hm.some_unique hm'
    exact hl.exprs x m hm ht
  have hmark : ∀ {e base writable} {l : List ExprId},
      (∀ x ∈ l, ∃ m, q.exprs.get? x = some m ∧ m.ty ≠ none) → e ∈ l → Marks q e base writable →
      Marks r e base writable := by
    intro e base writable l hn he mark
    cases mark with
    | bang node kind => exact .bang (hnode hn he node) kind
    | none node kind => exact .none (hnode hn he node) kind
  have hspells := h.spells
  refine ⟨?_, ⟨mb, hl.exprs a.base mb hmb (by simp [htb]), htb⟩, fun x hx hne => ?_⟩
  · clear h hmb htb
    induction hspells with
    | base mark node plain =>
      exact .base (hmark htyped (by simp) mark) (hnode htyped (by simp) node) plain
    | pointer mark node kind _ ih =>
      exact .pointer (hmark htyped (by simp) mark) (hnode htyped (by simp) node) kind
        (ih fun x hx => htyped x (by simp at hx ⊢; tauto))
    | @storage _ _ _ length _ _ ml _ mark node kind lnode lkind typed low high _ ih =>
      exact .storage (hmark htyped (by simp) mark) (hnode htyped (by simp) node) kind
        (hl.exprs length ml lnode (by simp [typed])) lkind typed low high
        (ih fun x hx => htyped x (by simp at hx ⊢; tauto))
  · obtain ⟨m, hm, ht⟩ := h.nodes x hx hne
    exact ⟨m, hl.exprs x m hm (by simp [ht]), ht⟩

/-- The nodes on the way are left alone while what stands before the brackets is read. -/
theorem Spelled.kept (h : Spelled p n s e a s1)
    (hp : p.TreeShaped) (hf : Fresh p) (hfit : Fit p s (.expr e))
    (plain : Plain p n s1 a.base writable t s2) {x : ExprId} (hx : x ∈ a.nodes) (hne : x ≠ a.base)
    {mx : ExprNode} (hmx : s1.program.exprs.get? x = some mx) :
    (s2.put a.base m).program.exprs.get? x = some mx := by
  obtain ⟨-, hin, hout⟩ := h.nodes hp hfit.loose x hx hne
  refine (get?_put_of_ne hne.symm).trans
    ((plain.changes hf (h.fit hp hfit)).same (x := .expr x) ?_ mx hmx)
  rintro (hr | hr)
  · exact hout hr
  · exact hfit.not_waiting hin (h.waiting_subset hr)

theorem Spelled.readAs (h : Spelled p n s e a s1) (hp : p.TreeShaped)
    (hf : Fresh p) (hfit : Fit p s (.expr e))
    (ih : ∀ {s e e' s'}, Ran p n s e e' s' → Settled s'.program e')
    (plain : Plain p n s1 a.base a.writable t s2)
    (still : s2.program.exprs.get? a.base = some m)
    (hs' : s' = (s2.put a.base { m with ty := some t }).typeAll
      (a.brackets.foldl Resolve.Brackets.array t) (a.nodes.filter (· != a.base))) :
    ReadAs s'.program e a t ∧ Lasts s2.program s'.program ∧ Whole s'.program e := by
  have hbfit := h.fit hp hfit
  obtain ⟨hm, hbase⟩ := plain.whole hf hbfit ih still
  have hall : Lasts (s2.put a.base { m with ty := some t }).program s'.program := by
    rw [hs']
    refine .typeAll fun x hx mx hmx => ?_
    simp only [List.mem_filter, bne_iff_ne] at hx
    obtain ⟨m1, hm1, ht⟩ := h.untyped hp hf hfit x hx.1 hx.2
    obtain rfl := (h.kept hp hf hfit plain hx.1 hx.2 hm1).some_unique hmx
    exact .inl ht
  have hput : Lasts s2.program (s2.put a.base { m with ty := some t }).program :=
    .put still hm rfl rfl
  have hlast := hput.trans hall
  have hnode : ∀ x ∈ a.nodes, x ≠ a.base → ∀ mx, s1.program.exprs.get? x = some mx →
      s'.program.exprs.get? x =
        some { mx with ty := some (a.brackets.foldl Resolve.Brackets.array t) } := by
    intro x hx hne mx hmx
    rw [hs', get?_typeAll, h.kept hp hf hfit plain hx hne hmx]
    simp [hx, hne]
  have hself : s'.program.exprs.get? a.base = some { m with ty := some t } := by
    rw [hs', get?_typeAll, get?_put_self still]
    simp
  have hread : ReadAs s'.program e a t := by
    refine ⟨h.spells hp hf hfit ih ?_ (fun x hx hne mx hmx => ⟨_, hnode x hx hne mx hmx, rfl⟩) ?_,
      ⟨_, hself, rfl⟩, fun x hx hne => ?_⟩
    · exact (Lasts.of_changes (plain.changes hf hbfit) (hbfit.untyped hf)).trans hlast
    · -- what has been read as a plain type still has the form of one
      obtain ⟨m0, hm0, hplain, hbang⟩ := plain.kind
      obtain ⟨m', hm', hstep⟩ := (plain.changes hf hbfit).exprs.part a.base m0
        (hbfit.same _ Program.mem_region_self _ hm0)
      obtain rfl := still.some_unique hm'
      have ho := hstep.outline
      refine ⟨_, hself, fun left right hk => ?_, fun inner hk => ?_⟩
      · dsimp only at hk
        rw [hk] at ho
        cases hk0 : m0.kind <;> simp_all
      · dsimp only at hk
        rw [hk] at ho
        cases hk0 : m0.kind <;> simp_all
    · obtain ⟨mx, hmx, -⟩ := h.untyped hp hf hfit x hx hne
      exact ⟨_, hnode x hx hne mx hmx, rfl⟩
  refine ⟨hread, hlast, hread.spells.whole (hbase.later hall) fun x hx hne => ?_⟩
  obtain ⟨mx, hmx, ht⟩ := hread.nodes x hx hne
  exact ⟨mx, hmx, by simp [ht]⟩

theorem StepType.whole (h : StepType p n s e t s') (hp : p.TreeShaped) (hf : Fresh p)
    (hfit : Fit p s (.expr e)) (ih : ∀ {s e e' s'}, Ran p n s e e' s' → Settled s'.program e') :
    Whole s'.program e := by
  obtain ⟨spelled, plain, mark, still⟩ := h
  exact (spelled.readAs hp hf hfit ih plain still rfl).2.2

/-! ## All expressions -/

theorem RanList.settled {xs : List ι} (hf : Fresh p)
    (ih : ∀ {s e e' s'}, Ran p (depth s) s e e' s' → Settled s'.program e')
    (h : RanList p depth exprOf C s xs es s') : ∀ e ∈ es, Settled s'.program e := by
  induction h with
  | nil => simp
  | cons first _ rest ihr =>
    intro e he
    rcases List.mem_cons.1 he with rfl | he
    · exact (ih first).later (rest.lasts hf)
    · exact ihr e he

namespace Step

variable (hf : Fresh p) (hfit : Fit p s (.expr e))
  (ih : ∀ {s e e' s'}, Ran p n s e e' s' → Settled s'.program e')

include hf

/-- An expression of another form than a name or an access that gets its type. -/
theorem settled_put (node : p.exprs.get? e = some m) (still : s.program.exprs.get? e = some m)
    (ho : m'.kind.outline = m.kind.outline) (hl : m'.line = m.line) (ht : m'.ty ≠ none)
    (hlit : m'.kind.isLiteral = false) (hname : ∀ text symbol, m'.kind ≠ .name text symbol)
    (hdot : ∀ left member, m'.kind ≠ .binary .dot left (.expr member))
    (hc : ∀ c ∈ m'.kind.children, Whole s.program c) : Settled (s.put e m').program e :=
  .of_kind (.put still (hf.untyped node) ho hl ht hc) (get?_put_self still) hlit hname hdot

/-- An operator that is put back with its operands and then ends. -/
theorem settled_ending (node : p.exprs.get? e = some m) (still : s.program.exprs.get? e = some m)
    (hend : Ending V e parts (s.put e m') f e' s')
    (ho : m'.kind.outline = m.kind.outline) (hl : m'.line = m.line) (ht : m'.ty = m.ty)
    (hlit : m'.kind.isLiteral = false) (hname : ∀ text symbol, m'.kind ≠ .name text symbol)
    (hdot : ∀ left member, m'.kind ≠ .binary .dot left (.expr member))
    (hc : ∀ c ∈ m'.kind.children, Settled s.program c)
    (hparts : ∀ c ∈ parts, c ∈ m'.kind.children) : Settled s'.program e' := by
  have hback : Lasts s.program (s.put e m').program := .put_back hf node still ho hl
  refine .ending hend (get?_put_self still) (ht.trans (hf.untyped node))
    (fun c hc' => ((hc c hc').later hback).whole) hlit hname hdot fun c hc' => ?_
  exact (hc c (hparts c hc')).later hback

include ih hfit

theorem settled (h : Step p n s e e' s') (hp : p.TreeShaped)
    (iht : ∀ {s e t s'}, RanType p n s e t s' → Whole s'.program e) : Settled s'.program e' := by
  cases h with
  | @literal m v node kind =>
    refine .of_literal ⟨v, m.line, ?_⟩
    rw [← kind]
    exact get?_put_self node
  | name node _ named => exact named.settled (hfit.node node)
  | before node kind operand still ends =>
    refine settled_ending hf node still (Resolve.settles_beforeEnd _ _ ends)
      (by simp [kind]) rfl rfl rfl (by simp) (by simp) ?_ (by simp)
    simpa using ih operand
  | @newArray _ mi inner left _ length' t _ _ s2 node kind inode ikind element count still istill =>
    have hne : inner ≠ e := hfit.ne_part node (by simp [kind])
    set mi' : ExprNode :=
      ⟨.binary .index left (.expr length'), mi.line, some (.arrayPointer t true)⟩ with hmi'
    have hinner : Whole (s2.put inner mi').program inner := by
      refine .put istill (hf.untyped inode) (by simp [hmi', ikind]) rfl
        (by simp [hmi']) ?_
      simp only [hmi', Expr.children, Operand.exprs, List.mem_cons, List.not_mem_nil, or_false,
        forall_eq_or_imp, forall_eq]
      exact ⟨(iht element).later (count.lasts hf), (ih count).whole⟩
    refine settled_put hf node ((get?_put_of_ne hne).trans still) rfl rfl (by simp)
      (by simp [kind]) (by simp [kind]) (by simp [kind]) ?_
    simpa [kind] using hinner
  | newObject node kind _ _ object still =>
    refine settled_put hf node still rfl rfl (by simp) (by simp [kind])
      (by simp [kind]) (by simp [kind]) ?_
    simpa [kind] using iht object
  | after node kind _ operand still ends =>
    refine settled_ending hf node still (Resolve.settles_afterEnd _ _ ends)
      (by simp [kind]) rfl rfl rfl (by simp) (by simp) ?_ (by simp)
    simpa using ih operand
  | @ownerMember _ mm ml left member _ _ text owner found _ ty _ _ node kind mnode mkind lnode _
      _ _ named accessed =>
    have hl := hfit.node_child node (by simp [kind]) lnode
    have hm := hfit.node_child node (by simp [kind]) mnode
    have hne : left ≠ member := by
      have := hp.children_nodup node
      simpa [kind] using this
    have hm' : (s.put left { ml with
        kind := .name owner (some found), ty := some ty }).program.exprs.get? member = some mm :=
      (get?_put_of_ne hne).trans hm
    have hlast := Lasts.named hf named hm' (hf.untyped mnode) mkind
    have hleft : Whole
      (s.put left { ml with kind := .name owner (some found), ty := some ty }).program
        left := .mk (get?_put_self hl) (by simp) (by simp)
    refine accessed.settled (hf.untyped node) kind (hleft.later hlast) (fun hr => ?_)
      (named.settled hm')
    subst hr
    obtain ⟨found, -, hb⟩ := named.bound hm'
    exact ⟨text, found, hb⟩
  | @valueMember m _ _ left' member _ _ _ s1 _ node kind mnode mkind value still mstill _ ofValue =>
    have hne : e ≠ member :=
      (hfit.ne_part node (by simp [kind])).symm
    have hback : Lasts s1.program
        (s1.put e { m with kind := .binary .dot left' (.expr member) }).program :=
      .put_back hf node still (by simp [kind]) rfl
    have ht := hf.untyped node
    exact ofValue.settled hf (get?_put_self still) ht rfl ((ih value).whole.later hback)
      ((get?_put_of_ne hne).trans mstill) (hf.untyped mnode) mkind
  | @call _ _ _ args args' _ _ _ _ node kind function _ _ count arguments still =>
    have hlen : args'.length = args.length := by
      rw [arguments.length, List.length_zip, count, Nat.min_self]
    refine settled_put hf node still ?_ rfl (by simp) rfl (by simp) (by simp) ?_
    · simp [kind, List.map_const', hlen]
    · simp only [Expr.children, Operand.exprs, List.mem_cons]
      rintro c (rfl | hc)
      · exact (ih function).whole.later (arguments.lasts hf)
      · exact (arguments.settled hf ih c hc).whole
  | binary node kind notDot _ first second still ends =>
    refine settled_ending hf node still (Settles.operation _ _ ends)
      (by simp [kind]) rfl rfl rfl (by simp) (by simp [notDot]) ?_
      (by simp)
    simpa using ⟨(ih first).later (second.lasts hf), ih second⟩
  | conditional node kind condition _ first second still ends =>
    refine settled_ending hf node still (Settles.choice _ _ ends)
      (by simp [kind]) rfl rfl rfl (by simp) (by simp) ?_ (by simp)
    simpa using ⟨(ih condition).later ((first.lasts hf).trans (second.lasts hf)),
      (ih first).later (second.lasts hf), ih second⟩
  | @collection _ _ _ _ _ _ _ node kind list _ _ _ still =>
    refine settled_put hf node still ?_ rfl (by simp) rfl (by simp) (by simp) ?_
    · simp only [kind, Expr.outline, List.map_const', list.length]
    · exact fun c hc => (list.settled hf ih c hc).whole
  | @var _ _ _ _ _ _ _ _ node kind _ _ _ still =>
    exact settled_put hf node still rfl rfl (by simp) (by simp [kind]) (by simp [kind])
      (by simp [kind]) (by simp [kind])

end Step

section

variable (hp : p.TreeShaped) (hf : Fresh p)

include hp hf

theorem each_settled (n : Nat) :
    Each p (fun _ _ _ e' s' => Settled s'.program e') (fun _ _ e _ s' => Whole s'.program e)
      (fun _ _ _ _ => True) n :=
  .all hp hf (fun _ ih _ _ _ _ hfit step => step.settled hf hfit ih.expr hp ih.type)
    (fun _ ih _ _ _ _ hfit step => step.whole hp hf hfit ih.expr) (fun _ _ _ _ _ _ _ => trivial) n

/-- An expression that has been resolved has its type, with all its parts. -/
theorem Ran.settled (h : Ran p n s e e' s') : Settled s'.program e' := (each_settled hp hf n).expr h

end

end Ci
