-- The rules for expressions taken apart. Where the rules that are called do their
-- work, so does the rule itself, step by step.
import Ci.Proofs.Work.Steps

namespace Ci

open Pass Arena

variable {p : Program} {n : Nat} {s s1 s' : State} {e e' l : ExprId} {m : ExprNode} {k : ConstId}
  {look : Resolve.Look} {scope : ScopeId} {text : String} {member c inner : ExprId} {mm : ExprNode}
  {right : Operand}

/-- The rules that are called do their work. -/
structure Works (p : Program) (n : Nat) : Prop where
  expr : ∀ {s e e' s'}, Fit p s (.expr e) → (Resolve.callsWithin n).expr e s = .ok e' s' →
    Ran p n s e e' s'
  type : ∀ {s e t s'}, Fit p s (.expr e) → (Resolve.callsWithin n).type e s = .ok t s' →
    RanType p n s e t s'
  const : ∀ {s k s'}, Ready p s → Known (p.waiting s.program) s.program k →
    (Resolve.callsWithin n).const k s = .ok () s' → RanConst p n s k s'

/-! ## Names -/

/-- A constant that is named in an enumeration stays, and so does one without a literal. -/
theorem Resolve.inlined?_eq_ok {d : Const} {v : Option Literal} :
    Resolve.inlined? scope d s = .ok v s ↔ ∃ c, s.table.scopes[scope.slot]? = some c ∧
      (v = none ∧ (c.kind.isEnum = true ∨ d.value = none) ∨
        c.kind.isEnum = false ∧ ∃ x, d.value = some x ∧ s.program.literal? x = .ok v) := by
  simp only [Resolve.inlined?, bind_eq_ok, askTable_eq_ok, ScopeTable.fetch_ok]
  refine exists_congr fun c => ?_
  cases c.kind.isEnum <;> cases d.value <;> simp

theorem Ready.known (h : Ready p s) {i : Nat} {c : Scope} {name : String}
    (hc : s.table.scopes[i]? = some c) (hb : (name, .const k) ∈ c.bindings) :
    Known (p.waiting s.program) s.program k := by
  obtain ⟨d, hd, hk⟩ := h.bound i c name k hc hb
  by_cases hs : d.status = .unvisited
  · exact .inl ⟨k, d, hk.resolve_right fun hne => hne hs, hd, hs, Program.mem_region_self⟩
  · exact .inr ⟨d, hd, hs⟩

theorem Resolve.declared_eq_ok {t : Option Ty} :
    Resolve.declared e t s = .ok e' s' ↔ e' = e ∧ ∃ ty, t = some ty ∧
      ∃ n, s.program.exprs.get? e = some n ∧ s' = s.put e { n with ty := some ty } := by
  unfold Resolve.declared
  cases t with
  | none => simp
  | some => simp

theorem Resolve.bindName_eq_ok {name : String}
    {symbol : Symbol} (hm : s.program.exprs.get? e = some m) (hk : m.kind = .name text none)
    (h : Resolve.bindName look scope e s = .ok (name, symbol) s') :
    name = text ∧ look s.table scope text = .ok (some symbol) ∧
      s' = s.put e { m with kind := .name text (some symbol) } := by
  simp only [Resolve.bindName, bind_eq_ok, node_eq_ok] at h
  obtain ⟨m1, _, ⟨hm1, rfl⟩, h⟩ := h
  obtain rfl := hm.some_unique hm1
  simp only [hk, bind_eq_ok, askTable_eq_ok] at h
  obtain ⟨found, _, ⟨hfound, rfl⟩, h⟩ := h
  cases found with
  | none => simp at h
  | some =>
    simp only [bind_eq_ok, replace_eq_ok, pure_eq_ok, Prod.mk.injEq] at h
    obtain ⟨_, _, ⟨m2, hm2, rfl⟩, ⟨rfl, rfl⟩, rfl⟩ := h
    obtain rfl := hm.some_unique hm2
    exact ⟨rfl, hfound, rfl⟩

theorem Works.named (hw : Works p n)
    (hr : Ready p s) (he : Free p s e) (hm : s.program.exprs.get? e = some m)
    (hk : m.kind = .name text none) (hlook : Finds look)
    (run : Resolve.resolveName (Resolve.callsWithin n) look scope e s = .ok e' s') :
    Named p n s look scope e m text e' s' := by
  simp only [Resolve.resolveName, bind_eq_ok] at run
  obtain ⟨⟨name, found⟩, s1, hbind, run⟩ := run
  obtain ⟨rfl, hfinds, rfl⟩ := Resolve.bindName_eq_ok hm hk hbind
  have hnode := get?_put_self (m := { m with kind := .name name (some found) }) hm
  -- what is no constant gives its type
  have hother : ∀ {t : Option Ty}, (∀ k, found ≠ .const k) → s.program.symbolTy? found = t →
      Resolve.declared e t (s.put e { m with kind := .name name (some found) }) = .ok e' s' →
      Named p n s look scope e m name e' s' := by
    intro t hne ht h
    obtain ⟨he', ty, rfl, m1, hm1, rfl⟩ := Resolve.declared_eq_ok.1 h
    obtain rfl := hnode.some_unique hm1
    rw [he', put_put]
    have hkept := Named.kept hfinds (.other (n := n) (p := p) hne) hnode ht
      fun k d hk => absurd hk (hne k)
    rwa [put_put] at hkept
  cases found with
  | const =>
    simp only [bind_eq_ok, ask_eq_ok, fetch_ok] at run
    obtain ⟨_, s1, hconst, d, _, ⟨hd, rfl⟩, v, s2, hv, run⟩ := run
    obtain rfl := Silent.inlined?.of_ok hv
    obtain ⟨j, c, hc, hb⟩ := hlook _ _ _ _ hfinds
    have hran := hw.const (hr.put he) ((hr.put he).known hc hb) hconst
    have hstill := he.put.still hnode hran.moves
    cases v with
    | none =>
      obtain ⟨he', ty, hty, m1, hm1, rfl⟩ := Resolve.declared_eq_ok.1 run
      obtain rfl := hstill.some_unique hm1
      rw [he']
      refine .kept hfinds (.const hran) hstill (by simp [Program.symbolTy?, hd, hty]) ?_
      rintro k' d' ⟨⟩ hd'
      obtain rfl := hd.some_unique hd'
      exact hv
    | some =>
      obtain ⟨room, rfl, m1, hm1, rfl⟩ := fold_eq_ok.1 run
      obtain rfl := hstill.some_unique hm1
      exact .inlined hfinds hran hstill hd hv room
  | field f =>
    simp only [bind_eq_ok, ask_eq_ok, fetch_ok] at run
    obtain ⟨d, _, ⟨hd, rfl⟩, run⟩ := run
    exact hother (by simp)
      (by rw [Program.symbolTy?, show s.program.fields.get? f = some d from hd]; rfl) run
  | method f =>
    simp only [bind_eq_ok, ask_eq_ok, fetch_ok] at run
    obtain ⟨d, _, ⟨hd, rfl⟩, run⟩ := run
    exact hother (by simp)
      (by rw [Program.symbolTy?, show s.program.methods.get? f = some d from hd]; rfl) run
  | var v =>
    simp only [bind_eq_ok, ask_eq_ok, fetch_ok] at run
    obtain ⟨d, _, ⟨hd, rfl⟩, run⟩ := run
    exact hother (by simp)
      (by rw [Program.symbolTy?, show s.program.vars.get? v = some d from hd]; rfl) run
  | stringLength => exact hother (by simp) rfl run
  | type _ => simp at run
  | classDecl _ => simp at run
  | enumDecl _ => simp at run

/-! ## Members -/

/-- The expression before a dot names a class or an enumeration, or it does not. -/
theorem Resolve.ownerScope_eq_ok (hf : Fresh p) (hfit : Fit p s (.expr l))
    {scope : Option ScopeId} (h : Resolve.ownerScope l s = .ok scope s') :
    (scope = none ∧ s' = s) ∨ ∃ ml owner found i ty, scope = some i ∧
      p.exprs.get? l = some ml ∧ ml.kind = .name owner none ∧
      s.table.lookup s.table.current owner = .ok (some found) ∧ OwnerAt s found i ty ∧
      s' = s.put l { ml with kind := .name owner (some found), ty := some ty } := by
  simp only [Resolve.ownerScope, bind_eq_ok, node_eq_ok] at h
  obtain ⟨ml, _, ⟨hml, rfl⟩, h⟩ := h
  cases hk : ml.kind with
  | name owner known =>
    have hpl : p.exprs.get? l = some ml := by
      rcases hfit.expr_cases hml with hpl | ⟨v, line, hv⟩
      · exact hpl
      · obtain rfl := hv.some_unique hml
        cases hk
    obtain rfl := hf.name hpl hk
    simp only [hk, bind_eq_ok, Resolve.standsFor, lookup_eq_ok] at h
    obtain ⟨found, _, ⟨hfound, rfl⟩, h⟩ := h
    split at h
    · rename_i c
      simp only [bind_eq_ok, classScope_eq_ok, Resolve.bindOwner, replace_eq_ok, record_eq_ok,
        pure_eq_ok] at h
      obtain ⟨i, _, ⟨hi, rfl⟩, _, _, ⟨_, _, ⟨m1, hm1, rfl⟩, m2, hm2, rfl⟩, rfl, rfl⟩ := h
      obtain rfl := hml.some_unique hm1
      obtain rfl := (get?_put_self hml).some_unique hm2
      rw [put_put]
      exact .inr ⟨ml, owner, _, i, _, rfl, hpl, hk, hfound, .classDecl hi, rfl⟩
    · rename_i d
      simp only [bind_eq_ok, enumScope_eq_ok, Resolve.bindOwner, replace_eq_ok, record_eq_ok,
        pure_eq_ok] at h
      obtain ⟨i, _, ⟨hi, rfl⟩, _, _, ⟨_, _, ⟨m1, hm1, rfl⟩, m2, hm2, rfl⟩, rfl, rfl⟩ := h
      obtain rfl := hml.some_unique hm1
      obtain rfl := (get?_put_self hml).some_unique hm2
      rw [put_put]
      exact .inr ⟨ml, owner, _, i, _, rfl, hpl, hk, hfound, .enumDecl hi, rfl⟩
    · exact .inl (pure_eq_ok.1 h)
  | _ =>
    simp only [hk, pure_eq_ok] at h
    exact .inl h

theorem Works.memberFrom (hw : Works p n) (hr : Ready p s) (hfree : Free p s member)
    (hmm : s.program.exprs.get? member = some mm) (hk : mm.kind = .name text none)
    (hstill : ∀ {r s1}, Named p n s ScopeTable.lookupMember scope member mm text r s1 →
      s1.program.exprs.get? e = some m)
    (run : Resolve.memberFrom (Resolve.callsWithin n) scope e member s = .ok e' s') :
    ∃ r s1, Named p n s ScopeTable.lookupMember scope member mm text r s1 ∧
      Accessed e m member s1 r e' s' := by
  simp only [Resolve.memberFrom, bind_eq_ok] at run
  obtain ⟨r, s1, hname, run⟩ := run
  have hnamed := hw.named hr hfree hmm hk finds_lookupMember hname
  refine ⟨r, s1, hnamed, ?_⟩
  split at run
  · rename_i hrm
    simp only [bind_eq_ok, valueTy_eq_ok, typed_eq_ok] at run
    obtain ⟨ty, _, ⟨hty, rfl⟩, he', m1, hm1, rfl⟩ := run
    obtain rfl := (hstill hnamed).some_unique hm1
    rw [hrm, he']
    exact .kept hty (hstill hnamed)
  · rename_i hrm
    obtain ⟨rfl, rfl⟩ := pure_eq_ok.1 run
    exact .folded hrm

/-- A name leaves all other expressions that are free as they are. -/
theorem Named.still {r : ExprId} (h : Named p n s look scope member mm text r s1) (hl : Free p s l)
    (hne : member ≠ l) (hm : s.program.exprs.get? l = some m) :
    s1.program.exprs.get? l = some m := by
  have hput : ∀ {m' : ExprNode}, (s.put member m').program.exprs.get? l = some m :=
    (get?_put_of_ne hne).trans hm
  cases h with
  | kept _ reached =>
    refine (get?_put_of_ne hne).trans ?_
    cases reached with
    | const run => exact hl.put.still hput run.moves
    | other => exact hput
  | inlined _ run =>
    exact Arena.get?_push_of_some (hl.put.still hput run.moves)

theorem Works.ofClass {left : ExprId} {ty : Ty}
    (hw : Works p n) (hr : Ready p s) (hfree : Free p s e) (hmfree : Free p s member)
    (hne : member ≠ e) (hm : s.program.exprs.get? e = some m)
    (hmm : s.program.exprs.get? member = some mm) (hk : mm.kind = .name text none)
    (run : Resolve.memberOfClass (Resolve.callsWithin n) e member text ty s = .ok e' s') :
    OfValue p n e m left member mm text s ty e' s' := by
  unfold Resolve.memberOfClass at run
  cases hc : ty.memberClass with
  | none => simp [hc] at run
  | some =>
    simp only [hc, bind_eq_ok, classScope_eq_ok] at run
    obtain ⟨scope, _, ⟨hscope, rfl⟩, run⟩ := run
    obtain ⟨r, s1, hnamed, haccessed⟩ := hw.memberFrom hr hmfree hmm hk
      (fun hnamed => hnamed.still hfree hne hm) run
    exact .ofClass hc hscope hnamed haccessed

theorem Works.ofValue {left : ExprId} {ty : Ty}
    (hw : Works p n) (hr : Ready p s) (hfree : Free p s e) (hmfree : Free p s member)
    (hne : member ≠ e) (hm : s.program.exprs.get? e = some m)
    (hmm : s.program.exprs.get? member = some mm) (hk : mm.kind = .name text none)
    (run : (if text = "Length" ∧ ty.isString then Resolve.stringLength e left member text
      else match ty with
        | .arrayStorage _ length =>
          if text = "Length" then fold e (.int (Int64.ofNat length.toNat))
          else Resolve.memberOfClass (Resolve.callsWithin n) e member text ty
        | _ => Resolve.memberOfClass (Resolve.callsWithin n) e member text ty) s = .ok e' s') :
    OfValue p n e m left member mm text s ty e' s' := by
  have hclass : Resolve.memberOfClass (Resolve.callsWithin n) e member text ty s = .ok e' s' →
      OfValue p n e m left member mm text s ty e' s' := hw.ofClass hr hfree hmfree hne hm hmm hk
  split at run
  · rename_i hlen
    simp only [Resolve.stringLength, bind_eq_ok, literal?_eq_ok] at run
    obtain ⟨v, _, ⟨hv, rfl⟩, run⟩ := run
    split at run
    · obtain ⟨room, rfl, m1, hm1, rfl⟩ := fold_eq_ok.1 run
      obtain rfl := hm.some_unique hm1
      exact .literalLength hlen.1 hlen.2 hv room
    · rename_i hother
      simp only [bind_eq_ok, replace_eq_ok, record_eq_ok, typed_eq_ok] at run
      obtain ⟨_, _, ⟨m1, hm1, rfl⟩, _, _, ⟨m2, hm2, rfl⟩, rfl, m3, hm3, rfl⟩ := run
      obtain rfl := hmm.some_unique hm1
      obtain rfl := (get?_put_self hmm).some_unique hm2
      rw [put_put] at hm3 ⊢
      obtain rfl := ((get?_put_of_ne hne).trans hm).some_unique hm3
      exact .stringLength hlen.1 hlen.2 hv fun value hvalue => hother value hvalue
  · split at run
    · split at run
      · obtain ⟨room, rfl, m1, hm1, rfl⟩ := fold_eq_ok.1 run
        obtain rfl := hm.some_unique hm1
        exact .arrayLength (by assumption) room
      · exact hclass run
    · exact hclass run

/-! ## Parts of an expression -/

theorem Fit.part_expr (hp : p.TreeShaped) (h : Fit p s (.expr e)) (hm : p.exprs.get? e = some m)
    (hc : c ∈ m.kind.children) : Fit p s (.expr c) :=
  h.part hp (Program.child_mem_parts hm hc)

/-- The parts of an expression, one after the other, are different expressions. -/
theorem Program.TreeShaped.children_nodup (hp : p.TreeShaped) (hm : p.exprs.get? e = some m) :
    m.kind.children.Nodup := by
  have := hp.parts_nodup (.expr e)
  rw [Program.parts_expr hm] at this
  cases hk : m.kind <;> simp only [hk, Expr.parts, Expr.children] at this ⊢
  all_goals first | exact this.of_map _ | exact List.nodup_nil

/-- Work on one part of an expression leaves another part as it is. -/
theorem Fit.next_part (hp : p.TreeShaped) (h : Fit p s (.expr e)) (hm : p.exprs.get? e = some m)
    {c' : ExprId} (hc : c ∈ m.kind.children) (hc' : c' ∈ m.kind.children) (hne : c ≠ c')
    (hmoves : Moves (p.work s.program (.expr c)) s s') (hr : Ready p s') : Fit p s' (.expr c') :=
  h.sibling hp (Program.child_mem_parts hm hc) (Program.child_mem_parts hm hc') (by simpa using hne)
    hmoves hr

theorem Fit.still_part (h : Fit p s (.expr e)) (hm : p.exprs.get? e = some m)
    (hc : c ∈ m.kind.children) (hmoves : Moves (p.work s.program (.expr c)) s s') :
    s'.program.exprs.get? e = some m :=
  h.same_self (Program.child_mem_parts hm hc) hmoves m hm

/-- A node does not belong to what changes when a pass works on something inside it. -/
theorem Fit.not_work_inside {x y z : Node} (h : Fit p s x) (hy : y ∈ p.parts x)
    (hz : z ∈ p.region y) {D : Set Node} (hchange : s.program.Changes D s1.program) :
    x ∉ p.work s1.program z := by
  rintro (hin | hin)
  · exact h.loose.not_mem hy (Program.region_subset_of_mem hz hin)
  · exact h.not_waiting Program.mem_region_self (Program.waiting_subset hchange hin)

section

variable (h : Fit p s (.expr e)) (hm : p.exprs.get? e = some m)

include h hm

theorem Fit.not_work
    (hc : c ∈ m.kind.children) {D : Set Node} (hchange : s.program.Changes D s1.program) :
    .expr e ∉ p.work s1.program (.expr c) :=
  h.not_work_inside (Program.child_mem_parts hm hc) Program.mem_region_self hchange

/-- What has not been visited is as it was at the start. -/
theorem Fit.node : s.program.exprs.get? e = some m := h.same _ Program.mem_region_self _ hm

theorem Fit.node_child {mc : ExprNode} (hc : c ∈ m.kind.children) (hmc : p.exprs.get? c = some mc) :
    s.program.exprs.get? c = some mc :=
  h.same (.expr c) (Program.part_mem_region (Program.child_mem_parts hm hc)) _ hmc

/-- The expression is not a part of itself. -/
theorem Fit.ne_part (hc : c ∈ m.kind.children) : c ≠ e := by
  rintro rfl
  exact h.loose.not_mem (Program.child_mem_parts hm hc) Program.mem_region_self

end

/-- What is no literal has been there from the start. -/
theorem Fit.node_of_not_literal (h : Fit p s (.expr e)) (hm : s.program.exprs.get? e = some m)
    (hl : m.kind.isLiteral = false) : p.exprs.get? e = some m := by
  rcases h.expr_cases hm with hpm | ⟨v, line, hv⟩
  · exact hpm
  · obtain rfl := hv.some_unique hm
    simp at hl

theorem Works.memberAccess (hp : p.TreeShaped) (hf : Fresh p) (hw : Works p n)
    (hfit : Fit p s (.expr e)) (hm : p.exprs.get? e = some m) (hk : m.kind = .binary .dot l right)
    (run : Resolve.memberAccess (Resolve.callsWithin n) e l right s = .ok e' s') :
    Step p n s e e' s' := by
  cases right with
  | none => simp [Resolve.memberAccess] at run
  | args _ => simp [Resolve.memberAccess] at run
  | expr member =>
    have hl : l ∈ m.kind.children := by simp [hk]
    have hmem : member ∈ m.kind.children := by simp [hk]
    have hne : l ≠ member := by
      simpa [hk] using hp.children_nodup hm
    have hmfit := hfit.part_expr hp hm hmem
    simp only [Resolve.memberAccess, bind_eq_ok, node_eq_ok] at run
    obtain ⟨mm, _, ⟨hmm, rfl⟩, run⟩ := run
    cases hmk : mm.kind with
    | name =>
      rw [hmk] at run
      have hpmm := hmfit.node_of_not_literal hmm (by simp [hmk])
      obtain rfl := hf.name hpmm hmk
      simp only [Resolve.memberNamed, bind_eq_ok] at run
      obtain ⟨scope, s1, howner, run⟩ := run
      have hfree := hfit.free Program.mem_region_self hm
      have hmfree := hfit.child hm hmem hpmm
      have hstill := hfit.node hm
      rcases Resolve.ownerScope_eq_ok hf (hfit.part_expr hp hm hl) howner with
        ⟨rfl, rfl⟩ | ⟨ml, owner, found, i, ty, rfl, hpml, hlk, hfinds, hopens, rfl⟩
      · simp only [Resolve.memberOfValue, bind_eq_ok, replace_eq_ok, valueTy_eq_ok] at run
        obtain ⟨l', s1, hleft, _, _, ⟨m1, hm1, rfl⟩, ty, _, ⟨hty, rfl⟩, run⟩ := run
        have hran := hw.expr (hfit.part_expr hp hm hl) hleft
        have hm' := hfit.still_part hm hl hran.moves
        obtain rfl := hm'.some_unique hm1
        have hmm' := (hfit.next_part hp hm hl hmem hne hran.moves hran.ready).same _
          Program.mem_region_self mm hpmm
        have hne' := hfit.ne_part hm hmem
        have hfree' := hfree.step hran.moves.program
        exact .valueMember hm hk hpmm hmk hran hm' hmm' hty (hw.ofValue (hran.ready.put hfree')
          hfree'.put (hmfree.step hran.moves.program).put hne' (get?_put_self hm')
          ((get?_put_of_ne hne'.symm).trans hmm') hmk run)
      · have hlfree := hfit.child hm hl hpml
        obtain ⟨r, s1, hnamed, haccessed⟩ := hw.memberFrom (m := m) (hfit.ready.put hlfree)
          hmfree.put ((get?_put_of_ne hne).trans hmm) hmk
          (fun hnamed => hnamed.still hfree.put (hfit.ne_part hm hmem)
            ((get?_put_of_ne (hfit.ne_part hm hl)).trans hstill)) run
        exact .ownerMember hm hk hpmm hmk hpml hlk hfinds hopens hnamed haccessed
    | _ => simp [hmk] at run

/-! ## Calls and operators -/

/-- The regions of some parts of an expression do not meet. -/
theorem Fit.parts_disjoint (hp : p.TreeShaped) (h : Fit p s (.expr e))
    (hm : p.exprs.get? e = some m) {cs : List ExprId} (hs : cs.Sublist m.kind.children) :
    cs.Pairwise fun c c' => Disjoint (p.region (.expr c)) (p.region (.expr c')) := by
  have hsub : (cs.map Node.expr).Sublist (p.parts (.expr e)) := by
    rw [Program.parts_expr hm]
    cases hk : m.kind <;> rw [hk] at hs
    case var => simp [List.sublist_nil.1 hs]
    all_goals exact hs.map _
  have := h.loose.pairwise_disjoint hp hsub
  rwa [List.pairwise_map] at this

namespace Works

variable (hp : p.TreeShaped) (hw : Works p n) (hfit : Fit p s (.expr e))
  (hm : p.exprs.get? e = some m)

include hp hw hfit hm

theorem call (hk : m.kind = .binary .call l right)
    (run : Resolve.call (Resolve.callsWithin n) e l right s = .ok e' s') : Step p n s e e' s' := by
  cases right with
  | none => simp [Resolve.call] at run
  | expr _ => simp [Resolve.call] at run
  | args args =>
    have hl : l ∈ m.kind.children := by simp [hk]
    have hchildren : m.kind.children = l :: args := by simp [hk]
    have hnodup := hchildren ▸ hp.children_nodup hm
    simp only [Resolve.call, bind_eq_ok, ask_eq_ok] at run
    obtain ⟨l', s1, hcallee, symbol, _, ⟨hsymbol, hs⟩, run⟩ := run
    rw [hs] at run
    have hran := hw.expr (hfit.part_expr hp hm hl) hcallee
    split at run
    · rename_i f
      simp only [Resolve.callOf, bind_eq_ok, ask_eq_ok, fetch_ok] at run
      obtain ⟨d, _, ⟨hd, hs⟩, run⟩ := run
      rw [hs] at run
      split at run
      · rename_i hcount
        simp only [bind_eq_ok, replace_eq_ok, ask_eq_ok, fetch_ok, typed_eq_ok] at run
        obtain ⟨args', s2, hargs, _, _, ⟨m1, hm1, rfl⟩, d', _, ⟨hd', rfl⟩, he', m2, hm2, rfl⟩ := run
        have hmem : ∀ i ∈ args.zip d.params, i.1 ∈ args := fun i hi => (List.of_mem_zip hi).1
        have hlist : RanList p (fun _ => n) Prod.fst Passes s1 (args.zip d.params) args' s2 := by
          refine .of_mapM (fun i _ s a s' hfi hi => ?_) (fun i hi => ?_) ?_ hargs
          · simp only [Resolve.argument, bind_eq_ok, ask_eq_ok, fetch_ok] at hi
            obtain ⟨a', s3, ha, dv, _, ⟨hdv, rfl⟩, hi⟩ := hi
            cases ht : dv.ty with
            | none => simp [ht] at hi
            | some t =>
              simp only [ht, bind_eq_ok, coerce_eq_ok, pure_eq_ok] at hi
              obtain ⟨_, _, ⟨hc, rfl⟩, rfl, rfl⟩ := hi
              exact ⟨hw.expr hfi ha, dv, t, hdv, ht, hc⟩
          · refine hfit.next_part hp hm hl (by simp [hk, hmem i hi]) ?_ hran.moves hran.ready
            rintro rfl
            exact (List.nodup_cons.1 hnodup).1 (hmem i hi)
          · have hsub : args.Sublist m.kind.children := by simp [hk]
            have hdis := hfit.parts_disjoint hp hm hsub
            rw [← List.map_fst_zip hcount.ge, List.pairwise_map] at hdis
            exact hdis
        have hstill : s2.program.exprs.get? e = some m := by
          have hsame : s1.program.Same s2.program (.expr e) := by
            refine hlist.same (fun i hi hin => ?_) fun hin =>
              hfit.not_waiting Program.mem_region_self
                (Program.waiting_subset hran.moves.program hin)
            exact hfit.loose.not_mem (Program.child_mem_parts hm (by simp [hk, hmem i hi])) hin
          exact hsame m (hfit.still_part hm hl hran.moves)
        obtain rfl := hstill.some_unique hm1
        have hm2' := (get?_put_self hstill).some_unique hm2
        have hmethods : s2.program.methods = s1.program.methods :=
          (hlist.shift (D := Set.univ) (fun _ _ => Set.subset_univ _)
            (Set.subset_univ _)).program.methods
        have hdd : d' = d := by
          have : s2.program.methods.get? f = some d' := hd'
          rw [hmethods, hd] at this
          exact (Option.some.inj this).symm
        rw [he', put_put, hdd, ← hm2']
        exact .call (m := m) hm hk hran hsymbol hd hcount hlist hstill
      · simp at run
    · simp at run

theorem binary {op : BinaryOp} (hk : m.kind = .binary op l right)
    (hdot : op ≠ .dot) (hcall : op ≠ .call)
    (run : Resolve.binary (Resolve.callsWithin n) e op l right s = .ok e' s') :
    Step p n s e e' s' := by
  cases right with
  | none => simp [Resolve.binary] at run
  | args _ => simp [Resolve.binary] at run
  | expr r =>
    have hl : l ∈ m.kind.children := by simp [hk]
    have hr : r ∈ m.kind.children := by simp [hk]
    have hne : l ≠ r := by simpa [hk] using hp.children_nodup hm
    simp only [Resolve.binary, bind_eq_ok, replace_eq_ok] at run
    obtain ⟨l', s1, hleft, r', s2, hright, _, _, ⟨m1, hm1, rfl⟩, run⟩ := run
    have hranl := hw.expr (hfit.part_expr hp hm hl) hleft
    have hranr := hw.expr (hfit.next_part hp hm hl hr hne hranl.moves hranl.ready) hright
    have hstill : s2.program.exprs.get? e = some m := by
      have hsame := hranr.moves.program.same (hfit.not_work hm hr hranl.moves.program)
      exact hsame m (hfit.still_part hm hl hranl.moves)
    obtain rfl := hstill.some_unique hm1
    exact .binary hm hk hdot hcall hranl hranr hstill run

theorem conditional {a b : ExprId} (hk : m.kind = .conditional c a b)
    (run : Resolve.conditional (Resolve.callsWithin n) e c a b s = .ok e' s') :
    Step p n s e e' s' := by
  have hc : c ∈ m.kind.children := by simp [hk]
  have ha : a ∈ m.kind.children := by simp [hk]
  have hb : b ∈ m.kind.children := by simp [hk]
  obtain ⟨⟨hca, hcb⟩, hab⟩ : (c ≠ a ∧ c ≠ b) ∧ a ≠ b := by
    simpa [hk] using hp.children_nodup hm
  simp only [Resolve.conditional, Resolve.condition, bind_eq_ok, coerce_eq_ok, pure_eq_ok,
    replace_eq_ok] at run
  obtain ⟨c', s1, ⟨_, _, hcond, _, _, ⟨hbool, rfl⟩, rfl, rfl⟩, a', s2, hfirst, b', s3,
    hsecond, _, _, ⟨m1, hm1, rfl⟩, run⟩ := run
  have hranc := hw.expr (hfit.part_expr hp hm hc) hcond
  have hrana := hw.expr (hfit.next_part hp hm hc ha hca hranc.moves hranc.ready) hfirst
  have hfitb : Fit p s2 (.expr b) := by
    have hfb := hfit.next_part hp hm hc hb hcb hranc.moves hranc.ready
    refine hfb.step hrana.moves.program hrana.ready (Disjoint.sup_left ?_ hfb.apart.symm)
    have hsub : [a, b].Sublist m.kind.children := by simp [hk]
    simpa using hfit.parts_disjoint hp hm hsub
  have hranb := hw.expr hfitb hsecond
  have hstill2 := hrana.moves.program.same (hfit.not_work hm ha hranc.moves.program) m
    (hfit.still_part hm hc hranc.moves)
  have hchanges : s.program.Changes Set.univ s2.program :=
    (hranc.moves.program.mono (Set.subset_univ _)).trans
      (hrana.moves.program.mono (Set.subset_univ _))
  have hstill := hranb.moves.program.same (hfit.not_work hm hb hchanges) m hstill2
  obtain rfl := hstill.some_unique hm1
  exact .conditional hm hk hranc hbool hrana hranb hstill run

theorem collection {items : List ExprId} (hk : m.kind = .collection items)
    (run : Resolve.collection (Resolve.callsWithin n) e items s = .ok e' s') :
    Step p n s e e' s' := by
  have hmem : ∀ i ∈ items, i ∈ m.kind.children := by simp [hk]
  obtain ⟨first, rest, t, u, s1, m1, hitems, ht, hu, hsize, hm1, he', rfl⟩ := collection_ok run
  have hlist : RanList p (fun _ => n) id (fun _ _ _ => True) s items (first :: rest) s1 := by
    refine .of_mapM (fun i _ s a s' hfi hi => ⟨hw.expr hfi hi, trivial⟩)
      (fun i hi => hfit.part_expr hp hm (hmem i hi)) ?_ hitems
    exact hfit.parts_disjoint hp hm (by simp [hk])
  have hstill : s1.program.exprs.get? e = some m := by
    have hsame : s.program.Same s1.program (.expr e) := by
      refine hlist.same (fun i hi hin => ?_) (hfit.not_waiting Program.mem_region_self)
      exact hfit.loose.not_mem (Program.child_mem_parts hm (hmem i hi)) hin
    exact hsame m (hfit.node hm)
  obtain rfl := hstill.some_unique hm1
  rw [he']
  exact .collection (m := m) hm hk hlist ht hu hsize hstill

theorem before {op : PrefixOp} (hk : m.kind = .before op inner) (hop : op ≠ .new)
    (run : Resolve.before (Resolve.callsWithin n) e op inner s = .ok e' s') :
    Step p n s e e' s' := by
  have hi : inner ∈ m.kind.children := by simp [hk]
  have hends : (Resolve.innerBefore (Resolve.callsWithin n) e op inner >>= fun inner' =>
      Resolve.beforeEnd e inner' op) s = .ok e' s' := by
    cases op with
    | new => contradiction
    | less => simp [Resolve.before] at run
    | lessOrEqual => simp [Resolve.before] at run
    | _ => exact run
  simp only [Resolve.innerBefore, bind_eq_ok, replace_eq_ok, pure_eq_ok] at hends
  obtain ⟨_, _, ⟨inner', s1, hinner, _, _, ⟨m1, hm1, rfl⟩, rfl, rfl⟩, hends⟩ := hends
  have hran := hw.expr (hfit.part_expr hp hm hi) hinner
  have hstill := hfit.still_part hm hi hran.moves
  obtain rfl := hstill.some_unique hm1
  exact .before hm hk hran hstill hends

theorem after {op : PostfixOp} (hk : m.kind = .after op inner)
    (run : Resolve.after (Resolve.callsWithin n) e op inner s = .ok e' s') :
    Step p n s e e' s' := by
  have hi : inner ∈ m.kind.children := by simp [hk]
  have hop : op ≠ .bang := by
    rintro rfl
    simp [Resolve.after] at run
  have hends : Resolve.steppedAfter (Resolve.callsWithin n) e op inner s = .ok e' s' := by
    cases op with
    | bang => contradiction
    | _ => exact run
  simp only [Resolve.steppedAfter, bind_eq_ok] at hends
  obtain ⟨inner', s1, hinner, _, _, hput, hends⟩ := hends
  obtain ⟨m1, hm1, rfl⟩ := replace_eq_ok.1 hput
  have hran := hw.expr (hfit.part_expr hp hm hi) hinner
  have hstill := hfit.still_part hm hi hran.moves
  obtain rfl := hstill.some_unique hm1
  refine .after hm hk hop hran hstill ?_
  simpa only [Resolve.afterEnd, bind_eq_ok] using hends

theorem allocation (hk : m.kind = .before .new inner)
    (run : Resolve.allocation (Resolve.callsWithin n) e inner s = .ok e' s') :
    Step p n s e e' s' := by
  have hi : inner ∈ m.kind.children := by simp [hk]
  have hifit := hfit.part_expr hp hm hi
  have hine := hfit.ne_part hm hi
  simp only [Resolve.allocation, bind_eq_ok, node_eq_ok] at run
  obtain ⟨mi, _, ⟨hmi, hs⟩, run⟩ := run
  rw [hs] at run
  -- anything but brackets around a length is an object
  have hobject : (∀ left length, mi.kind ≠ .binary .index left (.expr length)) →
      Resolve.newObject (Resolve.callsWithin n) e inner s = .ok e' s' → Step p n s e e' s' := by
    intro hik h
    simp only [Resolve.newObject, bind_eq_ok] at h
    obtain ⟨t, s1, htype, h⟩ := h
    have hran := hw.type hifit htype
    have hstill := hfit.still_part hm hi hran.moves
    cases t with
    | classStorage =>
      obtain ⟨he', m1, hm1, rfl⟩ := typed_eq_ok.1 h
      obtain rfl := hstill.some_unique hm1
      rw [he']
      exact .newObject hm hk hmi hik hran hstill
    | _ => simp at h
  generalize hik : mi.kind = kind at run
  split at run
  · rename_i left length
    have hpmi := hifit.node_of_not_literal hmi (by simp [hik])
    have hleft : left ∈ mi.kind.children := by simp [hik]
    have hlen : length ∈ mi.kind.children := by simp [hik]
    have hne : left ≠ length := by
      simpa [hik] using hp.children_nodup hpmi
    simp only [Resolve.newArray, bind_eq_ok, replace_eq_ok, valueTy_eq_ok] at run
    obtain ⟨t, s1, htype, length', s2, hlength, _, _, ⟨m1, hm1, rfl⟩, u, _, ⟨hu, hs⟩, run⟩ := run
    rw [hs] at run
    have hrant := hw.type (hifit.part_expr hp hpmi hleft) htype
    have hranl := hw.expr (hifit.next_part hp hpmi hleft hlen hne hrant.moves hrant.ready) hlength
    have histill : s2.program.exprs.get? inner = some mi := by
      have hsame := hranl.moves.program.same (hifit.not_work hpmi hlen hrant.moves.program)
      exact hsame mi (hifit.still_part hpmi hleft hrant.moves)
    have hstill : s2.program.exprs.get? e = some m := by
      have hpart : ∀ {c}, c ∈ mi.kind.children → .expr c ∈ p.region (.expr inner) :=
        fun hc => Program.part_mem_region (Program.child_mem_parts hpmi hc)
      have hinner := Program.child_mem_parts hm hi
      have hs1 := hrant.moves.program.same (hfit.not_work_inside hinner (hpart hleft)
        (.refl (D := ∅) s.program))
      have hs2 := hranl.moves.program.same (hfit.not_work_inside hinner (hpart hlen)
        hrant.moves.program)
      exact (hs1.trans hs2) m (hfit.node hm)
    obtain rfl := histill.some_unique hm1
    split at run
    · rename_i hfits
      simp only [bind_eq_ok, record_eq_ok, typed_eq_ok] at run
      obtain ⟨_, _, ⟨m2, hm2, rfl⟩, he', m3, hm3, rfl⟩ := run
      obtain rfl := (get?_put_self histill).some_unique hm2
      rw [put_put] at hm3 ⊢
      obtain rfl := ((get?_put_of_ne hine).trans hstill).some_unique hm3
      rw [he']
      have hstep := Step.newArray hm hk hpmi hik hrant hranl hstill histill hu hfits
      exact hstep
    · simp at run
  · rename_i hother
    exact hobject (fun left length h => hother left length (hik.symm.trans h)) run

end Works

theorem Works.started {v : VarId} {d : Var} {t : Ty} {u : Unit} (hw : Works p n)
    (hfit : ∀ x ∈ d.value, Fit p s (.expr x)) (hv : s.program.vars.get? v = some d)
    (hstill : ∀ x x' s2, x ∈ d.value → Ran p n s x x' s2 → s2.program.vars.get? v = some d)
    (run : Resolve.startValue (Resolve.callsWithin n) v t d.value s = .ok u s') :
    ∃ value' s2, Started p n t s d.value value' s2 ∧ s2.program.vars.get? v = some d ∧
      s' = s2.setVar v { d with value := value' } := by
  cases hval : d.value with
  | none =>
    simp only [hval, Resolve.startValue, pure_eq_ok] at run
    refine ⟨none, s, .none, hv, ?_⟩
    rw [run.2, ← hval]
    simp [State.setVar, set_get? hv]
  | some x =>
    simp only [hval, Resolve.startValue, bind_eq_ok, coerce_eq_ok, updateVar_eq_ok] at run
    obtain ⟨x', s2, hx, _, _, ⟨hc, rfl⟩, d1, hd1, rfl⟩ := run
    have hran := hw.expr (hfit x hval) hx
    have hv' := hstill x x' _ hval hran
    obtain rfl := hv'.some_unique hd1
    exact ⟨some x', _, .some hran hc, hv', rfl⟩

theorem Works.localVar {v : VarId} (hp : p.TreeShaped) (hw : Works p n) (hfit : Fit p s (.expr e))
    (hm : p.exprs.get? e = some m) (hk : m.kind = .var v)
    (run : Resolve.localVar (Resolve.callsWithin n) e v s = .ok e' s') : Step p n s e e' s' := by
  have hvpart : .var v ∈ p.parts (.expr e) := by simp [Program.parts_expr hm, hk]
  have hvfit := hfit.part hp hvpart
  simp only [Resolve.localVar, bind_eq_ok, ask_eq_ok, fetch_ok] at run
  obtain ⟨d, _, ⟨hd, hs⟩, t, s1, htype, _, s2, hstart, run⟩ := run
  rw [hs] at htype
  have hpd : p.vars.get? v = some d := (hvfit.same _ Program.mem_region_self).symm.trans hd
  have hparts := Program.parts_var hpd
  have htpart : .expr d.typeExpr ∈ p.parts (.var v) := by simp [hparts]
  have hxpart : ∀ x ∈ d.value, .expr x ∈ p.parts (.var v) := by
    intro x hx
    simp [hparts, Option.mem_def.1 hx]
  have hne : ∀ x ∈ d.value, Node.expr d.typeExpr ≠ .expr x := by
    intro x hx heq
    have hnodup := hp.parts_nodup (.var v)
    rw [hparts, Option.mem_def.1 hx] at hnodup
    simp_all
  have hrant := hw.type (hvfit.part hp htpart) htype
  have hvstill : s1.program.vars.get? v = some d := by
    have hsame := hvfit.same_self htpart hrant.moves
    exact Eq.trans hsame hpd
  obtain ⟨value', s3, hstarted, hv3, rfl⟩ := hw.started (fun x hx =>
    hvfit.sibling hp htpart (hxpart x hx) (hne x hx) hrant.moves hrant.ready) hvstill
    (fun x x' s2 hx hran => Eq.trans (hran.moves.program.same (x := .var v)
      (hvfit.not_work_inside (hxpart x hx) Program.mem_region_self hrant.moves.program))
        hvstill) hstart
  have hestill : s3.program.exprs.get? e = some m := by
    have hs1 := hrant.moves.program.same (hfit.not_work_inside hvpart
      (Program.part_mem_region htpart) (.refl (D := ∅) s.program))
    have he1 := hs1 m (hfit.node hm)
    cases hval : d.value with
    | none =>
      rw [hval] at hstarted
      cases hstarted
      exact he1
    | some x =>
      rw [hval] at hstarted
      cases hstarted with
      | some hran =>
        exact hran.moves.program.same (hfit.not_work_inside hvpart
          (Program.part_mem_region (hxpart x hval)) hrant.moves.program) m he1
  simp only [updateVar_eq_ok, node_eq_ok, define_eq_ok, typed_eq_ok] at run
  obtain ⟨_, _, ⟨d1, hd1, rfl⟩, m1, _, ⟨hm1, rfl⟩, _, _, ⟨T, hT, rfl⟩, he', m2, hm2, rfl⟩ := run
  obtain rfl := (Arena.get?_set_self hv3).some_unique hd1
  obtain rfl : m = m2 := hestill.some_unique hm2
  rw [he', setVar_setVar]
  exact .var (d := d) hm hk hpd hrant hstarted hestill hv3 hT

/-! ## All expressions -/

theorem Works.exprRule (hp : p.TreeShaped) (hf : Fresh p) (hw : Works p n)
    (hfit : Fit p s (.expr e)) (run : Resolve.exprRule (Resolve.callsWithin n) e s = .ok e' s') :
    Step p n s e e' s' := by
  simp only [Resolve.exprRule, bind_eq_ok, node_eq_ok] at run
  obtain ⟨m, _, ⟨hm, hs⟩, run⟩ := run
  rw [hs] at run
  have hpm := hfit.node_of_not_literal hm
  generalize hk : m.kind = kind at run
  cases kind with
  | literal =>
    obtain ⟨rfl, m1, hm1, rfl⟩ := typed_eq_ok.1 run
    obtain rfl := hm.some_unique hm1
    exact .literal hm hk
  | name =>
    have hpm := hpm (by simp [hk])
    obtain rfl := hf.name hpm hk
    simp only [Resolve.localName, bind_eq_ok, get_eq_ok] at run
    obtain ⟨_, _, ⟨rfl, rfl⟩, run⟩ := run
    exact .name hpm hk (hw.named hfit.ready (hfit.free Program.mem_region_self hpm) hm hk
      finds_lookup run)
  | before op =>
    have hpm := hpm (by simp [hk])
    by_cases hop : op = .new
    · subst hop
      exact hw.allocation hp hfit hpm hk run
    · exact hw.before hp hfit hpm hk hop run
  | after => exact hw.after hp hfit (hpm (by simp [hk])) hk run
  | binary op =>
    have hpm := hpm (by simp [hk])
    by_cases hdot : op = .dot
    · subst hdot
      exact hw.memberAccess hp hf hfit hpm hk run
    · by_cases hcall : op = .call
      · subst hcall
        exact hw.call hp hfit hpm hk run
      · refine hw.binary hp hfit hpm hk hdot hcall ?_
        cases op <;> first | contradiction | exact run
  | conditional => exact hw.conditional hp hfit (hpm (by simp [hk])) hk run
  | collection => exact hw.collection hp hfit (hpm (by simp [hk])) hk run
  | var => exact hw.localVar hp hfit (hpm (by simp [hk])) hk run

end Ci
