-- Expressions, types and constants that are resolved again. Names are bound, types are
-- recorded and operands are in their places, so each rule goes the same way and finds
-- that nothing is left to do.
import Ci.Proofs.Idempotence.Again
import Ci.Proofs.Work.Told

namespace Ci

open Pass Resolve Program Arena

variable {p q r : Program} {n d : Nat} {s s1 s2 s' : State} {e e' inner left right : ExprId}
  {m m' : ExprNode} {t : Ty} {a : Resolve.Spelling} {x : Pass ExprId} {parts : List ExprId}
  {N : Nat}

theorem Ran.depth_pos (h : Ran p n s e e' s') : 0 < n := by
  refine Nat.pos_of_ne_zero ?_
  rintro rfl
  exact not_ran_zero h

/-! ## Types -/

section

variable {calls : Calls} (hlit : 0 < n → ∀ {l}, q.TypedLiteral l → Idle q s (calls.expr l) l)

include hlit

theorem constantInt_idle {v : Int64} (hn : 0 < n) (hm : q.exprs.get? e = some m)
    (hk : m.kind = .literal (.int v))
    (ht : m.ty = some (Literal.int v).ty) : Idle q s (constantInt calls e) (e, v) := by
  have hv : q.literal? e = .ok (some (.int v)) := by
    simp [Program.literal?, Query.bind_ok, fetch_ok, hm, hk]
  have hself : q.TypedLiteral e := ⟨.int v, m.line, by rw [hm, ← hk, ← ht]⟩
  exact (hlit hn hself).bind ((Idle.literal? hv).bind .pure)

theorem takeBrackets_idle {depth : Nat} (h : Spells q e a)
    (hn : ∀ length, .storage length ∈ a.brackets → 0 < n) (hd : a.brackets.length < depth) :
    Idle q s (takeBrackets calls depth e) a := by
  have hmark : ∀ {e base writable}, Marks q e base writable →
      Idle q s (takeMark e) (base, writable) := by
    intro e base writable mark
    cases mark with
    | bang node kind =>
      refine (Idle.node node).bind ?_
      rw [kind]
      exact .pure
    | @none m node kind =>
      refine (Idle.node node).bind ?_
      generalize m.kind = kind' at kind
      split
      · exact absurd rfl (kind _)
      · exact .pure
  induction h generalizing depth with
  | @base _ _ _ m mark node plain =>
    obtain ⟨depth, rfl⟩ := Nat.exists_eq_add_one_of_ne_zero (Nat.ne_of_gt (Nat.zero_lt_of_lt hd))
    refine (hmark mark).bind (Idle.bind (a := none) ((Idle.node node).bind ?_) .pure)
    generalize m.kind = kind at plain
    split
    · exact absurd rfl (plain _ _)
    · exact absurd rfl (plain _ _)
    · exact .pure
  | @pointer _ base left _ _ _ mark node kind _ ih =>
    obtain ⟨depth, rfl⟩ := Nat.exists_eq_add_one_of_ne_zero (Nat.ne_of_gt (Nat.zero_lt_of_lt hd))
    have hlast : Idle q s (lastBrackets? base) (some (left, none)) := by
      refine (Idle.node node).bind ?_
      rw [kind]
      exact .pure
    refine (hmark mark).bind (hlast.bind ?_)
    exact Idle.bind .pure
      ((ih (fun length h => hn length (by simp [h])) (by simpa using hd)).bind .pure)
  | @storage _ base left length v _ _ _ mark node kind lnode lkind typed low high _ ih =>
    obtain ⟨depth, rfl⟩ := Nat.exists_eq_add_one_of_ne_zero (Nat.ne_of_gt (Nat.zero_lt_of_lt hd))
    have hlast : Idle q s (lastBrackets? base) (some (left, some length)) := by
      refine (Idle.node node).bind ?_
      rw [kind]
      exact .pure
    have hlength : Idle q s (Resolve.arrayLength calls length)
        (length, UInt32.ofNat v.toNatClampNeg) := by
      refine (constantInt_idle hlit (hn (UInt32.ofNat v.toNatClampNeg) (by simp)) lnode lkind
        typed).bind ?_
      simp only [low, high, if_false]
      exact .pure
    have hread : Idle q s (readBrackets calls base false left (some length))
        (.storage (UInt32.ofNat v.toNatClampNeg)) := by
      refine hlength.bind ?_
      exact (Idle.replace node kind).bind .pure
    have hrest := ih (fun length h => hn length (by simp [h])) (by simpa using hd)
    exact (hmark mark).bind (hlast.bind (hread.bind (hrest.bind .pure)))

theorem rangeTo_idle {v min : Int64} {included : Bool} (hn : 0 < n) (hm : q.exprs.get? e = some m)
    (hk : m.kind = .literal (.int v)) (ht : m.ty = some (Literal.int v).ty)
    (ho : ¬ upperEnd included v < min) :
    Idle q s (rangeTo calls min included e) (e, .range ⟨min, upperEnd included v⟩) := by
  refine (constantInt_idle hlit hn hm hk ht).bind ?_
  change Idle q s (if upperEnd included v < min then _ else _) _
  rw [if_neg ho]
  exact .pure

/-- A type without brackets is read again. -/
theorem Plain.idle {writable : Bool} (hp : p.TreeShaped) (hf : Fresh p)
    (h : Plain p n s e writable t s') (hfit : Fit p s (.expr e))
    (still : s'.program.exprs.get? e = some m) (hl : Lasts s'.program q)
    (hm : q.exprs.get? e = some { m with ty := some t }) :
    Idle q s (plainType calls e writable m.kind) t := by
  have hint : ∀ {s e e' v s'}, RanInt p n s e e' v s' → Lasts s'.program q →
      ∃ m, q.exprs.get? e' = some m ∧ m.kind = .literal (.int v) ∧
      m.ty = some (Literal.int v).ty := by
    intro s e e' v s' run hl
    obtain ⟨m, hm, hk⟩ := run.node
    have ht := (run.toRan.settled hp hf).literal m _ hm hk
    exact ⟨m, hl.exprs e' m hm (by simp [ht]), hk, ht⟩
  have hchild : ∀ {m0 c mc}, p.exprs.get? e = some m0 → c ∈ m0.kind.children →
      p.exprs.get? c = some mc → s.program.exprs.get? c = some mc := fun {m0 c mc} hm0 hc hmc =>
    (hfit.part_expr hp hm0 hc).same _ mem_region_self _ hmc
  cases h with
  | @name _ text found t node _ finds type =>
    rw [get?_put_self (hfit.node node)] at still
    obtain rfl := Option.some.inj still
    have hloc : found.isLocal = false := by cases found <;> simp_all [Symbol.asType, Symbol.isLocal]
    have hty : Idle q s (tyOfSymbol e text writable (some found)) t :=
      .of_program fun _ _ => tyOfSymbol_eq_ok.2 ⟨⟨found, rfl, type⟩, rfl⟩
    exact (Idle.lookupGlobal finds hloc).bind (hty.bind ((Idle.replace hm rfl).bind .pure))
  | @string _ _ left node kind lnode lkind =>
    have hleft := hl.exprs left _ (get?_put_self (hchild node (by simp [kind]) lnode)) (by simp)
    rw [hfit.node_put node (by simp [kind]) still, kind]
    refine (Idle.node hleft).bind ?_
    simp only [lkind, ↓reduceIte]
    exact (Idle.record hleft rfl).bind .pure
  | @storage _ _ left _ _ node kind lnode _ other finds =>
    have hleft := hl.exprs left _ (get?_put_self (hchild node (by simp [kind]) lnode)) (by simp)
    rw [hfit.node_put node (by simp [kind]) still, kind]
    refine (Idle.node hleft).bind ?_
    simp only [if_neg other]
    exact (Idle.lookupGlobal finds rfl).bind
      ((Idle.replace hleft rfl).bind ((Idle.record hleft rfl).bind .pure))
  | @range _ rel _ left' _ right' min bound _ s2 node kind relation first second ordered still0 =>
    rw [get?_put_self still0] at still
    obtain rfl := Option.some.inj still
    have hback : Lasts s2.program q := by
      refine .trans ?_ hl
      exact .put_back hf node still0 (by simp [kind]) rfl
    have hn := first.toRan.depth_pos
    obtain ⟨ml, hml, hlk, hlt⟩ := hint first ((second.toRan.lasts hf).trans hback)
    obtain ⟨mr, hmr, hrk, hrt⟩ := hint second hback
    have hrange : Idle q s (rangeType calls e rel left' right')
        (.range ⟨min, upperEnd (rel == .lessOrEqual) bound⟩) :=
      (constantInt_idle hlit hn hml hlk hlt).bind
        ((rangeTo_idle hlit hn hmr hrk hrt ordered).bind ((Idle.replace hm rfl).bind .pure))
    rcases relation with rfl | rfl <;> exact hrange
  | @rangeFromZero _ op _ inner' bound s1 node kind relation operand ordered still0 =>
    rw [get?_put_self still0] at still
    obtain rfl := Option.some.inj still
    have hback : Lasts s1.program q := by
      refine .trans ?_ hl
      exact .put_back hf node still0 (by simp [kind]) rfl
    have hn := operand.toRan.depth_pos
    obtain ⟨mi, hmi, hik, hit⟩ := hint operand hback
    have hrange : Idle q s (Resolve.rangeFromZero calls e op inner')
        (.range ⟨0, upperEnd (op == .lessOrEqual) bound⟩) :=
      (rangeTo_idle hlit hn hmi hik hit ordered).bind ((Idle.replace hm rfl).bind .pure)
    rcases relation with rfl | rfl <;> exact hrange

end

theorem Spelled.grows (h : Spelled p n s e a s') : Grows s s' := by
  induction h with
  | base => exact .refl _
  | pointer _ _ _ _ ih => exact ih
  | storage _ _ _ count _ _ _ _ ih => exact (count.toRan.grows.trans (.put _ _ _)).trans ih

theorem Spelled.depth_pos {length : UInt32} (h : Spelled p n s e a s')
    (hb : .storage length ∈ a.brackets) : 0 < n := by
  induction h with
  | base => simp at hb
  | pointer _ _ _ _ ih => exact ih (by simpa using hb)
  | storage _ _ _ count => exact count.toRan.depth_pos

/-- A type that has been read is read again, and has its types already. -/
theorem StepType.idle {calls : Calls} (hp : p.TreeShaped) (hf : Fresh p) (h : StepType p n s e t s')
    (hfit : Fit p s (.expr e)) (hl : Lasts s'.program q)
    (hlit : 0 < n → ∀ {s l}, q.TypedLiteral l → Idle q s (calls.expr l) l) :
    Idle q s (readType calls e) t := by
  obtain @⟨a, t, m, s1, s2, spelled, plain, mark, still, short⟩ := h
  obtain ⟨hread, hlasts, -⟩ := spelled.readAs hp hf hfit (fun h => h.settled hp hf) plain still rfl
  have hbfit := spelled.fit hp hfit
  have hsize : s.program.exprs.size ≤ q.exprs.size :=
    ((spelled.changes hp hf hfit).exprs.size_le.trans (plain.changes hf hbfit).exprs.size_le).trans
      (hlasts.trans hl).size_le
  have hread := hread.later hl
  have hbase : q.exprs.get? a.base = some { m with ty := some t } := by
    refine hl.exprs a.base _ ?_ (by simp)
    rw [get?_typeAll, get?_put_self still]
    simp
  have htake : Idle q s (takeBrackets calls q.exprDepth e) a := by
    refine takeBrackets_idle (n := n) (fun hn => hlit hn) hread.spells
      (fun _ => spelled.depth_pos) (short.trans_le ?_)
    simpa [exprDepth] using hsize
  have hplain : Idle q s (baseType calls a.base a.writable) t := by
    refine (Idle.node hbase).bind (((plain.idle (fun hn => hlit hn) hp hf hbfit still
      (hlasts.trans hl) hbase).grows spelled.grows).bind ?_)
    rw [if_neg (by simpa using mark)]
    exact (Idle.record hbase rfl).bind .pure
  refine .get fun u hu _ => ?_
  rw [hu]
  refine htake.bind (hplain.bind ((Idle.forM fun x hx => ?_).bind .pure))
  simp only [List.mem_filter, bne_iff_ne] at hx
  obtain ⟨mx, hmx, ht⟩ := hread.nodes x hx.1 hx.2
  exact .record hmx ht

/-! ## Names and members -/

/-- A name stays one. -/
theorem Lasts.name {text : String} {symbol : Option Symbol} (hl : Lasts r q)
    (hm : r.exprs.get? e = some m) (hk : m.kind = .name text symbol) :
    ∃ m' symbol', q.exprs.get? e = some m' ∧ m'.kind = .name text symbol' := by
  obtain ⟨m', hm', ho⟩ := hl.outlines e m hm
  rw [hk] at ho
  cases hkind : m'.kind <;> simp_all

section

variable {look : Resolve.Look} {scope : ScopeId} {text : String} {member : ExprId} {mm : ExprNode}

theorem Named.grows (h : Named p n s look scope e m text e' s') : Grows s s' := by
  cases h with
  | @kept found _ s1 _ reached =>
    have hreached : Grows (s.put e { m with kind := .name text (some found) }) s1 := by
      cases reached with
      | const run => exact run.grows
      | other => exact .refl _
    exact ((Grows.put _ _ _).trans hreached).trans (.put _ _ _)
  | inlined _ run => exact ((Grows.put _ _ _).trans run.grows).trans (.set_program _ _)

theorem Accessed.grows {r' : ExprId} (h : Accessed e m member s r' e' s') : Grows s s' := by
  cases h with
  | kept => exact .put _ _ _
  | folded => exact .refl _

theorem OfValue.grows (h : OfValue p n e m left member mm text s t e' s') : Grows s s' := by
  cases h with
  | literalLength => exact .set_program _ _
  | stringLength => exact (Grows.put _ _ _).trans (.put _ _ _)
  | arrayLength => exact .set_program _ _
  | ofClass _ _ named accessed => exact named.grows.trans accessed.grows

theorem Lasts.ofValue (hf : Fresh p) (h : OfValue p n e m left member mm text s t e' s')
    (hm : s.program.exprs.get? e = some m) (ht : m.ty = none)
    (hmm : s.program.exprs.get? member = some mm) (hmt : mm.ty = none)
    (hmk : mm.kind = .name text none) (hne : e ≠ member) : Lasts s.program s'.program := by
  cases h with
  | literalLength => exact .grow
  | arrayLength => exact .grow
  | stringLength =>
    set mm' : ExprNode := { mm with kind := .name text (some .stringLength), ty := some .length }
    have hmember : Lasts s.program (s.put member mm').program :=
      .put hmm hmt (by simp [mm', hmk]) rfl
    refine hmember.trans ?_
    exact .put ((get?_put_of_ne hne.symm).trans hm) ht rfl rfl
  | ofClass _ _ named accessed =>
    exact (Lasts.named hf named hmm hmt hmk).trans (.accessed accessed ht)

variable {calls : Calls} (ihc : ∀ {s k s'}, RanConst p n s k s' → Lasts s'.program q →
    Idle q s (calls.const k) ())

include ihc

omit ihc in
/-- A name that stays is no literal. -/
theorem Named.not_literal (h : Named p n s look scope e m text e s')
    (hm : s.program.exprs.get? e = some m) : ¬ s'.program.TypedLiteral e := by
  rintro ⟨v, line, hv⟩
  obtain ⟨found, -, hb⟩ := h.bound hm
  obtain ⟨m', hm', hk, -⟩ := hb.node
  obtain rfl := hv.some_unique hm'
  cases hk

/-- A name that has stayed gives itself again. -/
theorem Named.idle (h : Named p n s look scope e m text e' s') (ht : m.ty = none)
    (hl : Lasts s'.program q) (hno : ¬ s'.program.TypedLiteral e') :
    e' = e ∧ Idle q s (resolveName calls look scope e) e := by
  refine ⟨h.ends.resolve_right hno, ?_⟩
  cases h with
  | @kept _ _ s1 _ reached still type stays =>
    have hlast : Lasts s1.program q := by
      refine .trans ?_ hl
      exact .put still ht rfl rfl
    have hself := hl.exprs e _ (get?_put_self still) (by simp)
    refine resolveName_idle hself rfl rfl ((reached.proper type).symbolTy? hlast type)
      fun k d hfound hd => ?_
    subst hfound
    cases reached with
    | const run =>
      obtain ⟨d1, hd1, hs⟩ := run.resolved
      obtain rfl := (hlast.consts k d1 hd1 hs).some_unique hd
      have hput := Grows.put s e { m with kind := .name text (some (.const k)) }
      exact ⟨(ihc run hlast).grows hput,
        (inlined?_idle hlast (stays k d1 rfl hd1)).grows (hput.trans run.grows)⟩
    | other ne => exact absurd rfl (ne k)
  | @inlined _ _ v _ _ _ _ _ _ room =>
    exact absurd ⟨v, m.line, Arena.get?_next_push room⟩ hno

/-- The access to a member that has stayed gives itself again. -/
theorem Accessed.idle {r' : ExprId} (h : Accessed e m member s1 r' e' s') (ht : m.ty = none)
    (hl : Lasts s'.program q) (hno : ¬ s'.program.TypedLiteral e')
    (named : Named p n s ScopeTable.lookupMember scope member mm text r' s1)
    (hmm : s.program.exprs.get? member = some mm) (hmt : mm.ty = none) :
    e' = e ∧ Idle q s (memberFrom calls scope e member) e := by
  cases h with
  | @kept _ value still =>
    have hback : Lasts s1.program q := by
      refine .trans ?_ hl
      exact .put still ht rfl rfl
    have hself := hl.exprs e _ (get?_put_self still) (by simp)
    obtain ⟨found, -, hb⟩ := named.bound hmm
    refine ⟨rfl, (named.idle ihc hmt hback (named.not_literal hmm)).2.bind ?_⟩
    rw [if_pos rfl]
    exact (Idle.valueTy ((hb.whole.alike hback).valueTy value)).bind (.typed hself rfl)
  | folded ne => exact absurd (named.ends.resolve_left ne) hno

/-- The access to a member of a value that has stayed gives itself again, once the value does. -/
theorem OfValue.again (h : OfValue p n e m left member mm text s1 t e' s')
    (hleft : Again q s s1 (calls.expr left) left) (hl : Lasts s'.program q)
    (hno : ¬ s'.program.TypedLiteral e') (hm : s1.program.exprs.get? e = some m) (ht : m.ty = none)
    (hk : m.kind = .binary .dot left (.expr member))
    (hmm : s1.program.exprs.get? member = some mm) (hmt : mm.ty = none)
    (hmk : mm.kind = .name text none) (hne : e ≠ member)
    (hw : Whole s1.program left) (hv : s1.program.valueTy left = .ok t) (hf : Fresh p) :
    e' = e ∧ (∃ ty, q.exprs.get? e = some { m with ty := ty }) ∧
      Again q s s' (memberOfValue calls e left member text) e := by
  have hg := h.grows
  have halike := hw.alike ((Lasts.ofValue hf h hm ht hmm hmt hmk hne).trans hl)
  cases h with
  | literalLength _ _ _ room => exact absurd ⟨_, m.line, Arena.get?_next_push room⟩ hno
  | arrayLength _ room => exact absurd ⟨_, m.line, Arena.get?_next_push room⟩ hno
  | @stringLength _ _ name string literal other =>
    set mm' : ExprNode := { mm with kind := .name text (some .stringLength), ty := some .length }
    have hstill : (s1.put member mm').program.exprs.get? e = some m :=
      (get?_put_of_ne hne.symm).trans hm
    have hself := hl.exprs e _ (get?_put_self hstill) (by simp)
    have hmember := hl.exprs member _ ((get?_put_of_ne hne).trans (get?_put_self hmm))
      (by simp [mm'])
    have hlength : Idle q s1 (Resolve.stringLength e left member text) e := by
      refine (Idle.literal? (halike.literal? literal)).bind ?_
      split
      · exact absurd rfl (other _)
      · exact (Idle.replace hmember rfl).bind ((Idle.record hmember rfl).bind (.typed hself rfl))
    refine ⟨rfl, ⟨_, hself⟩, hleft.bind (Idle.again ((Idle.replace hself hk).bind
      ((Idle.valueTy (halike.valueTy hv)).bind ?_)) hg)⟩
    rw [if_pos ⟨name, string⟩]
    exact hlength
  | @ofClass _ _ _ _ _ _ _ target found named accessed =>
    obtain ⟨rfl, hfrom⟩ := accessed.idle ihc ht hl hno named hmm hmt
    obtain ⟨ty, hself⟩ : ∃ ty, q.exprs.get? e' = some { m with ty := ty } := by
      cases accessed with
      | kept _ still => exact ⟨_, hl.exprs e' _ (get?_put_self still) (by simp)⟩
      | folded ne => exact absurd (named.ends.resolve_left ne) hno
    have hclass : Idle q s1 (memberOfClass calls e' member text t) e' := by
      rw [memberOfClass, target]
      exact (Idle.classScope found).bind hfrom
    refine ⟨rfl, ⟨ty, hself⟩, hleft.bind (Idle.again ((Idle.replace hself hk).bind
      ((Idle.valueTy (halike.valueTy hv)).bind ?_)) hg)⟩
    cases t with
    | classPointer => simpa [Ty.isString] using hclass
    | classStorage => simpa [Ty.isString] using hclass
    | _ => simp [Ty.memberClass] at target

end

/-! ## All expressions -/

theorem Pass.Coerces.later (h : Coerces r e t) (hw : Whole r e) (hl : Lasts r q) :
    Coerces q e t := by
  obtain ⟨u, hu, ha⟩ := h
  exact ⟨u, (hw.alike hl).valueTy hu, by rwa [assignable_congr hl.classes]⟩

theorem Ending.grows {V : Program → Prop} (h : Ending V e parts s x e' s') : Grows s s' := by
  cases h with
  | typed => exact .put _ _ _
  | folded => exact .set_program _ _
  | part => exact .refl s

/-- How an operator ends again: its type is recorded, or what took its place stands for itself. -/
theorem Ending.again {operands : List ExprId}
    (h : Ending (Views s.program operands) e parts s x e' s') (hm : s.program.exprs.get? e = some m)
    (ht : m.ty = none) (hl : Lasts s'.program q) (hno : ¬ s'.program.TypedLiteral e')
    (hops : ∀ l ∈ operands, Whole s.program l) :
    Lasts s.program q ∧ ((e' ∈ parts ∧ s' = s) ∨
      (e' = e ∧ ∃ ty, q.exprs.get? e = some { m with ty := some ty } ∧ Idle q s x e)) := by
  cases h with
  | typed _ ty found again =>
    obtain rfl := hm.some_unique found
    have hself := hl.exprs e _ (get?_put_self found) (by simp)
    have hback : Lasts s.program q := by
      refine .trans ?_ hl
      exact .put found ht rfl rfl
    refine ⟨hback, .inr ⟨rfl, ty, hself, .of_program fun t ht => ?_⟩⟩
    exact again t _ (ht ▸ ⟨hback, fun l hlo => (hops l hlo).alike hback⟩) (ht ▸ hself) rfl
  | folded line value room => exact absurd ⟨value, line, Arena.get?_next_push room⟩ hno
  | part _ mem => exact ⟨hl, .inl ⟨mem, rfl⟩⟩

section

variable {ι κ : Type} {depth : State → Nat} {exprOf : ι → ExprId} {C : ι → ExprId → State → Prop}
  {xs : List ι} {es : List ExprId}

/-- What has been done to a list of items is done again to what took their places. -/
theorem RanList.again {g : κ → Pass ExprId} {f : ι → ExprId → κ} (hf : Fresh p)
    (hg : ∀ {s i e' s'}, Ran p (depth s) s (exprOf i) e' s' → C i e' s' → Lasts s'.program q →
      Again q s s' (g (f i e')) e')
    (h : RanList p depth exprOf C s xs es s') (hl : Lasts s'.program q) :
    Again q s s' ((List.zipWith f xs es).mapM g) es := by
  induction h with
  | nil s => exact Idle.pure.again (.refl s)
  | cons first holds rest ih =>
    rw [List.zipWith_cons_cons, List.mapM_cons]
    exact (hg first holds ((rest.lasts hf).trans hl)).bind
      ((ih hl).bind (Idle.pure.again (.refl _)))

theorem RanList.mapM_again {g : ExprId → Pass ExprId} (hf : Fresh p)
    (hg : ∀ {s i e' s'}, Ran p (depth s) s (exprOf i) e' s' → C i e' s' → Lasts s'.program q →
      Again q s s' (g e') e')
    (h : RanList p depth exprOf C s xs es s') (hl : Lasts s'.program q) :
    Again q s s' (es.mapM g) es := by
  have hzip : List.zipWith (fun _ e => e) xs es = es :=
    List.ext_getElem (by simp [h.length]) (by simp)
  have hagain := h.again (f := fun _ e => e) hf hg hl
  rwa [hzip] at hagain

end

/-- A value is not the name of a class or an enumeration. -/
theorem Settled.ownerScope_idle (h : Settled q e) : Idle q s (ownerScope e) none := by
  obtain @⟨_, m, hm, -⟩ := h.whole
  refine (Idle.node hm).bind ?_
  split
  · rename_i text symbol hk
    obtain ⟨found, rfl, hproper, -⟩ := h.name m text symbol hm hk
    refine Idle.bind .pure ?_
    cases found with
    | classDecl _ => exact hproper.elim
    | enumDecl _ => exact hproper.elim
    | _ => exact .pure
  · exact .pure

/-- A variable is bound again where the first run bound it. -/
theorem Again.define {T : ScopeTable} {line : UInt32} {name : String} {symbol : Symbol}
    (h : s.table.define? s.table.current name symbol = .ok (some T)) (hl : symbol.isLocal) :
    Again q s { s with table := T } (Pass.define line name symbol) () := by
  intro t ht hm
  obtain ⟨T', hT', hm'⟩ := hm.define h hl
  exact ⟨_, define_eq_ok.2 ⟨T', hm.current ▸ hT', rfl⟩, ht, hm'⟩

theorem Idle.updateVar {v : VarId} {d : Var} {f : Var → Var} (h : q.vars.get? v = some d)
    (hd : f d = d) : Idle q s (change (·.updateVar v f)) () := by
  refine .of_program fun u hu => updateVar_eq_ok.2 ⟨d, hu ▸ h, ?_⟩
  rw [hd, State.setVar, set_get? (hu ▸ h)]

section

variable {N : Nat}
  (ih : ∀ {s e e' s'}, Ran p n s e e' s' → Lasts s'.program q → ∀ N, n ≤ N →
    Again q s s' ((callsWithin N).expr e') e')
  (iht : ∀ {s e t s'}, RanType p n s e t s' → Lasts s'.program q → ∀ N, n ≤ N →
    Idle q s ((callsWithin N).type e) t)
  (ihc : ∀ {s k s'}, RanConst p n s k s' → Lasts s'.program q → ∀ N, n ≤ N →
    Idle q s ((callsWithin N).const k) ())

include ih

theorem Started.again {v : VarId} {d : Var} {value value' : Option ExprId} (hp : p.TreeShaped)
    (hf : Fresh p) (h : Started p n t s value value' s') (hl : Lasts s'.program q)
    (hd : q.vars.get? v = .some d) (hv : d.value = value') (hN : n ≤ N) :
    Again q s s' (startValue (callsWithin N) v t value') () := by
  cases h with
  | none => exact Idle.pure.again (.refl s)
  | some run fits =>
    have hfits := fits.later (run.settled hp hf).whole hl
    refine (ih run hl N hN).bind (((Idle.coerce hfits).bind (.updateVar hd ?_)).again (.refl s'))
    rw [← hv]

variable (hp : p.TreeShaped) (hf : Fresh p) (hN : n ≤ N)

/-! ### One form after the other -/

section

include hp hf hN

section

variable (hl : Lasts s'.program q)

include hl

theorem again_before {op : PrefixOp} {inner' : ExprId} (node : p.exprs.get? e = some m)
    (kind : m.kind = .before op inner) (operand : Ran p n s inner inner' s1)
    (still : s1.program.exprs.get? e = some m)
    (ends : beforeEnd e inner' op (s1.put e { m with kind := .before op inner' }) = .ok e' s')
    (hno : ¬ s'.program.TypedLiteral e') :
    Again q s s' ((callsWithin (N + 1)).expr e') e' := by
  have ht := hf.untyped node
  have hback : Lasts s1.program (s1.put e { m with kind := .before op inner' }).program :=
    .put_back hf node still (by simp [kind]) rfl
  have hend := settles_beforeEnd _ _ ends
  obtain ⟨hput, ⟨hmem, -⟩ | ⟨rfl, ty, hself, hidle⟩⟩ := hend.again (get?_put_self still) ht hl hno
    (by simpa using (operand.settled hp hf).whole.later hback)
  · simp at hmem
  have hends : Again q s s' (do
      let inner ← innerBefore (callsWithin N) e' op inner'
      beforeEnd e' inner op) e' := by
    have hreplace : Idle q s1 (replace e' (.before op inner')) () := .replace hself rfl
    have hinner : Again q s s1 (innerBefore (callsWithin N) e' op inner') inner' := by
      refine (ih operand (hback.trans hput) N hN).bind (Idle.again ?_ (.refl _))
      exact hreplace.bind .pure
    exact hinner.bind ((hidle.grows (.put _ _ _)).again ((Grows.put _ _ _).trans hend.grows))
  refine (Idle.node hself).bind_again ?_
  cases op with
  | new => simp [beforeEnd] at ends
  | less => simp [beforeEnd] at ends
  | lessOrEqual => simp [beforeEnd] at ends
  | _ => exact hends

theorem again_after {op : PostfixOp} {inner' : ExprId} (node : p.exprs.get? e = some m)
    (kind : m.kind = .after op inner) (mark : op ≠ .bang) (operand : Ran p n s inner inner' s1)
    (still : s1.program.exprs.get? e = some m)
    (ends : afterEnd e inner' (s1.put e { m with kind := .after op inner' }) = .ok e' s')
    (hno : ¬ s'.program.TypedLiteral e') :
    Again q s s' ((callsWithin (N + 1)).expr e') e' := by
  have ht := hf.untyped node
  have hback : Lasts s1.program (s1.put e { m with kind := .after op inner' }).program :=
    .put_back hf node still (by simp [kind]) rfl
  have hend := settles_afterEnd _ _ ends
  obtain ⟨hput, ⟨hmem, -⟩ | ⟨rfl, ty, hself, hidle⟩⟩ := hend.again (get?_put_self still) ht hl hno
    (by simpa using (operand.settled hp hf).whole.later hback)
  · simp at hmem
  have hreplace : Idle q s1 (replace e' (.after op inner')) () := .replace hself rfl
  have hends : Again q s s' (steppedAfter (callsWithin N) e' op inner') e' :=
    (ih operand (hback.trans hput) N hN).bind ((hreplace.bind (hidle.grows (.put _ _ _))).again
      ((Grows.put _ _ _).trans hend.grows))
  refine (Idle.node hself).bind_again ?_
  cases op with
  | bang => exact absurd rfl mark
  | _ => exact hends

theorem again_binary {op : BinaryOp} {left' right' : ExprId} (node : p.exprs.get? e = some m)
    (kind : m.kind = .binary op left (.expr right)) (notDot : op ≠ .dot) (notCall : op ≠ .call)
    (first : Ran p n s left left' s1) (second : Ran p n s1 right right' s2)
    (still : s2.program.exprs.get? e = some m)
    (ends : operation e op left' right'
      (s2.put e { m with kind := .binary op left' (.expr right') }) = .ok e' s')
    (hno : ¬ s'.program.TypedLiteral e') :
    Again q s s' ((callsWithin (N + 1)).expr e') e' := by
  have ht := hf.untyped node
  have hback : Lasts s2.program
      (s2.put e { m with kind := .binary op left' (.expr right') }).program :=
    .put_back hf node still (by simp [kind]) rfl
  have hend := Settles.operation _ _ ends
  obtain ⟨hput, ⟨hmem, rfl⟩ | ⟨rfl, ty, hself, hidle⟩⟩ :=
    hend.again (get?_put_self still) ht hl hno
    (by simpa using ⟨(first.settled hp hf).whole.later ((second.lasts hf).trans hback),
      (second.settled hp hf).whole.later hback⟩)
  · obtain rfl := List.mem_singleton.1 hmem
    exact (ih second (hback.trans hput) (N + 1) (Nat.le_succ_of_le hN)).widen first.grows
      (.put _ _ _)
  have hreplace : Idle q s2 (replace e' (.binary op left' (.expr right'))) () :=
    .replace hself rfl
  have hends : Again q s s' (Resolve.binary (callsWithin N) e' op left' (.expr right')) e' :=
    (ih first ((second.lasts hf).trans (hback.trans hput)) N hN).bind
      ((ih second (hback.trans hput) N hN).bind
        ((hreplace.bind (hidle.grows (.put _ _ _))).again ((Grows.put _ _ _).trans hend.grows)))
  refine (Idle.node hself).bind_again ?_
  cases op with
  | dot => exact absurd rfl notDot
  | call => exact absurd rfl notCall
  | _ => exact hends

theorem again_conditional {c c' a a' b b' : ExprId} {s3 : State} (node : p.exprs.get? e = some m)
    (kind : m.kind = .conditional c a b) (condition : Ran p n s c c' s1)
    (boolean : Coerces s1.program c' .bool) (first : Ran p n s1 a a' s2)
    (second : Ran p n s2 b b' s3) (still : s3.program.exprs.get? e = some m)
    (ends : choice e c' a' b' (s3.put e { m with kind := .conditional c' a' b' }) = .ok e' s')
    (hno : ¬ s'.program.TypedLiteral e') :
    Again q s s' ((callsWithin (N + 1)).expr e') e' := by
  have ht := hf.untyped node
  have hback : Lasts s3.program (s3.put e { m with kind := .conditional c' a' b' }).program :=
    .put_back hf node still (by simp [kind]) rfl
  have hend := Settles.choice _ _ ends
  have hlater := (first.lasts hf).trans (second.lasts hf)
  obtain ⟨hput, ⟨hmem, rfl⟩ | ⟨rfl, ty, hself, hidle⟩⟩ :=
    hend.again (get?_put_self still) ht hl hno
    (by simpa using ⟨(condition.settled hp hf).whole.later (hlater.trans hback),
      (first.settled hp hf).whole.later ((second.lasts hf).trans hback),
      (second.settled hp hf).whole.later hback⟩)
  · have hN' := Nat.le_succ_of_le hN
    simp only [List.mem_cons, List.not_mem_nil, or_false] at hmem
    obtain rfl | rfl := hmem
    · exact (ih first ((second.lasts hf).trans (hback.trans hput)) (N + 1) hN').widen
        condition.grows (second.grows.trans (.put _ _ _))
    · exact (ih second (hback.trans hput) (N + 1) hN').widen (condition.grows.trans first.grows)
        (.put _ _ _)
  have hcond : Again q s s1 (Resolve.condition (callsWithin N).expr c') c' := by
    have hlast := hlater.trans (hback.trans hput)
    refine (ih condition hlast N hN).bind (Idle.again ?_ (.refl _))
    exact (Idle.coerce (boolean.later (condition.settled hp hf).whole hlast)).bind .pure
  have hreplace : Idle q s3 (replace e' (.conditional c' a' b')) () := .replace hself rfl
  exact (Idle.node hself).bind_again (hcond.bind
    ((ih first ((second.lasts hf).trans (hback.trans hput)) N hN).bind
      ((ih second (hback.trans hput) N hN).bind
        ((hreplace.bind (hidle.grows (.put _ _ _))).again ((Grows.put _ _ _).trans hend.grows)))))

end

theorem again_call {callee callee' : ExprId} {args args' : List ExprId} {f : MethodId} {d : Method}
    (node : p.exprs.get? e = some m) (kind : m.kind = .binary .call callee (.args args))
    (function : Ran p n s callee callee' s1)
    (symbol : s1.program.symbolOf callee' = .ok (some (.method f)))
    (method : s1.program.methods.get? f = some d) (count : d.params.length = args.length)
    (arguments : RanList p (fun _ => n) Prod.fst Passes s1 (args.zip d.params) args' s2)
    (still : s2.program.exprs.get? e = some m)
    (hl : Lasts (s2.put e { m with
      kind := .binary .call callee' (.args args'), ty := some (d.ty.getD .void) }).program q) :
    Again q s (s2.put e { m with
      kind := .binary .call callee' (.args args'), ty := some (d.ty.getD .void) })
      ((callsWithin (N + 1)).expr e) e := by
  have hself := hl.exprs e _ (get?_put_self still) (by simp)
  have hlen : args'.length = args.length := by
    rw [arguments.length, List.length_zip, count, Nat.min_self]
  have hback : Lasts s2.program q := by
    refine .trans ?_ hl
    refine .put_back hf node still ?_ rfl
    simp [kind, List.map_const', hlen]
  have hfirst := (arguments.lasts hf).trans hback
  obtain ⟨⟨d1, hd1, hty⟩, -⟩ := (function.settled hp hf).proper symbol
  obtain rfl := method.some_unique hd1
  obtain ⟨d', hd', -, hd⟩ := hfirst.methods f d method
  obtain rfl := hd hty
  have hsymbol : q.symbolOf callee' = .ok (some (.method f)) :=
    ((function.settled hp hf).whole.alike hfirst).symbolOf hfirst.size_le symbol
  have hargs : Again q s1 s2 ((args'.zip d'.params).mapM fun i =>
      argument (callsWithin N) i.1 i.2) args' := by
    have hzip : List.zipWith (fun (i : ExprId × VarId) a => (a, i.2)) (args.zip d'.params) args' =
        args'.zip d'.params :=
      List.ext_getElem (by simp [hlen, count]) (by simp)
    rw [← hzip]
    refine arguments.again hf (fun {s i a s'} run hpass hl => ?_) hback
    obtain ⟨d, t, hd, ht, hfits⟩ := hpass
    refine (ih run hl N hN).bind (Idle.again ?_ (.refl _))
    refine (Idle.ask (fetch_ok.2 (hl.vars i.2 d hd (by simp [ht])))).bind ?_
    rw [ht]
    exact (Idle.coerce (hfits.later (run.settled hp hf).whole hl)).bind .pure
  have hends : Idle q s2 (do
      replace e (.binary .call callee' (.args args'))
      typed e ((← ask (·.methods.fetch f)).ty.getD .void)) e :=
    (Idle.replace hself rfl).bind ((Idle.ask (fetch_ok.2 hd')).bind (.typed hself rfl))
  have hcall : Again q s1 s2 (callOf (callsWithin N) e callee' f args') e := by
    refine (Idle.ask (fetch_ok.2 hd')).bind_again ?_
    rw [if_pos (count.trans hlen.symm)]
    exact hargs.bind (hends.again (.refl _))
  refine (Idle.node hself).bind_again (Again.widen ?_ (.refl _) (.put _ _ _))
  have hask : Idle q s1 (ask (·.symbolOf callee')) (some (.method f)) := .ask hsymbol
  exact (ih function hfirst N hN).bind (hask.bind_again hcall)

theorem again_collection {items rest' : List ExprId} {first' : ExprId} {t u : Ty}
    (node : p.exprs.get? e = some m) (kind : m.kind = .collection items)
    (list : RanList p (fun _ => n) id (fun _ _ _ => True) s items (first' :: rest') s1)
    (value : s1.program.valueTy first' = .ok t) (common : commonTy t rest' s1 = .ok u s1)
    (size : rest'.length + 1 < UInt32.size) (still : s1.program.exprs.get? e = some m)
    (hl : Lasts (s1.put e { m with
      kind := .collection (first' :: rest'),
      ty := some (.arrayStorage u (UInt32.ofNat (rest'.length + 1))) }).program q) :
    Again q s (s1.put e { m with
      kind := .collection (first' :: rest'),
      ty := some (.arrayStorage u (UInt32.ofNat (rest'.length + 1))) })
      ((callsWithin (N + 1)).expr e) e := by
  have hself := hl.exprs e _ (get?_put_self still) (by simp)
  have hback : Lasts s1.program q := by
    refine .trans ?_ hl
    refine .put_back hf node still ?_ rfl
    simp only [kind, Expr.outline, List.map_const', list.length]
  have hitems : Again q s s1 ((first' :: rest').mapM (callsWithin N).expr)
      (first' :: rest') :=
    list.mapM_again hf (fun run _ hl => ih run hl N hN) hback
  have hsettled := fun x hx => (list.settled hf (fun h => h.settled hp hf) x hx).whole
  have hcommon : Idle q s1 (commonTy t rest') u := by
    have hecho := (Echo.commonTy (fun l hl => hl) u s1 common).2
    exact .of_program fun t ht => hecho t (ht ▸ ⟨hback, fun l hl =>
      (hsettled l (by simp [hl])).alike hback⟩)
  have hvalue := ((hsettled first' (by simp)).alike hback).valueTy value
  have hends : Idle q s1 (do
      let t ← commonTy (← valueTy first') rest'
      let length := rest'.length + 1
      if UInt32.size ≤ length then failAt e .integerTooBig
      else
        replace e (.collection (first' :: rest'))
        typed e (.arrayStorage t (UInt32.ofNat length))) e := by
    refine (Idle.valueTy hvalue).bind (hcommon.bind ?_)
    rw [if_neg (Nat.not_le.2 size)]
    exact (Idle.replace hself rfl).bind (.typed hself rfl)
  exact (Idle.node hself).bind_again (hitems.bind (hends.again (.put _ _ _)))

end

section

include iht hp hf hN

theorem again_newArray {mi : ExprNode} {length length' : ExprId} {t u : Ty}
    (hfit : Fit p s (.expr e)) (node : p.exprs.get? e = some m) (kind : m.kind = .before .new inner)
    (inode : p.exprs.get? inner = some mi) (ikind : mi.kind = .binary .index left (.expr length))
    (element : RanType p n s left t s1) (count : Ran p n s1 length length' s2)
    (still : s2.program.exprs.get? e = some m) (istill : s2.program.exprs.get? inner = some mi)
    (value : (s2.put inner { mi with kind := .binary .index left (.expr length') }).program.valueTy
      length' = .ok u)
    (fits : (u.isInteger && !u.isLong) = true)
    (hl : Lasts ((s2.put inner ⟨.binary .index left (.expr length'), mi.line,
      some (.arrayPointer t true)⟩).put e { m with ty := some (.arrayPointer t true) }).program q) :
    Again q s ((s2.put inner ⟨.binary .index left (.expr length'), mi.line,
      some (.arrayPointer t true)⟩).put e { m with ty := some (.arrayPointer t true) })
      ((callsWithin (N + 1)).expr e) e := by
  have hne : inner ≠ e := hfit.ne_part node (by simp [kind])
  have hself := hl.exprs e _ (get?_put_self ((get?_put_of_ne hne).trans still)) (by simp)
  have hinner :=
    hl.exprs inner _ ((get?_put_of_ne hne.symm).trans (get?_put_self istill)) (by simp)
  have hmid : Lasts s2.program (s2.put inner { mi with
      kind := .binary .index left (.expr length') }).program :=
    .put_back hf inode istill (by simp [ikind]) rfl
  have hput : Lasts s2.program (s2.put inner ⟨.binary .index left (.expr length'), mi.line,
      some (.arrayPointer t true)⟩).program :=
    .put_back hf inode istill (by simp [ikind]) rfl
  have hback : Lasts s2.program q := by
    refine hput.trans (.trans ?_ hl)
    exact .put_back hf node ((get?_put_of_ne hne).trans still) rfl rfl
  have hvalue : q.valueTy length' = .ok u := by
    have hlen := (count.settled hp hf).whole.alike hmid
    obtain @⟨_, ml, hml, -⟩ := (count.settled hp hf).whole
    obtain ⟨ml', hml', hu⟩ := valueTy_ok.1 value
    obtain rfl := (hlen.node ml hml).some_unique hml'
    exact valueTy_ok.2 ⟨ml, ((count.settled hp hf).whole.alike hback).node ml hml, hu⟩
  have hchecked : Idle q s2 (do
      replace inner (.binary .index left (.expr length'))
      let u ← valueTy length'
      if u.isInteger && !u.isLong then
        record inner (.arrayPointer t true)
        typed e (.arrayPointer t true)
      else mismatchAt length' "int" u) e := by
    refine (Idle.replace hinner rfl).bind ((Idle.valueTy hvalue).bind ?_)
    rw [if_pos fits]
    exact (Idle.record hinner rfl).bind (.typed hself rfl)
  have harray : Again q s s2 (Resolve.newArray (callsWithin N) e inner left length') e :=
    ((iht element ((count.lasts hf).trans hback) N hN).again element.grows).bind
      ((ih count hback N hN).bind (hchecked.again (.refl _)))
  refine (Idle.node hself).bind_again ?_
  rw [kind]
  refine (Idle.node hinner).bind_again (harray.widen (.refl _) ?_)
  exact (Grows.put _ _ _).trans (.put _ _ _)

omit ih hp in
theorem again_newObject {mi : ExprNode} {c : ClassId} (node : p.exprs.get? e = some m)
    (kind : m.kind = .before .new inner) (inode : s.program.exprs.get? inner = some mi)
    (ikind : ∀ left length, mi.kind ≠ .binary .index left (.expr length))
    (object : RanType p n s inner (.classStorage c) s1) (still : s1.program.exprs.get? e = some m)
    (hl : Lasts (s1.put e { m with ty := some (.classPointer c true) }).program q) :
    Again q s (s1.put e { m with ty := some (.classPointer c true) })
      ((callsWithin (N + 1)).expr e) e := by
  have hself := hl.exprs e _ (get?_put_self still) (by simp)
  have hback : Lasts s1.program q := by
    refine .trans ?_ hl
    exact .put_back hf node still rfl rfl
  obtain ⟨mi', hmi', ho⟩ := ((object.lasts hf).trans hback).outlines inner mi inode
  have hobject : Again q s s1 (Resolve.newObject (callsWithin N) e inner) e :=
    ((iht object hback N hN).again object.grows).bind ((Idle.typed hself rfl).again (.refl _))
  refine (Idle.node hself).bind_again ?_
  rw [kind]
  refine (Idle.node hmi').bind_again ?_
  split
  · rename_i left length hk
    rw [hk] at ho
    cases hmi : mi.kind with
    | binary _ _ r => cases r <;> simp_all
    | _ => simp [hmi] at ho
  · exact hobject.widen (.refl _) (.put _ _ _)

theorem again_var {v : VarId} {d : Var} {t : Ty} {value' : Option ExprId} {table : ScopeTable}
    (node : p.exprs.get? e = some m) (kind : m.kind = .var v) (vnode : p.vars.get? v = some d)
    (type : RanType p n s d.typeExpr t s1) (started : Started p n t s1 d.value value' s2)
    (still : s2.program.exprs.get? e = some m) (vstill : s2.program.vars.get? v = some d)
    (binds : s2.table.define? s2.table.current d.name (.var v) = .ok (some table))
    (hl : Lasts ({ s2.setVar v { d with value := value', ty := some t } with
      table := table }.put e { m with ty := some t }).program q) :
    Again q s ({ s2.setVar v { d with value := value', ty := some t } with
      table := table }.put e { m with ty := some t }) ((callsWithin (N + 1)).expr e) e := by
  have hvar : q.vars.get? v = some { d with value := value', ty := some t } :=
    hl.vars v _ (Arena.get?_set_self vstill) (by simp)
  have hself := hl.exprs e _ (get?_put_self (s := { s2.setVar v { d with
    value := value', ty := some t } with table := table }) still) (by simp)
  have hset : Lasts s2.program
    (s2.setVar v { d with value := value', ty := some t }).program := by
    refine .setVar vstill (hf.vars d (mem_toList_of_get? vnode)) ?_
    simp [Var.outline, started.outline]
  have hback : Lasts s2.program q := by
    refine hset.trans (.trans ?_ hl)
    exact .put_back (s := { s2.setVar v _ with table := table }) hf node still rfl rfl
  have hfetch : Idle q s (ask (·.vars.fetch v)) { d with value := value', ty := some t } :=
    .ask (fetch_ok.2 hvar)
  have htype := (iht type ((started.lasts hf).trans hback) N hN).again type.grows
  have hstart := started.again ih hp hf hback hvar rfl hN
  have hbinds : Again q s2 _ (do
      change (·.updateVar v fun d => { d with ty := some t })
      define (← Pass.node e).line d.name (.var v)
      typed e t) e :=
    (Idle.updateVar hvar rfl).bind_again ((Idle.node hself).bind_again
      ((Again.define binds rfl).bind ((Idle.typed hself rfl).again (.refl _))))
  refine (Idle.node hself).bind_again ?_
  rw [kind]
  refine (hfetch.bind_again (htype.bind (hstart.bind hbinds))).widen (.refl _) ?_
  exact .set_program _ _

end

section

variable (hfit : Fit p s (.expr e)) (hl : Lasts s'.program q)
  (hno : ¬ s'.program.TypedLiteral e')

include ihc hp hf hN hfit hl hno

omit ih in
theorem again_ownerMember {mm ml : ExprNode} {member r : ExprId} {text owner : String}
    {found : Symbol} {scope : ScopeId} {ty : Ty} (hg : Grows s s') (node : p.exprs.get? e = some m)
    (kind : m.kind = .binary .dot left (.expr member)) (mnode : p.exprs.get? member = some mm)
    (mkind : mm.kind = .name text none) (lnode : p.exprs.get? left = some ml)
    (opens : OwnerAt s found scope ty)
    (named : Named p n (s.put left { ml with kind := .name owner (some found), ty := some ty })
      ScopeTable.lookupMember scope member mm text r s1)
    (accessed : Accessed e m member s1 r e' s') :
    Again q s s' ((callsWithin (N + 1)).expr e') e' := by
  have hne : left ≠ member := by
    simpa [kind] using hp.children_nodup node
  have hleft := hfit.node_child node (by simp [kind]) lnode
  have hmember : (s.put left { ml with
      kind := .name owner (some found), ty := some ty }).program.exprs.get? member = some mm :=
    (get?_put_of_ne hne).trans (hfit.node_child node (by simp [kind]) mnode)
  obtain ⟨rfl, hfrom⟩ := accessed.idle (fun h hl => ihc h hl N hN) (hf.untyped node) hl hno named
    hmember (hf.untyped mnode)
  cases accessed with
  | folded ne => exact absurd (named.ends.resolve_left ne) hno
  | kept _ still =>
    have hself := hl.exprs e' _ (get?_put_self still) (by simp)
    have hback : Lasts s1.program q := by
      refine .trans ?_ hl
      exact .put_back hf node still rfl rfl
    have hbound := (Lasts.named hf named hmember (hf.untyped mnode) mkind).trans hback
    have hql := hbound.exprs left _ (get?_put_self hleft) (by simp)
    obtain ⟨_, -, hb⟩ := named.bound hmember
    obtain ⟨mm', hqm, hmk, -⟩ := (hb.later hback).node
    have howner : Idle q s (ownerScope left) (some scope) := by
      refine (Idle.node hql).bind (Idle.bind .pure ?_)
      have hbind : Idle q s (bindOwner left owner found ty) () :=
        (Idle.replace hql rfl).bind (.record hql rfl)
      cases opens with
      | classDecl at_ => exact (Idle.classScope at_).bind (hbind.bind .pure)
      | enumDecl at_ => exact (Idle.enumScope at_).bind (hbind.bind .pure)
    have hnamed : Idle q s (memberNamed (callsWithin N) e' left member text) e' :=
      howner.bind (hfrom.grows (.put _ _ _))
    refine ((Idle.node hself).bind ?_).again hg
    rw [kind]
    refine (Idle.node hqm).bind ?_
    rw [hmk]
    exact hnamed

theorem again_valueMember {mm : ExprNode} {left' member : ExprId} {text : String} {ty : Ty}
    (node : p.exprs.get? e = some m) (kind : m.kind = .binary .dot left (.expr member))
    (mnode : p.exprs.get? member = some mm) (mkind : mm.kind = .name text none)
    (value : Ran p n s left left' s1) (still : s1.program.exprs.get? e = some m)
    (mstill : s1.program.exprs.get? member = some mm)
    (type : (s1.put e { m with kind := .binary .dot left' (.expr member) }).program.valueTy left'
      = .ok ty)
    (ofValue : OfValue p n e { m with kind := .binary .dot left' (.expr member) } left' member mm
      text (s1.put e { m with kind := .binary .dot left' (.expr member) }) ty e' s') :
    Again q s s' ((callsWithin (N + 1)).expr e') e' := by
  have hne : e ≠ member :=
    (hfit.ne_part node (by simp [kind])).symm
  have ht := hf.untyped node
  have hback : Lasts s1.program
      (s1.put e { m with kind := .binary .dot left' (.expr member) }).program :=
    .put_back hf node still (by simp [kind]) rfl
  have hmember : (s1.put e { m with
      kind := .binary .dot left' (.expr member) }).program.exprs.get? member = some mm :=
    (get?_put_of_ne hne).trans mstill
  have hof := Lasts.ofValue hf ofValue (get?_put_self still) ht hmember
    (hf.untyped mnode) mkind hne
  have hlast := hback.trans (hof.trans hl)
  obtain ⟨rfl, ⟨_, hself⟩, hvalue⟩ := ofValue.again (fun h hl => ihc h hl N hN)
    ((ih value hlast N hN).widen (.refl _) (.put _ _ _)) hl hno (get?_put_self still) ht rfl
    hmember (hf.untyped mnode) mkind hne ((value.settled hp hf).whole.later hback) type hf
  obtain ⟨mm', symbol, hmm', hmk⟩ := (hof.trans hl).name hmember mkind
  have hnamed : Again q s s' (memberNamed (callsWithin N) e' left' member text) e' :=
    ((value.settled hp hf).later hlast).ownerScope_idle.bind_again hvalue
  refine (Idle.node hself).bind_again ((Idle.node hmm').bind_again ?_)
  rw [hmk]
  exact hnamed

end

include iht ihc hp hf hN

/-- What took the place of an expression stands for itself, whatever the form. -/
theorem Step.again (hfit : Fit p s (.expr e)) (h : Step p n s e e' s') (hg : Grows s s')
    (hl : Lasts s'.program q) : Again q s s' ((callsWithin (N + 1)).expr e') e' := by
  by_cases hno : s'.program.TypedLiteral e'
  · exact (literal_idle (hl.typedLiteral hno)).again hg
  cases h with
  | @literal m v node kind =>
    refine absurd ⟨v, m.line, ?_⟩ hno
    rw [← kind]
    exact get?_put_self node
  | name node kind named =>
    obtain ⟨rfl, hidle⟩ := named.idle (fun h hl => ihc h hl N hN) (hf.untyped node) hl hno
    obtain ⟨found, -, hb⟩ := named.bound (hfit.node node)
    obtain ⟨m', hm', hk, -⟩ := (hb.later hl).node
    refine ((Idle.node hm').bind ?_).again hg
    rw [hk]
    exact .get fun u hu hmir => by rw [hmir.current]; exact hidle
  | before node kind operand still ends =>
    exact again_before ih hp hf hN hl node kind operand still ends hno
  | newArray node kind inode ikind element count still istill value fits =>
    exact again_newArray ih iht hp hf hN hfit node kind inode ikind element count still istill value
      fits hl
  | newObject node kind inode ikind object still =>
    exact again_newObject iht hf hN node kind inode ikind object still hl
  | after node kind mark operand still ends =>
    exact again_after ih hp hf hN hl node kind mark operand still ends hno
  | ownerMember node kind mnode mkind lnode _ _ opens named accessed =>
    exact again_ownerMember ihc hp hf hN hfit hl hno hg node kind mnode mkind lnode opens named
      accessed
  | valueMember node kind mnode mkind value still mstill type ofValue =>
    exact again_valueMember ih ihc hp hf hN hfit hl hno node kind mnode mkind value still mstill
      type ofValue
  | call node kind function symbol method count arguments still =>
    exact again_call ih hp hf hN node kind function symbol method count arguments still hl
  | binary node kind notDot notCall first second still ends =>
    exact again_binary ih hp hf hN hl node kind notDot notCall first second still ends hno
  | conditional node kind condition boolean first second still ends =>
    exact again_conditional ih hp hf hN hl node kind condition boolean first second still ends hno
  | collection node kind list value common size still =>
    exact again_collection ih hp hf hN node kind list value common size still hl
  | var node kind vnode type started still vstill binds =>
    exact again_var ih iht hp hf hN node kind vnode type started still vstill binds hl

end

/-! ## All rules -/

/-- A constant is where it was, and has been resolved. -/
theorem StepConst.idle {k : ConstId} (h : StepConst p n s k s') (hl : Lasts s'.program q)
    (hlast : Lasts s.program q) : Idle q s ((callsWithin (d + 1)).const k) () := by
  cases h with
  | skipped found resolved placed =>
    exact const_idle (hl.consts k _ found resolved) resolved placed hlast.classes hlast.enums
  | visited _ _ _ placed _ _ still =>
    exact const_idle (hl.consts k _ (Arena.get?_set_self still) rfl) rfl placed hlast.classes
      hlast.enums

section

variable (hp : p.TreeShaped) (hf : Fresh p)

include hp hf

theorem each_again (n : Nat) :
    Each p
      (fun n s _ e' s' => Grows s s' → ∀ q, Lasts s'.program q → ∀ N, n ≤ N →
        Again q s s' ((callsWithin N).expr e') e')
      (fun n s e t s' => ∀ q, Lasts s'.program q → ∀ N, n ≤ N →
        Idle q s ((callsWithin N).type e) t)
      (fun n s k s' => Lasts s.program s'.program → ∀ q, Lasts s'.program q → ∀ N, n ≤ N →
        Idle q s ((callsWithin N).const k) ()) n := by
  have hpos : ∀ {n N : Nat}, n + 1 ≤ N → ∃ N', N = N' + 1 ∧ n ≤ N' := fun {n N} h => by
    obtain ⟨N', rfl⟩ := Nat.exists_eq_add_one_of_ne_zero (Nat.ne_of_gt (Nat.zero_lt_of_lt h))
    exact ⟨N', rfl, Nat.le_of_succ_le_succ h⟩
  refine Each.all hp hf (fun n ih s e e' s' hfit h hg q hl N hN => ?_)
    (fun n ih s e t s' hfit h q hl N hN => ?_) (fun n ih s k s' _ h hlast q hl N hN => ?_) n
  · obtain ⟨N, rfl, hle⟩ := hpos hN
    exact h.again (fun run => ih.expr run run.grows q) (fun run => ih.type run q)
      (fun run => ih.const run (run.lasts hf) q) hp hf hle hfit hg hl
  · obtain ⟨N, rfl, hle⟩ := hpos hN
    refine h.idle hp hf hfit hl fun hn {s l} hlit => ?_
    obtain ⟨N, rfl⟩ := Nat.exists_eq_add_one_of_ne_zero (Nat.ne_of_gt (Nat.lt_of_lt_of_le hn hle))
    exact literal_idle hlit
  · obtain ⟨N, rfl, -⟩ := hpos hN
    exact h.idle hl (hlast.trans hl)

/-- What took the place of an expression stands for itself when it is resolved again. -/
theorem Ran.again (h : Ran p n s e e' s') (hl : Lasts s'.program q) (hN : n ≤ N) :
    Again q s s' ((callsWithin N).expr e') e' :=
  (each_again hp hf n).expr h h.grows q hl N hN

theorem RanType.idle (h : RanType p n s e t s') (hl : Lasts s'.program q) (hN : n ≤ N) :
    Idle q s ((callsWithin N).type e) t :=
  (each_again hp hf n).type h q hl N hN

theorem RanConst.idle {k : ConstId} (h : RanConst p n s k s') (hl : Lasts s'.program q)
    (hN : n ≤ N) : Idle q s ((callsWithin N).const k) () :=
  (each_again hp hf n).const h (h.lasts hf) q hl N hN

end

end Ci
