-- Parts of a pass that are run again, on the program that has come out of the first
-- run. From a place like the one where it started, a part gives the same again,
-- changes nothing in the program, and ends in a place like the one where it ended.
import Ci.Proofs.Idempotence.Mirrors

namespace Ci

open Pass Resolve Arena

variable {α β : Type} {p q r : Program} {s s1 s2 s' : State} {y : Pass α} {a : α} {g : α → Pass β}
  {b : β} {e : ExprId} {m : ExprNode} {kind : Expr} {ty : Ty} {k : ConstId} {x : Node}
  {i scope : ScopeId} {n : Nat}

/-- What has led from one state to another gives the same when it is run again. -/
def Again (q : Program) (s s' : State) (y : Pass α) (a : α) : Prop :=
  ∀ t, t.program = q → Mirrors s t → ∃ t', y t = .ok a t' ∧ t'.program = q ∧ Mirrors s' t'

/-- A part that gives an answer and does nothing more when it is run again. -/
def Idle (q : Program) (s : State) (y : Pass α) (a : α) : Prop :=
  ∀ t, t.program = q → Mirrors s t → y t = .ok a t

/-! ## Steps -/

theorem Again.bind (hy : Again q s s1 y a) (hg : Again q s1 s' (g a) b) :
    Again q s s' (y >>= g) b := by
  intro t ht hm
  obtain ⟨t1, hy, ht1, hm1⟩ := hy t ht hm
  obtain ⟨t2, hg, ht2, hm2⟩ := hg t1 ht1 hm1
  exact ⟨t2, (Pass.bind_ok hy).trans hg, ht2, hm2⟩

theorem Again.get {g : State → Pass β}
    (h : ∀ t, t.program = q → Mirrors s t → Again q s s' (g t) b) :
    Again q s s' (MonadState.get >>= g) b :=
  fun t ht hm => h t ht hm t ht hm

/-- The first run may have gone on before and after. -/
theorem Again.widen (h : Again q s1 s2 y a) (hs : Grows s s1) (hs' : Grows s2 s') :
    Again q s s' y a := by
  intro t ht hm
  obtain ⟨t', hy, ht', hm'⟩ := h t ht (hm.grows hs)
  exact ⟨t', hy, ht', hm'.grows hs'⟩

namespace Idle

theorem again (h : Idle q s y a) (hg : Grows s s') : Again q s s' y a :=
  fun t ht hm => ⟨t, h t ht hm, ht, hm.grows hg⟩

theorem grows (h : Idle q s1 y a) (hg : Grows s s1) : Idle q s y a :=
  fun t ht hm => h t ht (hm.grows hg)

theorem bind (hy : Idle q s y a) (hg : Idle q s (g a) b) : Idle q s (y >>= g) b :=
  fun t ht hm => (Pass.bind_ok (hy t ht hm)).trans (hg t ht hm)

theorem bind_again (hy : Idle q s y a) (hg : Again q s s' (g a) b) : Again q s s' (y >>= g) b := by
  intro t ht hm
  obtain ⟨t', hg, ht', hm'⟩ := hg t ht hm
  exact ⟨t', (Pass.bind_ok (hy t ht hm)).trans hg, ht', hm'⟩

theorem pure : Idle q s (pure a) a := fun _ _ _ => rfl

/-- A part that gives the answer wherever it stands. -/
theorem of_program (h : ∀ t : State, t.program = q → y t = .ok a t) : Idle q s y a :=
  fun t ht _ => h t ht

theorem get {g : State → Pass β} (h : ∀ t, t.program = q → Mirrors s t → Idle q s (g t) b) :
    Idle q s (MonadState.get >>= g) b :=
  fun t ht hm => h t ht hm t ht hm

theorem ask {f : Program → Query α} (h : f q = .ok a) : Idle q s (Pass.ask f) a :=
  of_program fun _ ht => ask_eq_ok.2 ⟨ht ▸ h, rfl⟩

theorem node (h : q.exprs.get? e = some m) : Idle q s (node e) m :=
  of_program fun _ ht => node_eq_ok.2 ⟨ht ▸ h, rfl⟩

theorem valueTy (h : q.valueTy e = .ok ty) : Idle q s (valueTy e) ty := ask h

theorem literal? {v : Option Literal} (h : q.literal? e = .ok v) : Idle q s (literal? e) v := ask h

theorem coerce (h : Coerces q e ty) : Idle q s (coerce e ty) () :=
  of_program fun _ ht => coerce_eq_ok.2 ⟨ht ▸ h, rfl⟩

theorem classScope {c : ClassId} (h : s.classScopes.get? c = some i) : Idle q s (classScope c) i :=
  fun _ _ hm => classScope_eq_ok.2 ⟨hm.classScopes ▸ h, rfl⟩

theorem enumScope {c : EnumId} (h : s.enumScopes.get? c = some i) : Idle q s (enumScope c) i :=
  fun _ _ hm => enumScope_eq_ok.2 ⟨hm.enumScopes ▸ h, rfl⟩

theorem lookupGlobal {text : String} {found : Symbol}
    (h : s.table.lookup .program text = .ok (some found)) (hl : found.isLocal = false) :
    Idle q s (lookupGlobal text) (some found) :=
  fun _ _ hm => lookupGlobal_eq_ok.2 ⟨hm.lookupGlobal hl h, rfl⟩

/-! ## Changes that have been made -/

theorem replace (h : q.exprs.get? e = some m) (hk : m.kind = kind) :
    Idle q s (replace e kind) () := by
  refine of_program fun t ht => replace_eq_ok.2 ⟨m, ht ▸ h, ?_⟩
  rw [← hk]
  exact (put_get? (ht ▸ h)).symm

theorem record (h : q.exprs.get? e = some m) (ht : m.ty = some ty) : Idle q s (record e ty) () := by
  refine of_program fun t hp => record_eq_ok.2 ⟨m, hp ▸ h, ?_⟩
  rw [← ht]
  exact (put_get? (hp ▸ h)).symm

theorem typed (h : q.exprs.get? e = some m) (ht : m.ty = some ty) : Idle q s (typed e ty) e :=
  (record h ht).bind pure

theorem forM {ι : Type} {f : ι → Pass Unit} {is : List ι} (h : ∀ i ∈ is, Idle q s (f i) ()) :
    Idle q s (is.forM f) () := by
  induction is with
  | nil => exact pure
  | cons i _ ih => exact (h i (by simp)).bind (ih fun j hj => h j (by simp [hj]))

end Idle

theorem Again.within {file : FileId}
    (h : Again q { s with file := file, table := s.table.enter i } s1 y a) :
    Again q s (s1.backTo s) (within file i y) a := by
  intro t ht hm
  obtain ⟨t1, hy, ht1, hm1⟩ := h { t with file := file, table := t.table.enter i } ht (hm.enter i)
  exact ⟨t1.backTo t, within_eq_ok.2 ⟨t1, hy, rfl⟩, ht1, hm.backTo hm1⟩

theorem Idle.within {file : FileId}
    (h : Idle q { s with file := file, table := s.table.enter i } y a) :
    Idle q s (within file i y) a :=
  fun t ht hm => within_eq_ok.2
    ⟨_, h { t with file := file, table := t.table.enter i } ht (hm.enter i), rfl⟩

/-! ## The first run alone -/

theorem Program.stmt_not_mem_work (hx : x.isValue) (z : StmtId) : .stmt z ∉ p.work r x := by
  rintro (h | ⟨k, d, -, -, -, h⟩)
  · cases Program.region_isValue hx h
  · rcases Program.mem_region_const h with h | h <;> cases h

theorem Ran.grows {e' : ExprId} (h : Ran p n s e e' s') : Grows s s' :=
  .of_moves h.moves (Program.stmt_not_mem_work rfl)

theorem RanType.grows (h : RanType p n s e ty s') : Grows s s' :=
  .of_moves h.moves (Program.stmt_not_mem_work rfl)

theorem RanConst.grows (h : RanConst p n s k s') : Grows s s' := by
  refine .of_moves h.moves fun z hz => ?_
  obtain ⟨k, d, -, -, -, h⟩ := hz
  rcases Program.mem_region_const h with h | h <;> cases h

theorem Grows.put (s : State) (e : ExprId) (m : ExprNode) : Grows s (s.put e m) := .set_program s _

/-! ## Literals and constants -/

section

variable {n : Nat}

theorem literal_idle (h : q.TypedLiteral e) : Idle q s ((callsWithin (n + 1)).expr e) e := by
  obtain ⟨v, line, hv⟩ := h
  exact (Idle.node hv).bind (Idle.typed hv rfl)

/-- A constant that has been resolved is not visited again. -/
theorem const_idle {d : Const} {t : State} (hk : q.consts.get? k = some d)
    (hs : d.status = .resolved) (hp : Placed s d.owner t) (hc : q.classes = s.program.classes)
    (he : q.enums = s.program.enums) :
    Idle q s ((callsWithin (n + 1)).const k) () := by
  have honce : ∀ {s} {body : Pass Unit}, Idle q s (once (.const k) body) () := fun {s body} => by
    have hstatus : Idle q s (ask (Visited.const k).status) .resolved :=
      .ask (Query.bind_ok.2 ⟨d, fetch_ok.2 hk, by rw [hs]; rfl⟩)
    exact hstatus.bind .pure
  have hfetch : Idle q s (ask (·.consts.fetch k)) d := .ask (fetch_ok.2 hk)
  refine hfetch.bind ?_
  generalize d.owner = owner at hp
  cases hp with
  | program => exact .within honce
  | classDecl decl found =>
    exact (Idle.ask (fetch_ok.2 (hc ▸ decl))).bind ((Idle.classScope found).bind (.within honce))
  | enumDecl decl found =>
    exact (Idle.ask (fetch_ok.2 (he ▸ decl))).bind ((Idle.enumScope found).bind (.within honce))
  | body => exact honce

/-! ## Names -/

theorem inlined?_idle {d : Const} (hl : Lasts s.program q)
    (h : Resolve.inlined? scope d s = .ok none s) : Idle q s (Resolve.inlined? scope d) none := by
  obtain ⟨c, hc, h⟩ := Resolve.inlined?_eq_ok.1 h
  intro t ht hm
  obtain ⟨c', hc', hmirrors⟩ := hm.scopes scope.slot c hc
  refine Resolve.inlined?_eq_ok.2 ⟨c', hc', ?_⟩
  rw [hmirrors.kind, ht]
  refine h.imp_right ?_
  rintro ⟨hk, x, hx, hlit⟩
  exact ⟨hk, x, hx, hl.literal? hlit⟩

theorem declared_idle (hm : q.exprs.get? e = some m) (ht : m.ty = some ty) :
    Idle q s (declared e (some ty)) e := .typed hm ht

/-- A name that is bound is not looked up again. -/
theorem resolveName_idle {calls : Calls} {look : Resolve.Look} {text : String}
    {found : Symbol} (hm : q.exprs.get? e = some m) (hk : m.kind = .name text (some found))
    (ht : m.ty = some ty) (hty : q.symbolTy? found = some ty)
    (hc : ∀ k d, found = .const k → q.consts.get? k = some d →
      Idle q s (calls.const k) () ∧ Idle q s (Resolve.inlined? scope d) none) :
    Idle q s (resolveName calls look scope e) e := by
  have hbind : Idle q s (bindName look scope e) (text, found) := by
    refine (Idle.node hm).bind ?_
    rw [hk]
    exact .pure
  have htyped := declared_idle (s := s) hm ht
  refine hbind.bind ?_
  cases found with
  | const k =>
    obtain ⟨d, hd, hty⟩ := Option.bind_eq_some_iff.1 hty
    obtain ⟨hconst, hinlined⟩ := hc k d rfl hd
    refine hconst.bind ((Idle.ask (fetch_ok.2 hd)).bind (hinlined.bind ?_))
    rw [hty]
    exact htyped
  | field =>
    obtain ⟨d, hd, hty⟩ := Option.bind_eq_some_iff.1 hty
    refine (Idle.ask (fetch_ok.2 hd)).bind ?_
    rw [hty]
    exact htyped
  | method =>
    obtain ⟨d, hd, hty⟩ := Option.bind_eq_some_iff.1 hty
    refine (Idle.ask (fetch_ok.2 hd)).bind ?_
    rw [hty]
    exact htyped
  | var =>
    obtain ⟨d, hd, hty⟩ := Option.bind_eq_some_iff.1 hty
    refine (Idle.ask (fetch_ok.2 hd)).bind ?_
    rw [hty]
    exact htyped
  | stringLength =>
    obtain rfl := Option.some.inj hty
    exact htyped
  | type _ => simp [Program.symbolTy?] at hty
  | classDecl _ => simp [Program.symbolTy?] at hty
  | enumDecl _ => simp [Program.symbolTy?] at hty

end

end Ci
