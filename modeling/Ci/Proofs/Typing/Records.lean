-- What is recorded in a program that has been resolved. An operator on integers that
-- has a single value for a type is only left where an operand does something, and a
-- constant has a value that is known in advance.
import Ci.Proofs.Typing.Sites
import Ci.Proofs.Work.Told

namespace Ci

open Pass Resolve Arena

variable {p q r : Program} {n : Nat} {s s' t : State} {e inner left right : ExprId} {m : ExprNode}
  {ty : Ty} {v : Int64} {ops : List ExprId} {f : ExprId → Query Bool} {xs : List ExprId}

/-! ## Operators with a single value -/

/-- The expression or a part of it does something. -/
inductive Program.Acts (q : Program) : ExprId → Prop
  | self {e : ExprId} {m : ExprNode} (node : q.exprs.get? e = some m) (acts : m.kind.acts = true) :
      Acts q e
  | part {e c : ExprId} {m : ExprNode} (node : q.exprs.get? e = some m)
      (child : c ∈ m.kind.children) (part : Acts q c) : Acts q e

theorem exists_of_anyM (h : xs.anyM f = .ok true) : ∃ x ∈ xs, f x = .ok true := by
  induction xs with
  | nil => cases h
  | cons x _ ih =>
    simp only [List.anyM, Query.bind_ok] at h
    obtain ⟨b, hb, h⟩ := h
    cases b with
    | true => exact ⟨x, by simp, hb⟩
    | false =>
      obtain ⟨y, hy, hf⟩ := ih h
      exact ⟨y, by simp [hy], hf⟩

theorem Program.acts_of_actsWithin (h : q.actsWithin n e = .ok true) : q.Acts e := by
  induction n generalizing e with
  | zero => cases h
  | succ _ ih =>
    simp only [actsWithin, Query.bind_ok, fetch_ok] at h
    obtain ⟨m, hm, h⟩ := h
    split at h
    · exact .self hm ‹_›
    · obtain ⟨c, hc, hacts⟩ := exists_of_anyM h
      exact .part hm hc (ih hacts)

/-- The operators on integers: the sign, the complement, and those between two numbers. -/
def Expr.isArithmetic : Expr → Bool
  | .before .minus _ | .before .tilde _ | .binary (.arith _) _ _ => true
  | _ => false

/-- What the type of an expression says of it. An operator whose value is known has an operand that
does something, and a collection is an array. -/
structure Program.Justifies (q : Program) (t : Option Ty) (kind : Expr) : Prop where
  operator : kind.isArithmetic = true → ∀ v, t = some (.range (.point v)) →
    ∃ c ∈ kind.children, q.Acts c
  collection : ∀ items, kind = .collection items → ∃ u n, t = some (.arrayStorage u n)

theorem Program.Justifies.other {t : Option Ty} {kind : Expr} (ha : kind.isArithmetic = false)
    (hc : ∀ items, kind ≠ .collection items) : q.Justifies t kind :=
  ⟨fun h => by simp [ha] at h, fun items h => absurd h (hc items)⟩

/-! ### Operators that stay

An operator that is left as it was neither gives way nor gets another type. -/

section

variable (hm : t.program.exprs.get? e = some m)

include hm

theorem fold_ne_self {w : Literal} : fold e w t ≠ .ok e s' := by
  intro h
  obtain ⟨room, he, -⟩ := fold_eq_ok.1 h
  have := lt_size_of_get? hm
  rw [he, slot_next room] at this
  exact Nat.lt_irrefl _ this

variable (hm' : s'.program.exprs.get? e = some m)

include hm'

theorem ty_of_typed (h : typed e ty t = .ok e s') : m.ty = some ty := by
  obtain ⟨-, m1, hm1, rfl⟩ := typed_eq_ok.1 h
  obtain rfl := hm.some_unique hm1
  exact congrArg ExprNode.ty (hm'.some_unique (get?_put_self hm))

variable (hv : m.ty = some (.range (.point v)))

include hv

theorem not_typed (hty : ty.asRange = none) : typed e ty t ≠ .ok e s' := by
  intro h
  cases hv.symm.trans (ty_of_typed hm hm' h)
  cases hty

theorem acts_of_typedRange {i : Interval} (h : typedRange e ops i t = .ok e s') :
    ∃ c ∈ ops, t.program.Acts c := by
  unfold typedRange at h
  generalize hi : i.asPoint = a at h
  split at h
  · simp only [foldUnless, areInert, bind_eq_ok, ask_eq_ok, pure_eq_ok] at h
    obtain ⟨_, _, ⟨any, _, ⟨hany, rfl⟩, rfl, rfl⟩, h⟩ := h
    cases any with
    | true =>
      obtain ⟨c, hc, hacts⟩ := exists_of_anyM hany
      exact ⟨c, hc, Program.acts_of_actsWithin hacts⟩
    | false => exact absurd h (fold_ne_self hm)
  · have hpoint : i = .point v := by simpa [hv, eq_comm] using ty_of_typed hm hm' h
    simp [hpoint, Interval.asPoint, Interval.point] at hi

theorem acts_of_beforeEnd {op : PrefixOp} (hop : op = .minus ∨ op = .tilde)
    (h : beforeEnd e inner op t = .ok e s') : ∃ c ∈ [inner], t.program.Acts c := by
  rcases hop with rfl | rfl
  · simp only [beforeEnd, negation, bind_eq_ok, valueTy_eq_ok, literal?_eq_ok] at h
    obtain ⟨ty, _, ⟨-, rfl⟩, _, _, hnum, w, _, ⟨-, rfl⟩, h⟩ := h
    obtain rfl := Silent.requireNumeric.of_ok hnum
    split at h
    · exact absurd h (fold_ne_self hm)
    · generalize hr : ty.asRange = i at h
      split at h
      · exact acts_of_typedRange hm hm' hv h
      · exact absurd h (not_typed hm hm' hv hr)
  · simp only [beforeEnd, bitComplement, bind_eq_ok, valueTy_eq_ok] at h
    obtain ⟨ty, _, ⟨-, rfl⟩, _, _, hint, h⟩ := h
    obtain rfl := Silent.requireInteger.of_ok hint
    generalize hr : ty.asRange = i at h
    split at h
    · exact acts_of_typedRange hm hm' hv h
    · exact absurd h (not_typed hm hm' hv hr)

theorem acts_of_arithmetic {op : IntOp} (h : arithmetic e op left right t = .ok e s') :
    ∃ c ∈ [left, right], t.program.Acts c := by
  simp only [arithmetic, bind_eq_ok, valueTy_eq_ok] at h
  obtain ⟨l, _, ⟨-, rfl⟩, r, _, ⟨-, rfl⟩, h⟩ := h
  split at h
  · simp only [concatenation, bind_eq_ok, literal?_eq_ok] at h
    obtain ⟨v, _, ⟨-, rfl⟩, w, _, ⟨-, rfl⟩, h⟩ := h
    split at h
    · exact absurd h (fold_ne_self hm)
    · exact absurd h (not_typed hm hm' hv rfl)
  · generalize l.asRange = i, r.asRange = j at h
    split at h
    · obtain ⟨_, s1, hi, htyped⟩ := bind_eq_ok.1 h
      obtain rfl := Silent.bounds.of_ok hi
      exact acts_of_typedRange hm hm' hv htyped
    · simp only [bind_eq_ok] at h
      obtain ⟨_, s1, h1, _, s2, h2, h⟩ := h
      obtain rfl := Silent.requireOperand.of_ok h1
      obtain rfl := Silent.requireOperand.of_ok h2
      refine absurd h (not_typed hm hm' hv ?_)
      unfold resultTy Ty.numericResult Ty.integerResult
      split_ifs <;> rfl

end

/-! ## Constants -/

/-- A value that is known in advance: a literal, what stands for a value of an enumeration, or a
collection of such values. -/
inductive Program.ConstantValue (q : Program) : ExprId → Prop
  | literal {e : ExprId} {m : ExprNode} {w : Literal} (node : q.exprs.get? e = some m)
      (kind : m.kind = .literal w) : ConstantValue q e
  | enumerator {e : ExprId} {k : ConstId} {d : Const}
    (symbol : q.symbolOf e = .ok (some (.const k)))
      (found : q.consts.get? k = some d) (owner : d.owner.isEnum = true) : ConstantValue q e
  | collection {e : ExprId} {m : ExprNode} {items : List ExprId} (node : q.exprs.get? e = some m)
      (kind : m.kind = .collection items) (values : ∀ i ∈ items, ConstantValue q i) :
      ConstantValue q e

theorem forall_of_allM (h : xs.allM f = .ok true) : ∀ x ∈ xs, f x = .ok true := by
  induction xs with
  | nil => simp
  | cons _ _ ih =>
    simp only [List.allM, Query.bind_ok] at h
    obtain ⟨b, hb, h⟩ := h
    cases b with
    | true => exact List.forall_mem_cons.2 ⟨hb, ih h⟩
    | false => cases h

/-- What has been found to be known in advance still is so later. -/
theorem Whole.constantValue (hw : Whole r e) (hl : Lasts r q)
    (h : r.constantWithin n e = .ok true) :
    q.ConstantValue e := by
  have henum : ∀ {e}, Whole r e → r.isEnumerator e = .ok true → q.ConstantValue e := by
    intro e hw h
    simp only [Program.isEnumerator, Query.bind_ok] at h
    obtain ⟨symbol, hs, h⟩ := h
    split at h
    · simp only [Query.bind_ok, fetch_ok, Query.pure_ok] at h
      obtain ⟨d, hd, howner⟩ := h
      obtain ⟨d', hd', hkept⟩ := hl.kept _ d hd
      exact .enumerator ((hw.alike hl).symbolOf hl.size_le hs) hd' (by rw [hkept.owner, howner])
    · simp at h
  induction n generalizing e with
  | zero => cases h
  | succ _ ih =>
    simp only [Program.constantWithin, Query.bind_ok, fetch_ok] at h
    obtain ⟨m, hm, h⟩ := h
    have hq := hw.node hl hm
    generalize hk : m.kind = kind at h
    split at h
    · exact .literal hq hk
    · refine .collection hq hk fun i hi => ih (hw.child hm ?_) (forall_of_allM h i hi)
      simpa [hk] using hi
    · exact henum hw h
    · exact henum hw h
    · simp at h

/-- The type that a type expression has been read as is recorded for it. -/
theorem StepType.ty? (hp : p.TreeShaped) (hf : Fresh p) (h : StepType p n s e ty s')
    (hfit : Fit p s (.expr e)) (hl : Lasts s'.program q) : q.ty? e = some ty := by
  obtain @⟨a, u, m, s1, s2, spelled, plain, mark, still, short⟩ := h
  have hread := (spelled.readAs hp hf hfit (fun h => h.settled hp hf) plain still rfl).1.later hl
  have hmem : e ∈ a.nodes := by cases spelled <;> simp
  by_cases he : e = a.base
  · -- what stands before brackets has none
    have hnone : a.brackets = [] := by
      obtain ⟨m0, hm0, hindex, hbang⟩ := plain.kind
      rw [← he] at hm0
      cases spelled with
      | base => rfl
      | pointer marked node kind | storage marked node kind =>
        rcases marked with ⟨mnode, mkind⟩ | -
        all_goals first
          | obtain rfl := hm0.some_unique mnode
            exact absurd mkind (hbang _)
          | obtain rfl := hm0.some_unique node
            exact absurd kind (hindex _ _)
    obtain ⟨mb, hmb, hty⟩ := hread.base
    simp [Program.ty?, he, hmb, hty, hnone]
  · obtain ⟨mx, hmx, hty⟩ := hread.nodes e hmem he
    simp [Program.ty?, hmx, hty]

/-- What is recorded of a constant that has been resolved. -/
structure Program.ConstRecords (q : Program) (d : Const) : Prop where
  resolved : d.status = .resolved
  plain : d.owner.isEnum = false → ∃ e t, d.value = some e ∧ q.ConstantValue e ∧ Settled q e ∧
    q.ty? e = some t ∧ d.ty = some t ∧
    ∀ x ∈ d.typeExpr, ∃ u, q.ty? x = some u ∧ (u.isArray = false → q.assignable t u = .ok true)
  enumerator : ∀ c, d.owner = .enumDecl c → d.ty = some (.enumeration c) ∧
    ∀ e ∈ d.value, Settled q e ∧ ∃ t, q.ty? e = some t ∧ (t.isInteger = true ∨ t = .enumeration c)

/-- What is recorded at a place. -/
def Program.Records (q : Program) : Site → Prop
  | .value e => ∀ m, q.exprs.get? e = some m → q.Justifies m.ty m.kind
  | .const k => ∃ d, q.consts.get? k = some d ∧ q.ConstRecords d
  | _ => True

end Ci
