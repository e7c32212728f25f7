-- The ends of rules. Once its operands are resolved, a rule only asks for them and
-- then records a type, adds a literal or gives one of them. Where it records a type,
-- it does so again in every later program in which the operands are the same.
import Ci.Proofs.Pass.Endings
import Ci.Proofs.Work.Later

namespace Ci

open Pass

variable {α β : Type} {V : Program → Prop} {s : State} {y : Pass α} {g : α → Pass β}
  {e : ExprId} {parts : List ExprId} {ops : List ExprId}

/-! ## Questions -/

/-- A part that only asks, and gets the same answer in some other programs. -/
def Echo (V : Program → Prop) (s : State) (y : Pass α) : Prop :=
  ∀ a s', y s = .ok a s' → s' = s ∧ ∀ t : State, V t.program → y t = .ok a t

namespace Echo

theorem bind (hy : Echo V s y) (hg : ∀ a, y s = .ok a s → Echo V s (g a)) : Echo V s (y >>= g) := by
  intro b s' h
  obtain ⟨a, s1, ha, hb⟩ := Pass.bind_eq_ok.1 h
  obtain ⟨rfl, hay⟩ := hy a s1 ha
  obtain ⟨rfl, hag⟩ := hg a ha b s' hb
  exact ⟨rfl, fun t ht => (Pass.bind_ok (hay t ht)).trans (hag t ht)⟩

theorem pure {a : α} : Echo V s (pure a) := by
  rintro _ _ ⟨⟩
  exact ⟨rfl, fun _ _ => rfl⟩

theorem ask {q : Program → Query α} (h : ∀ a p, V p → q s.program = .ok a → q p = .ok a) :
    Echo V s (ask q) := by
  intro a s' hs
  unfold Pass.ask Pass.answer at hs ⊢
  cases hq : q s.program with
  | error => simp [hq] at hs
  | ok a =>
    rw [hq] at hs
    cases hs
    exact ⟨rfl, fun t ht => by simp [h a _ ht hq]⟩

/-- A part that never ends. -/
theorem absurd (h : Yields y s fun _ _ => False) : Echo V s y :=
  fun _ _ hs => (h.of_ok trivial hs).2.elim

theorem ite {c : Prop} [Decidable c] {y' : Pass α} (hy : c → Echo V s y) (hy' : ¬ c → Echo V s y') :
    Echo V s (if c then y else y') := by
  split
  · exact hy (by assumption)
  · exact hy' (by assumption)

end Echo

/-- The programs that come later and in which some expressions are the same. -/
def Views (p : Program) (operands : List ExprId) (q : Program) : Prop :=
  Lasts p q ∧ ∀ l ∈ operands, Alike p q l

namespace Echo

variable {operands : List ExprId} {l r : ExprId} {t u : Ty} {op : IntOp}

theorem valueTy (hl : l ∈ operands) : Echo (Views s.program operands) s (valueTy l) :=
  ask fun _ _ hv => (hv.2 l hl).valueTy

theorem literal? (hl : l ∈ operands) : Echo (Views s.program operands) s (literal? l) :=
  ask fun _ _ hv => (hv.2 l hl).literal?

theorem boolLiteral? (hl : l ∈ operands) :
    Echo (Views s.program operands) s (Resolve.boolLiteral? l) := by
  refine (literal? hl).bind fun v _ => ?_
  split <;> exact pure

theorem assignable : Echo (Views s.program operands) s (Pass.ask (·.assignable t u)) :=
  ask fun _ _ hv ha => (Program.assignable_congr hv.1.classes t u).trans ha

theorem coerce (hl : l ∈ operands) : Echo (Views s.program operands) s (coerce l t) :=
  (valueTy hl).bind fun _ _ => assignable.bind fun _ _ =>
    ite (fun _ => pure) fun _ => absurd .mismatchTy

theorem requireNumeric : Echo V s (Resolve.requireNumeric e t) :=
  ite (fun _ => pure) fun _ => absurd .mismatchAt

theorem requireInteger : Echo V s (Resolve.requireInteger e t) :=
  ite (fun _ => pure) fun _ => absurd .mismatchAt

theorem requireOperand : Echo V s (Resolve.requireOperand op e t) :=
  ite (fun _ => requireInteger) fun _ => requireNumeric

theorem requirePlace (hl : l ∈ operands) :
    Echo (Views s.program operands) s (Resolve.requirePlace l) :=
  (ask fun _ _ hv => (hv.2 l hl).isPlace hv.1.size_le).bind fun _ _ =>
    ite (fun _ => pure) fun _ => absurd .failAt

theorem bounds {i j : Interval} : Echo V s (Resolve.bounds e op i j) := by
  unfold Resolve.bounds
  split
  · exact pure
  · exact absurd .failAt

theorem checkBounds : Echo V s (Resolve.checkBounds e op t u) := by
  unfold Resolve.checkBounds
  split
  · exact bounds.bind fun _ _ => pure
  · exact pure

theorem areInert (ho : ∀ l ∈ ops, l ∈ operands) :
    Echo (Views s.program operands) s (Resolve.areInert ops) :=
  (ask fun _ _ hv => anyM_ok fun l hl _ => (hv.2 l (ho l hl)).hasEffects hv.1.size_le).bind
    fun _ _ => pure

theorem comparable : Echo (Views s.program operands) s (Resolve.comparable t u) :=
  ite (fun _ => pure) fun _ => assignable.bind fun _ _ =>
    ite (fun _ => pure) fun _ => assignable

theorem knownEqual (hl : l ∈ operands) (hr : r ∈ operands) :
    Echo (Views s.program operands) s (Resolve.knownEqual l r t u) := by
  refine (literal? hl).bind fun _ _ => (literal? hr).bind fun _ _ => ?_
  split
  · exact pure
  · split <;> exact pure

theorem knownOrder {rel : Relation} (hl : l ∈ operands) (hr : r ∈ operands) :
    Echo (Views s.program operands) s (Resolve.knownOrder rel l r t u) := by
  unfold Resolve.knownOrder
  split
  · exact pure
  · refine (literal? hl).bind fun _ _ => (literal? hr).bind fun _ _ => ?_
    split <;> exact pure

theorem commonTy {items : List ExprId} (hi : ∀ l ∈ items, l ∈ operands) :
    Echo (Views s.program operands) s (Resolve.commonTy t items) := by
  induction items generalizing t with
  | nil => exact pure
  | cons item _ ih =>
    refine (valueTy (hi item (by simp))).bind fun u _ => ?_
    split
    · exact ih fun l hl => hi l (by simp [hl])
    · exact absurd .mismatchTy

end Echo

/-! ## Ends -/

/-- How a rule can end: it records a type, and does so again later, it adds a literal, or it gives
a part. -/
inductive Ending (V : Program → Prop) (e : ExprId) (parts : List ExprId) (s : State)
    (x : Pass ExprId) : ExprId → State → Prop
  | typed (n : ExprNode) (ty : Ty) (found : s.program.exprs.get? e = some n)
      (again : ∀ (t : State) n', V t.program → t.program.exprs.get? e = some n' →
        n'.ty = some ty → x t = .ok e t) :
      Ending V e parts s x e (s.put e { n with ty := some ty })
  | folded (line : UInt32) (value : Literal) (room : s.program.exprs.size < UInt32.size) :
      Ending V e parts s x s.program.exprs.next (s.grow line value)
  | part (e' : ExprId) (mem : e' ∈ parts) : Ending V e parts s x e' s

/-- A rule ends in one of these ways. -/
def Settles (V : Program → Prop) (e : ExprId) (parts : List ExprId) (s : State)
    (x : Pass ExprId) : Prop := ∀ e' s', x s = .ok e' s' → Ending V e parts s x e' s'

namespace Settles

variable {x : Pass ExprId} {f : α → Pass ExprId} {ty : Ty} {value : Literal}

theorem bind (hy : Echo V s y) (hf : ∀ a, y s = .ok a s → Settles V e parts s (f a)) :
    Settles V e parts s (y >>= f) := by
  intro e' s' h
  obtain ⟨a, s1, ha, hb⟩ := Pass.bind_eq_ok.1 h
  obtain ⟨rfl, hay⟩ := hy a s1 ha
  cases hf a ha e' s' hb with
  | typed n ty hn again =>
    refine .typed n ty hn fun t n' ht hn' hty => ?_
    exact (Pass.bind_ok (hay t ht)).trans (again t n' ht hn' hty)
  | folded line value room => exact .folded line value room
  | part e' mem => exact .part e' mem

theorem absurd (h : Yields x s fun _ _ => False) : Settles V e parts s x :=
  fun _ _ hs => (h.of_ok trivial hs).2.elim

theorem ite {c : Prop} [Decidable c] {x' : Pass ExprId} (hx : c → Settles V e parts s x)
    (hx' : ¬ c → Settles V e parts s x') : Settles V e parts s (if c then x else x') := by
  split
  · exact hx (by assumption)
  · exact hx' (by assumption)

theorem pure {e' : ExprId} (h : e' ∈ parts) : Settles V e parts s (pure e') := by
  rintro _ _ ⟨⟩
  exact .part e' h

theorem typed : Settles V e parts s (typed e ty) := by
  intro e' s' h
  obtain ⟨he, n, hn, rfl⟩ := Pass.typed_eq_ok.1 h
  rw [he]
  refine .typed n ty hn fun t n' _ hn' hty => Pass.typed_eq_ok.2 ⟨rfl, n', hn', ?_⟩
  rw [← hty]
  exact (Pass.put_get? hn').symm

theorem fold : Settles V e parts s (fold e value) := by
  intro e' s' h
  obtain ⟨room, rfl, n, -, rfl⟩ := Pass.fold_eq_ok.1 h
  exact .folded n.line value room

/-! ## Operators -/

variable {operands : List ExprId} {inner l r cond : ExprId} {t : Ty}

theorem foldUnless (ho : ∀ l ∈ ops, l ∈ operands) :
    Settles (Views s.program operands) e parts s (Resolve.foldUnless e ops value t) :=
  bind (Echo.areInert ho) fun _ _ => ite (fun _ => fold) fun _ => typed

theorem typedRange {i : Interval} (ho : ∀ l ∈ ops, l ∈ operands) :
    Settles (Views s.program operands) e parts s (Resolve.typedRange e ops i) := by
  unfold Resolve.typedRange
  split
  · exact foldUnless ho
  · exact typed

theorem typedBool {known : Option Bool} (ho : ∀ l ∈ ops, l ∈ operands) :
    Settles (Views s.program operands) e parts s (Resolve.typedBool e ops known) := by
  unfold Resolve.typedBool
  split
  · exact foldUnless ho
  · exact typed

theorem steppedBefore {delta : Int64} :
    Settles (Views s.program [inner]) e parts s (Resolve.steppedBefore e inner delta) := by
  have hi : inner ∈ [inner] := by simp
  refine bind (Echo.valueTy hi) fun t _ => bind Echo.requireNumeric fun _ _ =>
    bind (Echo.requirePlace hi) fun _ _ => ?_
  split <;> exact typed

theorem steppedAfter : Settles (Views s.program [inner]) e parts s (do
    let t ← Pass.valueTy inner
    Resolve.requireNumeric inner t
    Resolve.requirePlace inner
    Pass.typed e t) :=
  bind (Echo.valueTy (by simp)) fun _ _ => bind Echo.requireNumeric fun _ _ =>
    bind (Echo.requirePlace (by simp)) fun _ _ => typed

theorem negation : Settles (Views s.program [inner]) e parts s (Resolve.negation e inner) := by
  have hi : inner ∈ [inner] := by simp
  refine bind (Echo.valueTy hi) fun t _ => bind Echo.requireNumeric fun _ _ =>
    bind (Echo.literal? hi) fun v _ => ?_
  split
  · exact fold
  · split
    · exact typedRange fun _ h => h
    · exact typed

theorem bitComplement :
    Settles (Views s.program [inner]) e parts s (Resolve.bitComplement e inner) := by
  refine bind (Echo.valueTy (by simp)) fun t _ => bind Echo.requireInteger fun _ _ => ?_
  split
  · exact typedRange fun _ h => h
  · exact typed

theorem logicalNot : Settles (Views s.program [inner]) e parts s (Resolve.logicalNot e inner) := by
  refine bind (Echo.coerce (by simp)) fun _ _ => bind (Echo.boolLiteral? (by simp)) fun b _ => ?_
  split
  · exact fold
  · exact typed

section

variable {op : IntOp}

theorem concatenation :
    Settles (Views s.program [l, r]) e parts s (Resolve.concatenation e l r) := by
  refine bind (Echo.literal? (by simp)) fun v _ => bind (Echo.literal? (by simp)) fun w _ => ?_
  split
  · exact fold
  · exact typed

theorem arithmetic : Settles (Views s.program [l, r]) e parts s (Resolve.arithmetic e op l r) := by
  refine bind (Echo.valueTy (by simp)) fun t _ => bind (Echo.valueTy (by simp)) fun u _ =>
    ite (fun _ => concatenation) fun _ => ?_
  split
  · exact bind Echo.bounds fun _ _ => typedRange fun _ h => h
  · exact bind Echo.requireOperand fun _ _ => bind Echo.requireOperand fun _ _ => typed

theorem equality {wanted : Bool} :
    Settles (Views s.program [l, r]) e parts s (Resolve.equality e wanted l r) :=
  bind (Echo.valueTy (by simp)) fun _ _ => bind (Echo.valueTy (by simp)) fun _ _ =>
    bind Echo.comparable fun _ _ => ite
      (fun _ => bind (Echo.knownEqual (by simp) (by simp)) fun _ _ => typedBool fun _ h => h)
      fun _ => absurd .mismatchTy

theorem ordering {rel : Relation} :
    Settles (Views s.program [l, r]) e parts s (Resolve.ordering e rel l r) :=
  bind (Echo.valueTy (by simp)) fun _ _ => bind (Echo.valueTy (by simp)) fun _ _ =>
    bind Echo.requireNumeric fun _ _ => bind Echo.requireNumeric fun _ _ =>
      bind (Echo.knownOrder (by simp) (by simp)) fun _ _ => typedBool fun _ h => h

theorem logical {decisive : Bool} :
    Settles (Views s.program [l, r]) e [r] s (Resolve.logical e decisive l r) := by
  refine bind (Echo.coerce (by simp)) fun _ _ => bind (Echo.coerce (by simp)) fun _ _ =>
    bind (Echo.boolLiteral? (by simp)) fun b _ => ?_
  split
  · exact ite (fun _ => fold) fun _ => pure (by simp)
  · exact typed

theorem assignment : Settles (Views s.program [l, r]) e parts s (Resolve.assignment e l r) :=
  bind (Echo.requirePlace (by simp)) fun _ _ => bind (Echo.valueTy (by simp)) fun _ _ =>
    bind (Echo.coerce (by simp)) fun _ _ => typed

theorem update : Settles (Views s.program [l, r]) e parts s (Resolve.update e op l r) :=
  bind (Echo.requirePlace (by simp)) fun _ _ => bind (Echo.valueTy (by simp)) fun _ _ =>
    bind (Echo.valueTy (by simp)) fun _ _ => ite (fun _ => typed) fun _ =>
      bind Echo.requireOperand fun _ _ => bind Echo.requireOperand fun _ _ =>
        bind Echo.checkBounds fun _ _ => typed

theorem charOf : Settles (Views s.program [l, r]) e parts s (Resolve.charOf e l r) := by
  refine bind (Echo.literal? (by simp)) fun v _ => bind (Echo.literal? (by simp)) fun w _ => ?_
  split
  · split
    · exact fold
    · exact typed
  · exact typed

theorem indexing : Settles (Views s.program [l, r]) e parts s (Resolve.indexing e l r) := by
  refine bind (Echo.valueTy (by simp)) fun _ _ => ite (fun _ => ?_) fun _ => absurd .failAt
  refine bind (Echo.valueTy (by simp)) fun t _ => ?_
  split
  · exact typed
  · exact ite (fun _ => charOf) fun _ => absurd .mismatchAt

end

theorem operation {op : BinaryOp} :
    Settles (Views s.program [l, r]) e [r] s (Resolve.operation e op l r) := by
  unfold Resolve.operation
  split
  · exact indexing
  · exact equality
  · exact equality
  · exact ordering
  · exact logical
  · exact logical
  · exact assignment
  · exact update
  · exact arithmetic
  · exact absurd .failAt
  · exact absurd .failAt

theorem choice :
    Settles (Views s.program [cond, l, r]) e [l, r] s (Resolve.choice e cond l r) := by
  refine bind (Echo.valueTy (by simp)) fun t _ => bind (Echo.valueTy (by simp)) fun u _ => ?_
  split
  · exact absurd .mismatchTy
  · refine bind (Echo.boolLiteral? (by simp)) fun b _ => ?_
    split
    · exact pure (by simp)
    · exact pure (by simp)
    · exact typed

end Settles

end Ci
