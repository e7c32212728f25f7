-- What a pass keeps. A claim about a pass names an invariant, which holds after the
-- pass whether it ends or stops at a fault, and says what else is the case if it
-- ends. Claims about a rule are put together from claims about its steps.
import Ci.Proofs.Program.Arena
import Ci.Resolve.Run

namespace Ci

variable {line : UInt32} {fault : Fault} {e : ExprId} {expected got ty l r : Ty} {name : String}
  {scope : ScopeId} {op : IntOp}

/-- The fault is about a jump that leads nowhere. -/
def Fault.isJump : Fault → Bool
  | .invalidStatement _ => true
  | _ => false

namespace Pass

variable {α β : Type} {I : State → Prop} {s s' : State} {x : Pass α} {f : α → Pass β}
variable {P Q : α → State → Prop} {R : β → State → Prop}

/-- A pass that starts where an invariant holds also stops there. If it ends, it gives what the
last argument says. -/
structure Keeps (I : State → Prop) (x : Pass α) (s : State) (Q : α → State → Prop) : Prop where
  holds : I s → match x s with
    | .ok a s' => I s' ∧ Q a s'
    | .error _ s' => I s'

namespace Keeps

/-! ## Steps -/

theorem of_ok {a : α} (h : Keeps I x s Q) (hi : I s) (hx : x s = .ok a s') : I s' ∧ Q a s' := by
  have := h.holds hi
  rwa [hx] at this

theorem of_error {b : Abort} (h : Keeps I x s Q) (hi : I s) (hx : x s = .error b s') : I s' := by
  have := h.holds hi
  rwa [hx] at this

theorem mono (h : Keeps I x s P) (hpq : ∀ a s', I s' → P a s' → Q a s') : Keeps I x s Q := by
  refine ⟨fun hi => ?_⟩
  have := h.holds hi
  cases hx : x s with
  | ok a t =>
    rw [hx] at this
    exact ⟨this.1, hpq a t this.1 this.2⟩
  | error =>
    rw [hx] at this
    exact this

theorem bind (h : Keeps I x s P) (hf : ∀ a s', I s' → P a s' → Keeps I (f a) s' R) :
    Keeps I (x >>= f) s R := by
  refine ⟨fun hi => ?_⟩
  have := h.holds hi
  show match EStateM.bind x f s with
    | .ok a s' => I s' ∧ R a s'
    | .error _ s' => I s'
  unfold EStateM.bind
  cases hx : x s with
  | ok a t =>
    rw [hx] at this
    exact (hf a t this.1 this.2).holds this.1
  | error =>
    rw [hx] at this
    exact this

theorem pure {a : α} (h : I s → Q a s) : Keeps I (pure a) s Q := ⟨fun hi => ⟨hi, h hi⟩⟩

theorem of_inv (h : I s → Keeps I x s Q) : Keeps I x s Q := ⟨fun hi => (h hi).holds hi⟩

/-! ## Questions -/

theorem answer {q : Query α} : Keeps I (answer q) s fun a s' => q = .ok a ∧ s' = s := by
  refine ⟨fun hi => ?_⟩
  unfold Pass.answer
  cases q with
  | ok => exact ⟨hi, rfl, rfl⟩
  | error => exact hi

theorem ask {q : Program → Query α} :
    Keeps I (ask q) s fun a s' => q s.program = .ok a ∧ s' = s := ⟨answer.holds⟩

theorem askTable {q : ScopeTable → Query α} :
    Keeps I (askTable q) s fun a s' => q s.table = .ok a ∧ s' = s := ⟨answer.holds⟩

theorem bind_here {p : α → Prop} (h : Keeps I x s fun a s' => p a ∧ s' = s)
    (hf : ∀ a, p a → Keeps I (f a) s R) : Keeps I (x >>= f) s R := by
  refine h.bind ?_
  rintro a _ _ ⟨ha, rfl⟩
  exact hf a ha

theorem ask_bind {q : Program → Query α} (h : ∀ a, q s.program = .ok a → Keeps I (f a) s R) :
    Keeps I (Pass.ask q >>= f) s R := ask.bind_here h

theorem askTable_bind {q : ScopeTable → Query α} (h : ∀ a, q s.table = .ok a → Keeps I (f a) s R) :
    Keeps I (Pass.askTable q >>= f) s R := askTable.bind_here h

theorem classScope_bind {c : ClassId} {f : ScopeId → Pass β}
    (h : ∀ scope, s.classScopes.get? c = some scope → Keeps I (f scope) s R) :
    Keeps I (classScope c >>= f) s R :=
  bind_here (p := fun scope => s.classScopes.fetch c = .ok scope) ⟨answer.holds⟩
    fun scope hs => h scope (Arena.fetch_ok.1 hs)

theorem get_bind {f : State → Pass β} (h : Keeps I (f s) s R) : Keeps I (get >>= f) s R :=
  ⟨h.holds⟩

/-! ## Changes -/

theorem modify {g : State → State} (h : I s → I (g s)) :
    Keeps I (modify g) s fun _ s' => s' = g s := ⟨fun hi => ⟨h hi, rfl⟩⟩

theorem change {g : Program → Query Program}
    (h : ∀ p, g s.program = .ok p → I s → I { s with program := p }) :
    Keeps I (change g) s fun _ s' => ∃ p, g s.program = .ok p ∧ s' = { s with program := p } := by
  refine ⟨fun hi => ?_⟩
  unfold Pass.change
  cases hg : g s.program with
  | ok p => exact ⟨h p hg hi, p, rfl, rfl⟩
  | error => exact hi

theorem addScope {kind : ScopeKind} {parent : ScopeId}
    (h : I s → I { s with table := s.table.add kind parent }) :
    Keeps I (addScope kind parent) s fun i s' =>
      i = s.table.next ∧ s' = { s with table := s.table.add kind parent } :=
  ⟨fun hi => ⟨h hi, rfl, rfl⟩⟩

/-! ## Faults -/

theorem fail : Keeps I (fail line fault) s Q := ⟨id⟩

theorem failAt : Keeps I (failAt e fault) s Q :=
  ask_bind fun _ _ => fail

theorem mismatchAt {expected : String} : Keeps I (mismatchAt e expected got) s Q :=
    ask_bind fun _ _ => failAt

theorem mismatchTy : Keeps I (mismatchTy e expected got) s Q :=
  ask_bind fun _ _ => mismatchAt

theorem stuck {b : Broken} : Keeps I (Pass.answer (.error b) : Pass α) s Q := ⟨id⟩

theorem defineIn {i : ScopeId} {symbol : Symbol}
    (h : ∀ t, s.table.define? i name symbol = .ok (some t) → I s → I { s with table := t }) :
    Keeps I (defineIn i line name symbol) s fun _ s' =>
      ∃ t, s.table.define? i name symbol = .ok (some t) ∧ s' = { s with table := t } := by
  refine askTable_bind fun found hf => ?_
  split
  · exact (modify (h _ hf)).mono fun _ _ _ hs => ⟨_, hf, hs⟩
  · exact fail

/-! ## Other places -/

variable {J : State → Prop}

/-- A part that runs in another place, where another invariant holds. -/
theorem within {file : FileId} {body : Pass α}
    (hin : I s → J { s with file := file, table := s.table.enter scope })
    (h : Keeps J body { s with file := file, table := s.table.enter scope } Q)
    (back : ∀ s', J s' → I (s'.backTo s)) :
    Keeps I (within file scope body) s fun a s'' => ∃ s', s'' = s'.backTo s ∧ Q a s' := by
  refine ⟨fun hi => ?_⟩
  have hb := h.holds (hin hi)
  unfold Pass.within
  cases hx : body { s with file := file, table := s.table.enter scope } with
  | ok _ s' =>
    rw [hx] at hb
    exact ⟨back s' hb.1, s', rfl, hb.2⟩
  | error _ s' =>
    rw [hx] at hb
    exact back s' hb

theorem inside {b : Breakable} {body : Pass α}
    (hin : I s → J { s with breakables := b :: s.breakables })
    (h : Keeps J body { s with breakables := b :: s.breakables } Q)
    (back : ∀ s', J s' → I { s' with breakables := s'.breakables.tail }) :
    Keeps I (inside b body) s fun a s'' =>
      ∃ s', s'' = { s' with breakables := s'.breakables.tail } ∧ Q a s' := by
  refine ⟨fun hi => ?_⟩
  have hb := h.holds (hin hi)
  unfold Pass.inside
  cases hx : body { s with breakables := b :: s.breakables } with
  | ok _ s' =>
    rw [hx] at hb
    exact ⟨back s' hb.1, s', rfl, hb.2⟩
  | error _ s' =>
    rw [hx] at hb
    exact back s' hb

theorem inMethod {m : MethodId} {body : Pass α} (hin : I s → J { s with method := some m })
    (h : Keeps J body { s with method := some m } Q)
    (back : ∀ s', J s' → I { s' with method := none }) :
    Keeps I (inMethod m body) s fun a s'' => ∃ s', s'' = { s' with method := none } ∧ Q a s' := by
  refine ⟨fun hi => ?_⟩
  have hb := h.holds (hin hi)
  unfold Pass.inMethod
  cases hx : body { s with method := some m } with
  | ok _ s' =>
    rw [hx] at hb
    exact ⟨back s' hb.1, s', rfl, hb.2⟩
  | error _ s' =>
    rw [hx] at hb
    exact back s' hb

/-! ## Lists -/

theorem forM {ι : Type} {g : ι → Pass Unit} {P : State → Prop} {xs : List ι}
    (h : ∀ i ∈ xs, ∀ s, I s → P s → Keeps I (g i) s fun _ s' => P s') (hp : P s) :
    Keeps I (xs.forM g) s fun _ s' => P s' := by
  induction xs generalizing s with
  | nil => exact pure fun _ => hp
  | cons i xs ih =>
    show Keeps I (g i >>= fun _ => xs.forM g) s fun _ s' => P s'
    refine .of_inv fun hi => (h i (by simp) s hi hp).bind fun _ s' _ hp' => ?_
    exact ih (fun j hj => h j (by simp [hj])) hp'

end Keeps

/-- What is the case if a pass ends. -/
abbrev Yields (x : Pass α) (s : State) (Q : α → State → Prop) : Prop :=
  Keeps (fun _ => True) x s Q

theorem Yields.of_forall (h : ∀ a s', x s = .ok a s' → Q a s') : Yields x s Q := by
  refine ⟨fun _ => ?_⟩
  cases hx : x s with
  | ok a s' => exact ⟨trivial, h a s' hx⟩
  | error => trivial

/-! ## Passes that only look -/

/-- A fault in the present file at the line of one of the expressions, which is not about a
jump. -/
def State.FaultAt (s : State) (es : List ExprId) (d : Diagnostic) : Prop :=
  d.fault.isJump = false ∧ d.file = s.program.path s.file ∧
    ∃ e ∈ es, ∃ n, s.program.exprs.get? e = some n ∧ d.line = n.line

/-- The pass leaves the state as it is, and stops at no fault but at some expressions. -/
def Silent (es : List ExprId) (x : Pass α) : Prop := ∀ s,
  match x s with
  | .ok _ s' => s' = s
  | .error b s' => s' = s ∧ ∀ d, b = .fault d → s.FaultAt es d

namespace Silent

variable {es es' : List ExprId}

theorem of_ok {a : α} (h : Silent es x) (hx : x s = .ok a s') : s' = s := by
  have := h s
  rwa [hx] at this

theorem mono (h : Silent es x) (hes : es ⊆ es') : Silent es' x := by
  intro s
  have := h s
  cases hx : x s with
  | ok =>
    rw [hx] at this
    exact this
  | error =>
    rw [hx] at this
    refine ⟨this.1, fun d hd => ?_⟩
    obtain ⟨hj, hf, e, he, hn⟩ := this.2 d hd
    exact ⟨hj, hf, e, hes he, hn⟩

theorem sequence (h : Silent es x) (hf : ∀ a, Silent es (f a)) : Silent es (x >>= f) := by
  intro s
  have := h s
  show match EStateM.bind x f s with
    | .ok _ s' => s' = s
    | .error b s' => s' = s ∧ ∀ d, b = .fault d → s.FaultAt es d
  unfold EStateM.bind
  cases hx : x s with
  | ok a t =>
    rw [hx] at this
    subst this
    exact hf a t
  | error =>
    rw [hx] at this
    exact this

theorem bind (h : Silent [] x) (hf : ∀ a, Silent es (f a)) : Silent es (x >>= f) :=
  sequence (h.mono (List.nil_subset _)) hf

theorem pure {a : α} : Silent es (pure a : Pass α) := fun _ => rfl

theorem answer {q : Query α} : Silent [] (answer q) := by
  intro s
  cases q with
  | ok => rfl
  | error => exact ⟨rfl, fun d hd => by cases hd⟩

theorem ask {q : Program → Query α} : Silent [] (ask q) := fun s => answer s

theorem get : Silent [] (get : Pass State) := fun _ => rfl

theorem askTable {q : ScopeTable → Query α} : Silent [] (askTable q) := fun s => answer s

theorem classScope {c : ClassId} : Silent [] (classScope c) := fun s => answer s

theorem enumScope {e : EnumId} : Silent [] (enumScope e) := fun s => answer s

theorem failAt (h : fault.isJump = false) : Silent [e] (failAt e fault : Pass α) := by
  intro s
  show match EStateM.bind (Pass.ask (·.exprs.fetch e))
      (fun n => (Pass.fail n.line fault : Pass α)) s with
    | .ok _ s' => s' = s
    | .error b s' => s' = s ∧ ∀ d, b = .fault d → s.FaultAt [e] d
  unfold EStateM.bind Pass.ask Pass.answer
  dsimp only
  cases hn : s.program.exprs.fetch e with
  | ok n =>
    refine ⟨rfl, fun d hd => ?_⟩
    cases hd
    exact ⟨h, rfl, e, by simp, n, Arena.fetch_ok.1 hn, rfl⟩
  | error => exact ⟨rfl, fun d hd => by cases hd⟩

theorem mismatchAt {expected : String} : Silent [e] (mismatchAt e expected got : Pass α) :=
    ask.bind fun _ => failAt rfl

theorem mismatchTy : Silent [e] (mismatchTy e expected got : Pass α) := ask.bind fun _ => mismatchAt

theorem ite {c : Prop} [Decidable c] {y : Pass α} (hx : Silent es x) (hy : Silent es y) :
    Silent es (if c then x else y) := by
  split
  · exact hx
  · exact hy

theorem coerce : Silent [e] (coerce e expected) :=
  ask.bind fun _ => ask.bind fun _ => ite pure mismatchTy

theorem requireNumeric : Silent [e] (Resolve.requireNumeric e ty) :=
  ite pure mismatchAt

theorem requireInteger : Silent [e] (Resolve.requireInteger e ty) :=
  ite pure mismatchAt

theorem requireOperand : Silent [e] (Resolve.requireOperand op e ty) :=
    ite requireInteger requireNumeric

theorem requirePlace : Silent [e] (Resolve.requirePlace e) :=
  ask.bind fun _ => ite pure (failAt rfl)

theorem boolLiteral? : Silent [] (Resolve.boolLiteral? e) := by
  refine ask.bind fun v => ?_
  split <;> exact pure

theorem bounds {i j : Interval} : Silent [e] (Resolve.bounds e op i j) := by
  unfold Resolve.bounds
  split
  · exact pure
  · rename_i z _
    exact failAt (by cases z <;> rfl)

theorem checkBounds : Silent [e] (Resolve.checkBounds e op l r) := by
  unfold Resolve.checkBounds
  split
  · exact bounds.sequence fun _ => pure
  · exact pure

theorem areInert {operands : List ExprId} : Silent [] (Resolve.areInert operands) :=
  ask.bind fun _ => pure

theorem inlined? {k : Const} : Silent [] (Resolve.inlined? scope k) := by
  refine askTable.bind fun c => ite pure ?_
  split
  · exact ask
  · exact pure

theorem standsFor {known : Option Symbol} : Silent [] (Resolve.standsFor name known) := by
  unfold Resolve.standsFor
  split
  · exact pure
  · exact askTable

theorem tyOfSymbol {writable : Bool} {symbol : Option Symbol} :
    Silent [e] (Resolve.tyOfSymbol e name writable symbol) := by
  unfold Resolve.tyOfSymbol
  split
  · exact pure
  · exact pure
  · exact pure
  · exact failAt rfl
  · exact failAt rfl

theorem comparable : Silent [] (Resolve.comparable l r) :=
  ite pure (ask.bind fun _ => ite pure ask)

theorem knownEqual {left right : ExprId} : Silent [] (Resolve.knownEqual left right l r) := by
  refine ask.bind fun v => ask.bind fun w => ?_
  split
  · exact pure
  · split <;> exact pure

theorem knownOrder {rel : Relation} {left right : ExprId} :
    Silent [] (Resolve.knownOrder rel left right l r) := by
  unfold Resolve.knownOrder
  split
  · exact pure
  · refine ask.bind fun v => ask.bind fun w => ?_
    split <;> exact pure

theorem commonTy {t : Ty} {items : List ExprId} : Silent items (Resolve.commonTy t items) := by
  induction items generalizing t with
  | nil => exact pure
  | cons _ _ ih =>
    refine ask.bind fun u => ?_
    split
    · exact ih.mono (List.subset_cons_self _ _)
    · exact mismatchTy.mono (by simp)

theorem checkDeclared {value : ExprId} {t : Option Ty} :
    Silent [value] (Resolve.checkDeclared value t) := by
  unfold Resolve.checkDeclared
  split
  · exact pure
  · exact ite pure coerce

theorem returnTy : Silent [] Resolve.returnTy := by
  refine get.bind fun s => ?_
  split
  · exact ask.bind fun _ => pure
  · exact pure

end Silent

variable {es : List ExprId}

theorem Keeps.silent (h : Silent es x) (hq : ∀ a, x s = .ok a s → Q a s) : Keeps I x s Q := by
  refine ⟨fun hi => ?_⟩
  have := h s
  cases hx : x s with
  | ok a =>
    rw [hx] at this
    subst this
    exact ⟨hi, hq a hx⟩
  | error =>
    rw [hx] at this
    obtain ⟨rfl, -⟩ := this
    exact hi

theorem Keeps.silent_bind (h : Silent es x) (hf : ∀ a, x s = .ok a s → Keeps I (f a) s R) :
    Keeps I (x >>= f) s R := by
  refine (Keeps.silent h (Q := fun a s' => s' = s ∧ x s = .ok a s) fun a ha => ⟨rfl, ha⟩).bind ?_
  rintro a _ - ⟨rfl, ha⟩
  exact hf a ha

theorem Keeps.coerce_bind {t : Ty} {f : Unit → Pass β}
    (h : ∀ got, s.program.valueTy e = .ok got → s.program.assignable got t = .ok true →
      Keeps I (f ()) s R) : Keeps I (coerce e t >>= f) s R := by
  refine Keeps.bind (P := fun _ s' => s' = s ∧ Keeps I (f ()) s R) ?_ ?_
  · refine ask_bind fun got hg => ask_bind fun b hb => ?_
    split
    · rename_i hc
      exact pure fun _ => ⟨rfl, h got hg (hc ▸ hb)⟩
    · exact mismatchTy
  · rintro _ _ - ⟨rfl, h⟩
    exact h

theorem Keeps.boolLiteral_bind {f : Option Bool → Pass β}
    (h : ∀ known, (∀ b, known = some b → s.program.literal? e = .ok (some (.bool b))) →
      Keeps I (f known) s R) : Keeps I (Resolve.boolLiteral? e >>= f) s R := by
  refine silent_bind Silent.boolLiteral? fun known hk => h known ?_
  rintro b rfl
  have hq : Keeps (fun _ => True) (Resolve.boolLiteral? e) s fun known _ =>
      known = some b → s.program.literal? e = .ok (some (.bool b)) := by
    refine ask_bind fun v hv => ?_
    split
    · exact pure fun _ hb => Option.some.inj hb ▸ hv
    · exact pure fun _ hb => by cases hb
  exact (hq.of_ok trivial hk).2 rfl

end Pass

end Ci
