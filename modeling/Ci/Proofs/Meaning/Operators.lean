-- Operators keep the meaning of expressions. An operator whose operands have been
-- resolved gets a type that fits its value, or it gives way to a literal that is its
-- value, or to the operand that is.
import Ci.Proofs.Interval.Soundness
import Ci.Proofs.Meaning.Sealed

namespace Ci

open Pass Resolve Arena

variable {q : Program} {s : State} {e l r c : ExprId} {m : ExprNode} {v : Literal} {n : Nat}
  {op : BinaryOp} {t u : Ty} {decisive : Bool} {x y z : Option Value} {operands : List ExprId}
  {env : VarId → Value} {V W L R C : Nat → Option Value}

/-! ## Types of values -/

/-- The types that expressions on integers and truth values can have. -/
def Ty.isPlain : Ty → Bool
  | .range _ | .integer _ | .bool | .enumeration _ => true
  | _ => false

/-- A value is one of a type, as far as the type says. -/
def Ty.Fits : Ty → Value → Prop
  | .range i, .int n => i.Mem n
  | .integer _, .int _ => True
  | .bool, .bool _ => True
  | .enumeration _, _ => True
  | _, _ => False

theorem Ty.Holds.fits {v : Value} (h : t.Holds v) : t.Fits v := by
  unfold Ty.Holds at h
  split at h <;> simp_all [Ty.Fits]

theorem Ty.Fits.mem {i : Interval} {a : Int64} (h : t.Fits (.int a)) (hi : t.asRange = some i) :
    i.Mem a := by
  cases t <;> simp_all [Ty.asRange, Ty.Fits]

/-- A type that is no range does not tell integers apart. -/
theorem Ty.Fits.int {a : Int64} (h : t.Fits (.int a)) (hi : t.asRange = none) (b : Int64) :
    t.Fits (.int b) := by
  cases t <;> simp_all [Ty.asRange, Ty.Fits]

theorem Literal.isPlain_ty (hv : v.value?.isSome) : v.ty.isPlain := by
  cases v <;> simp_all [value?, ty, Ty.isPlain]

theorem Literal.fits_ty {w : Value} (hv : v.value? = some w) : v.ty.Fits w := by
  cases v with
  | bool => cases hv; trivial
  | int a => cases hv; exact Interval.mem_point a
  | _ => cases hv

/-! ## Expressions that mean something -/

/-- An expression that has been resolved has some values, one or none at each depth, and its type
fits them. -/
structure Means (env : VarId → Value) (q : Program) (V : Nat → Option Value) (e : ExprId) :
    Prop where
  typed : ∃ m t, q.exprs.get? e = some m ∧ m.ty = some t ∧ t.isPlain ∧
    (∀ v, m.kind = .literal v → t = v.ty ∧ v.value?.isSome) ∧ ∀ n v, V n = some v → t.Fits v
  value : ∀ n, Implies (V n) (q.valueWithin env n e)

theorem Program.literal?_ok : q.literal? e = .ok (some v) ↔
    ∃ m, q.exprs.get? e = some m ∧ m.kind = .literal v := by
  simp only [literal?, Query.bind_ok, fetch_ok]
  refine exists_congr fun m => and_congr_right fun _ => ?_
  cases m.kind <;> simp

theorem Program.valueWithin_literal (hm : q.exprs.get? e = some m) (hk : m.kind = .literal v) :
    q.valueWithin env (n + 1) e = v.value? := by
  rw [valueWithin, evalVia_eq hm, hk]
  rfl

namespace Means

section

variable (h : Means env q V e)

include h

theorem suits (ht : q.valueTy e = .ok t) : t.isPlain ∧ ∀ n v, V n = some v → t.Fits v := by
  obtain ⟨m, u, hm, hu, hplain, -, hfits⟩ := h.typed
  obtain ⟨m', hm', rfl⟩ := Program.valueTy_ok.1 ht
  obtain rfl := hm.some_unique hm'
  simpa [hu] using ⟨hplain, hfits⟩

theorem literal (hl : q.literal? e = .ok (some v)) :
    v.value?.isSome ∧ ∀ t, q.valueTy e = .ok t → t = v.ty := by
  obtain ⟨m, u, hm, hu, -, hlit, -⟩ := h.typed
  obtain ⟨m', hm', hk⟩ := Program.literal?_ok.1 hl
  obtain rfl := hm.some_unique hm'
  refine ⟨(hlit v hk).2, fun t ht => ?_⟩
  obtain ⟨m', hm', rfl⟩ := Program.valueTy_ok.1 ht
  obtain rfl := hm.some_unique hm'
  simpa [hu] using (hlit v hk).1

/-- A literal is its value. -/
theorem literal_value {w : Value} (hl : q.literal? e = .ok (some v)) (hw : V n = some w) :
    v.value? = some w := by
  obtain ⟨m, hm, hk⟩ := Program.literal?_ok.1 hl
  have := Program.valueWithin_mono (Nat.le_succ n) w (h.value n w hw)
  rwa [Program.valueWithin_literal hm hk] at this

/-- An integer literal that has been resolved has a range. -/
theorem asRange {a : Int64} (hl : q.literal? e = .ok (some v)) (ht : q.valueTy e = .ok t)
    (ha : V n = some (.int a)) : t.asRange = some (.point a) := by
  have hv := h.literal_value hl ha
  rw [(h.literal hl).2 t ht]
  cases v <;> simp_all [Literal.value?, Literal.ty, Ty.asRange]

end

theorem later (h : Means env s.program V e) (hs : Sealed s.program e) (hc : SettledConsts s)
    (hl : Lasts s.program q) : Means env q V e := by
  obtain ⟨m, t, hm, ht, hrest⟩ := h.typed
  exact ⟨⟨m, t, hl.exprs e m hm (by simp [ht]), ht, hrest⟩,
    fun n => (h.value n).trans (hs.valueWithin_later hc hl)⟩

end Means

/-- The pass ends with an expression that has some values. -/
abbrev Conveys (env : VarId → Value) (V : Nat → Option Value) (x : Pass ExprId)
    (s : State) : Prop :=
  Yields x s fun e' s' => Means env s'.program V e'

/-! ## Ends of a rule -/

/-- Values are found from others that are less deep. -/
structure Above (V W : Nat → Option Value) : Prop where
  zero : V 0 = none
  succ : ∀ n, Implies (V (n + 1)) (W n)

theorem Above.elim {v : Value} (h : Above V W) (hv : V n = some v) :
    ∃ m, n = m + 1 ∧ W m = some v := by
  cases n with
  | zero => simp [h.zero] at hv
  | succ m => exact ⟨m, rfl, h.succ m v hv⟩

/-- A literal takes the place of an expression. -/
theorem conveys_fold (hv : v.value?.isSome) (hval : ∀ n w, V n = some w → v.value? = some w)
    (hzero : V 0 = none) : Conveys env V (Pass.fold e v) s := by
  refine .of_forall fun e' s' run => ?_
  obtain ⟨room, rfl, m, -, rfl⟩ := fold_eq_ok.1 run
  have hself : (s.grow m.line v).program.exprs.get? s.program.exprs.next
      = some ⟨.literal v, m.line, some v.ty⟩ := get?_next_push room
  refine ⟨⟨_, v.ty, hself, rfl, v.isPlain_ty hv, ?_, fun n w hw => v.fits_ty (hval n w hw)⟩, ?_⟩
  · rintro w ⟨⟩
    exact ⟨rfl, hv⟩
  · intro n w hw
    cases n with
    | zero => simp [hzero] at hw
    | succ n => exact (Program.valueWithin_literal hself rfl).trans (hval _ w hw)

/-- An operand takes the place of an operator. -/
theorem conveys_part (h : Means env s.program W e) (hV : Above V W) : Conveys env V (pure e) s := by
  refine .pure fun _ => ⟨?_, fun n v hv => ?_⟩
  · obtain ⟨m, t, hm, ht, hplain, hlit, hfits⟩ := h.typed
    refine ⟨m, t, hm, ht, hplain, hlit, fun n v hv => ?_⟩
    obtain ⟨n', rfl, hw⟩ := hV.elim hv
    exact hfits n' v hw
  · obtain ⟨n', rfl, hw⟩ := hV.elim hv
    exact Program.valueWithin_mono (Nat.le_succ n') v (h.value n' v hw)

/-- An expression that is no literal and is about to get its type. It has some values, by those of
its operands. -/
structure Open (env : VarId → Value) (s : State) (V : Nat → Option Value) (e : ExprId) : Prop where
  zero : V 0 = none
  node : ∃ m, s.program.exprs.get? e = some m ∧ m.kind.isLiteral = false
  value : ∀ m t, s.program.exprs.get? e = some m → ∀ n, Implies (V n)
    ((s.put e { m with ty := some t }).program.valueWithin env n e)

namespace Open

variable (h : Open env s V e)

include h

theorem typed (hp : t.isPlain) (hf : ∀ n v, V n = some v → t.Fits v) :
    Conveys env V (Pass.typed e t) s := by
  refine .of_forall fun e' s' run => ?_
  obtain ⟨rfl, m, hm, rfl⟩ := typed_eq_ok.1 run
  obtain ⟨m', hm', hlit⟩ := h.node
  obtain rfl := hm.some_unique hm'
  refine ⟨⟨_, t, get?_put_self hm, rfl, hp, fun v hk => ?_, hf⟩, h.value m t hm⟩
  have hk' : m.kind = .literal v := hk
  simp [hk'] at hlit

theorem foldUnless (hv : v.value?.isSome) (hp : t.isPlain) (hf : ∀ n v, V n = some v → t.Fits v)
    (hval : ∀ n w, V n = some w → v.value? = some w) :
    Conveys env V (Resolve.foldUnless e operands v t) s := by
  refine Keeps.silent_bind .areInert fun inert _ => ?_
  split
  · exact conveys_fold hv hval h.zero
  · exact h.typed hp hf

/-- The expression has a range. -/
theorem typedRange {i : Interval} (hf : ∀ n v, V n = some v → ∃ a, v = .int a ∧ i.Mem a) :
    Conveys env V (Resolve.typedRange e operands i) s := by
  have hfits : ∀ n v, V n = some v → (Ty.range i).Fits v := by
    intro n v hv
    obtain ⟨a, rfl, ha⟩ := hf n v hv
    exact ha
  unfold Resolve.typedRange
  split
  · rename_i m hm
    refine h.foldUnless rfl rfl hfits fun n v hv => ?_
    obtain ⟨a, rfl, ha⟩ := hf n v hv
    rw [Interval.asPoint_eq_some hm ha]
    rfl
  · exact h.typed rfl hfits

/-- The expression is a truth value, which may be known. -/
theorem typedBool {known : Option Bool}
    (hf : ∀ n v, V n = some v → ∃ b, v = .bool b ∧ ∀ k, known = some k → k = b) :
    Conveys env V (Resolve.typedBool e operands known) s := by
  have hfits : ∀ n v, V n = some v → Ty.bool.Fits v := by
    intro n v hv
    obtain ⟨b, rfl, -⟩ := hf n v hv
    trivial
  unfold Resolve.typedBool
  split
  · refine h.foldUnless rfl rfl hfits fun n v hv => ?_
    obtain ⟨b, rfl, hb⟩ := hf n v hv
    rw [hb _ rfl]
    rfl
  · exact h.typed rfl hfits

end Open

/-! ## One operand -/

section

variable (h : Open env s V e) (hl : Means env s.program L l)

include h hl

theorem conveys_negation (hV : Above V fun n => (L n).bind PrefixOp.minus.eval) :
    Conveys env V (Resolve.negation e l) s := by
  refine Keeps.ask_bind fun t ht => Keeps.silent_bind .requireNumeric fun _ _ =>
    Keeps.ask_bind fun v hv => ?_
  obtain ⟨hplain, hfits⟩ := hl.suits ht
  have hval : ∀ n v, V n = some v → ∃ a b, t.Fits (.int a) ∧ v = .int b ∧ b.toInt = -a.toInt := by
    intro n v hv
    obtain ⟨n, rfl, hw⟩ := hV.elim hv
    obtain ⟨a, ha, hv⟩ := Option.bind_eq_some_iff.1 hw
    cases a with
    | int a =>
      obtain ⟨b, hb, rfl⟩ := Option.map_eq_some_iff.1 hv
      exact ⟨a, b, hfits n _ ha, rfl, IntOp.exact_eq_some hb⟩
    | bool => cases hv
  split
  · have := (hl.literal hv).1
    simp [Literal.value?] at this
  · split
    · rename_i i hi
      refine h.typedRange fun n v hv => ?_
      obtain ⟨a, b, ha, rfl, hb⟩ := hval n v hv
      exact ⟨b, rfl, Interval.neg_mem (ha.mem hi) hb⟩
    · rename_i hi
      refine h.typed hplain fun n v hv => ?_
      obtain ⟨a, b, ha, rfl, -⟩ := hval n v hv
      exact ha.int hi b

theorem conveys_bitComplement (hV : Above V fun n => (L n).bind PrefixOp.tilde.eval) :
    Conveys env V (Resolve.bitComplement e l) s := by
  refine Keeps.ask_bind fun t ht => Keeps.silent_bind .requireInteger fun _ _ => ?_
  obtain ⟨hplain, hfits⟩ := hl.suits ht
  have hval : ∀ n v, V n = some v → ∃ a, t.Fits (.int a) ∧ v = .int (~~~a) := by
    intro n v hv
    obtain ⟨n, rfl, hw⟩ := hV.elim hv
    obtain ⟨a, ha, hv⟩ := Option.bind_eq_some_iff.1 hw
    cases a with
    | int a => exact ⟨a, hfits n _ ha, (Option.some.inj hv).symm⟩
    | bool => cases hv
  split
  · rename_i i hi
    refine h.typedRange fun n v hv => ?_
    obtain ⟨a, ha, rfl⟩ := hval n v hv
    exact ⟨~~~a, rfl, Interval.complement_mem (ha.mem hi)⟩
  · rename_i hi
    refine h.typed hplain fun n v hv => ?_
    obtain ⟨a, ha, rfl⟩ := hval n v hv
    exact ha.int hi _

theorem conveys_logicalNot (hV : Above V fun n => (L n).bind PrefixOp.not.eval) :
    Conveys env V (Resolve.logicalNot e l) s := by
  refine Keeps.coerce_bind fun t _ _ => Keeps.boolLiteral_bind fun known hk => ?_
  have hval : ∀ n v, V n = some v → ∃ m b, L m = some (.bool b) ∧ v = .bool !b := by
    intro n v hv
    obtain ⟨n, rfl, hw⟩ := hV.elim hv
    obtain ⟨a, ha, hv⟩ := Option.bind_eq_some_iff.1 hw
    cases a with
    | int => cases hv
    | bool b => exact ⟨n, b, ha, (Option.some.inj hv).symm⟩
  split
  · rename_i b
    refine conveys_fold rfl (fun n v hv => ?_) h.zero
    obtain ⟨m, c, hc, rfl⟩ := hval n v hv
    have := hl.literal_value (hk b rfl) hc
    simp_all [Literal.value?]
  · refine h.typed rfl fun n v hv => ?_
    obtain ⟨m, c, hc, rfl⟩ := hval n v hv
    trivial

/-- The end of an operator before its operand. -/
theorem conveys_beforeEnd {op : PrefixOp} (hop : op.isPlain)
    (hV : Above V fun n => (L n).bind op.eval) : Conveys env V (Resolve.beforeEnd e l op) s := by
  cases op with
  | minus => exact conveys_negation h hl hV
  | tilde => exact conveys_bitComplement h hl hV
  | not => exact conveys_logicalNot h hl hV
  | _ => cases hop

end

/-! ## Two operands -/

theorem resultTy_eq (op : IntOp) (ht : t.isPlain) (hu : u.isPlain) :
    ∃ w, resultTy op t u = .integer w := by
  have hint : ∃ w, Ty.integerResult t u = .integer w := by
    unfold Ty.integerResult
    split
    · exact ⟨_, rfl⟩
    · exact ⟨_, rfl⟩
  have hfloat : t.isFloating = false ∧ u.isFloating = false := by
    cases t <;> cases u <;> simp_all [Ty.isPlain, Ty.isFloating]
  unfold resultTy Ty.numericResult
  split
  · exact hint
  · simpa [hfloat] using hint

theorem equal_of_value? {w : Literal} {a b : Value} {c : Bool} (hv : v.value? = some a)
    (hw : w.value? = some b) (hc : a.equal? b = some c) : v.equal w = c := by
  cases v <;> cases w <;> simp_all [Literal.value?] <;> subst hv hw <;>
    simp_all [Value.equal?, Literal.equal, Literal.same]

theorem BinaryOp.combine_eq {v : Value} (hop : op ≠ .condAnd ∧ op ≠ .condOr)
    (h : op.combine x y = some v) : ∃ a b, x = some a ∧ y = some b ∧ op.eval a b = some v := by
  have h' : (x.bind fun a => y.bind fun b => op.eval a b) = some v := by
    cases op <;> first | exact h | simp at hop
  obtain ⟨a, ha, h'⟩ := Option.bind_eq_some_iff.1 h'
  obtain ⟨b, hb, h'⟩ := Option.bind_eq_some_iff.1 h'
  exact ⟨a, b, ha, hb, h'⟩

section

variable {known : Option Bool} {a b : Value}
variable (hl : Means env s.program L l) (hr : Means env s.program R r)
variable (ht : s.program.valueTy l = .ok t) (hu : s.program.valueTy r = .ok u)
variable (ha : L n = some a) (hb : R n = some b)
include hl hr ht hu ha hb

/-- What is known in advance of the equality of two operands is the case. -/
theorem knownEqual_eq {c : Bool} (hk : knownEqual l r t u s = .ok known s)
    (hc : a.equal? b = some c) : ∀ k, known = some k → k = c := by
  suffices hq : Yields (knownEqual l r t u) s fun known _ => ∀ k, known = some k → k = c from
    (hq.of_ok trivial hk).2
  refine Keeps.ask_bind fun v hv => Keeps.ask_bind fun w hw => ?_
  split
  · refine .pure fun _ k hk => ?_
    rw [← Option.some.inj hk]
    exact equal_of_value? (hl.literal_value hv ha) (hr.literal_value hw hb) hc
  · split
    · rename_i i j hi hj
      refine .pure fun _ k hk => ?_
      split at hk
      · rename_i hd
        cases hk
        have hfa := (hl.suits ht).2 n a ha
        have hfb := (hr.suits hu).2 n b hb
        cases a <;> cases b <;> simp only [Value.equal?, reduceCtorEq, Option.some.injEq] at hc
        · exact (beq_eq_false_iff_ne.2
            (Interval.ne_of_disjoint hd (hfa.mem hi) (hfb.mem hj))).symm.trans hc
        · cases t <;> simp_all [Ty.asRange, Ty.Fits]
      · cases hk
    · exact .pure fun _ k hk => by cases hk

/-- What is known in advance of the order of two operands is the case. -/
theorem knownOrder_eq {rel : Relation} {i j : Int64}
    (hk : knownOrder rel l r t u s = .ok known s) (hi : a = .int i) (hj : b = .int j) :
    ∀ k, known = some k → k = rel.holds i j := by
  subst hi hj
  suffices hq : Yields (knownOrder rel l r t u) s fun known _ =>
      ∀ k, known = some k → k = rel.holds i j from (hq.of_ok trivial hk).2
  unfold knownOrder
  split
  · rename_i hti huj
    refine .pure fun _ k hk => ?_
    exact (Relation.holds_of_decide? hk (((hl.suits ht).2 n _ ha).mem hti)
      (((hr.suits hu).2 n _ hb).mem huj)).symm
  · rename_i hranges
    refine Keeps.ask_bind fun v hv => Keeps.ask_bind fun w hw => ?_
    split
    · -- Both are literals, so both have ranges.
      rename_i hn hn'
      obtain ⟨v, rfl, -⟩ := Option.bind_eq_some_iff.1 hn
      obtain ⟨w, rfl, -⟩ := Option.bind_eq_some_iff.1 hn'
      exact (hranges _ _ (hl.asRange hv ht ha) (hr.asRange hw hu hb)).elim
    · exact .pure fun _ k hk => by cases hk

end

theorem shortCircuit_eq {v : Value} (h : shortCircuit decisive x y = some v) :
    ∃ b, x = some (.bool b) ∧ (b = decisive ∧ v = .bool b ∨ b ≠ decisive ∧ y = some v) ∧
      ∃ c, v = .bool c := by
  unfold shortCircuit at h
  split at h
  · rename_i b
    refine ⟨b, rfl, ?_⟩
    split at h
    · cases h
      exact ⟨.inl ⟨‹_›, rfl⟩, b, rfl⟩
    · split at h
      · cases h
        exact ⟨.inr ⟨‹_›, rfl⟩, _, rfl⟩
      · cases h
  · cases h

section

variable (h : Open env s V e) (hl : Means env s.program L l) (hr : Means env s.program R r)

include h hl hr

theorem conveys_arithmetic {op : IntOp}
    (hV : Above V fun n => (BinaryOp.arith op).combine (L n) (R n)) :
    Conveys env V (Resolve.arithmetic e op l r) s := by
  refine Keeps.ask_bind fun t ht => Keeps.ask_bind fun u hu => ?_
  obtain ⟨hplain, hfits⟩ := hl.suits ht
  obtain ⟨hplain', hfits'⟩ := hr.suits hu
  have hval : ∀ n v, V n = some v → ∃ a b c,
      t.Fits (.int a) ∧ u.Fits (.int b) ∧ op.eval a b = some c ∧ v = .int c := by
    intro n v hv
    obtain ⟨n, rfl, hw⟩ := hV.elim hv
    obtain ⟨a, b, ha, hb, hv⟩ := BinaryOp.combine_eq (by simp) hw
    cases a <;> cases b <;> simp only [BinaryOp.eval, reduceCtorEq] at hv
    obtain ⟨c, hc, rfl⟩ := Option.map_eq_some_iff.1 hv
    exact ⟨_, _, c, hfits n _ ha, hfits' n _ hb, hc, rfl⟩
  have hstring : ¬(op = .add ∧ (t.isString ∨ u.isString)) := by
    cases t <;> cases u <;> simp_all [Ty.isPlain, Ty.isString]
  rw [if_neg hstring]
  split
  · rename_i i j hi hj
    refine Keeps.bind (P := fun k s' => s' = s ∧ Interval.apply op i j = .ok k) ?_ ?_
    · unfold bounds
      split
      · exact .pure fun _ => ⟨rfl, ‹_›⟩
      · exact .failAt
    · rintro k _ - ⟨rfl, hk⟩
      refine h.typedRange fun n v hv => ?_
      obtain ⟨a, b, c, ha, hb, hc, rfl⟩ := hval n v hv
      obtain ⟨k', hk', hm⟩ := Interval.apply_mem (ha.mem hi) (hb.mem hj) hc
      rw [hk] at hk'
      cases hk'
      exact ⟨c, rfl, hm⟩
  · refine Keeps.silent_bind .requireOperand fun _ _ => Keeps.silent_bind .requireOperand
      fun _ _ => ?_
    obtain ⟨w, hw⟩ := resultTy_eq op hplain hplain'
    rw [hw]
    refine h.typed rfl fun n v hv => ?_
    obtain ⟨a, b, c, -, -, -, rfl⟩ := hval n v hv
    trivial

/-- A comparison for equality, or for the lack of it. -/
theorem conveys_equality (wanted : Bool) (hop : op ≠ .condAnd ∧ op ≠ .condOr)
    (heval : ∀ a b, op.eval a b = (a.equal? b).map fun c => .bool (c == wanted))
    (hV : Above V fun n => op.combine (L n) (R n)) :
    Conveys env V (Resolve.equality e wanted l r) s := by
  refine Keeps.ask_bind fun t ht => Keeps.ask_bind fun u hu =>
    Keeps.silent_bind .comparable fun _ _ => ?_
  split
  · refine Keeps.silent_bind .knownEqual fun known hk => h.typedBool fun n v hv => ?_
    obtain ⟨n, rfl, hw⟩ := hV.elim hv
    obtain ⟨a, b, ha, hb, hv⟩ := BinaryOp.combine_eq hop hw
    rw [heval] at hv
    obtain ⟨c, hc, rfl⟩ := Option.map_eq_some_iff.1 hv
    refine ⟨_, rfl, fun k hk' => ?_⟩
    obtain ⟨k', rfl, rfl⟩ := Option.map_eq_some_iff.1 hk'
    rw [knownEqual_eq hl hr ht hu ha hb hk hc k' rfl]
  · exact .mismatchTy

theorem conveys_ordering {rel : Relation}
    (hV : Above V fun n => (BinaryOp.order rel).combine (L n) (R n)) :
    Conveys env V (Resolve.ordering e rel l r) s := by
  refine Keeps.ask_bind fun t ht => Keeps.ask_bind fun u hu =>
    Keeps.silent_bind .requireNumeric fun _ _ => Keeps.silent_bind .requireNumeric fun _ _ =>
    Keeps.silent_bind .knownOrder fun known hk => h.typedBool fun n v hv => ?_
  obtain ⟨n, rfl, hw⟩ := hV.elim hv
  obtain ⟨a, b, ha, hb, hv⟩ := BinaryOp.combine_eq (by simp) hw
  cases a <;> cases b <;> simp only [BinaryOp.eval, reduceCtorEq, Option.some.injEq] at hv
  exact ⟨_, hv.symm, knownOrder_eq hl hr ht hu ha hb hk rfl rfl⟩

/-- A logical operator, of which it is said what its left side decides. -/
theorem conveys_logical (hV : Above V fun n => shortCircuit decisive (L n) (R n)) :
    Conveys env V (Resolve.logical e decisive l r) s := by
  refine Keeps.coerce_bind fun t _ _ => Keeps.coerce_bind fun u _ _ =>
    Keeps.boolLiteral_bind fun known hk => ?_
  split
  · rename_i b
    have hlit : ∀ m c, L m = some (.bool c) → b = c := fun m c hc => by
      simpa [Literal.value?] using hl.literal_value (hk b rfl) hc
    split
    · rename_i hdec
      refine conveys_fold rfl (fun n v hv => ?_) h.zero
      obtain ⟨n, rfl, hw⟩ := hV.elim hv
      obtain ⟨c, hc, ⟨-, rfl⟩ | ⟨hne, -⟩, -⟩ := shortCircuit_eq hw
      · rw [hlit n c hc]
        rfl
      · exact absurd (hlit n c hc ▸ hdec) hne
    · rename_i hdec
      refine conveys_part hr ⟨h.zero, fun n v hv => ?_⟩
      obtain ⟨c, hc, ⟨he, -⟩ | ⟨-, hr⟩, -⟩ := shortCircuit_eq (hV.succ n v hv)
      · exact absurd ((hlit n c hc).trans he) hdec
      · exact hr
  · refine h.typed rfl fun n v hv => ?_
    obtain ⟨n, rfl, hw⟩ := hV.elim hv
    obtain ⟨_, -, -, c, rfl⟩ := shortCircuit_eq hw
    trivial

/-- The end of an operator between two operands. -/
theorem conveys_operation (hop : op.isPlain) (hV : Above V fun n => op.combine (L n) (R n)) :
    Conveys env V (Resolve.operation e op l r) s := by
  cases op with
  | arith => exact conveys_arithmetic h hl hr hV
  | equal => exact conveys_equality h hl hr true (by simp) (fun a b => by simp [BinaryOp.eval]) hV
  | notEqual =>
    exact conveys_equality h hl hr false (by simp) (fun a b => by simp [BinaryOp.eval]) hV
  | order => exact conveys_ordering h hl hr hV
  | condAnd => exact conveys_logical h hl hr hV
  | condOr => exact conveys_logical h hl hr hV
  | _ => cases hop

end

/-! ## Choices -/

theorem choose_eq {v : Value} (h : choose x y z = some v) :
    x = some (.bool true) ∧ y = some v ∨ x = some (.bool false) ∧ z = some v := by
  unfold choose at h
  split at h
  · exact .inl ⟨rfl, h⟩
  · exact .inr ⟨rfl, h⟩
  · cases h

/-- The common type of two types has the values of both. -/
theorem fits_unify {w : Ty} (ht : t.isPlain) (hu : u.isPlain) (h : Ty.unify t u = some w) :
    w.isPlain ∧ ∀ v, t.Fits v ∨ u.Fits v → w.Fits v := by
  unfold Ty.unify at h
  split at h
  · cases h
    subst u
    exact ⟨ht, fun v hv => hv.elim id id⟩
  · split at h
    · cases h
      refine ⟨rfl, fun v hv => ?_⟩
      cases v with
      | bool => rcases hv with hv | hv <;> exact hv
      | int =>
        rcases hv with hv | hv
        · exact Interval.mem_union_left hv
        · exact Interval.mem_union_right hv
    · cases t <;> cases u <;> simp_all [Ty.isPlain, Ty.isFloating]

/-- The side that is taken means what the choice means. -/
theorem conveys_choice (h : Open env s V e) (hc : Means env s.program C c)
    (hl : Means env s.program L l) (hr : Means env s.program R r)
    (hV : Above V fun n => choose (C n) (L n) (R n)) :
    Conveys env V (Resolve.choice e c l r) s := by
  refine Keeps.ask_bind fun t ht => Keeps.ask_bind fun u hu => ?_
  split
  · exact .mismatchTy
  · rename_i w hw
    obtain ⟨hplain, hfits⟩ := fits_unify (hl.suits ht).1 (hr.suits hu).1 hw
    refine Keeps.boolLiteral_bind fun known hk => ?_
    have hlit : ∀ b m d, known = some b → C m = some (.bool d) → b = d := fun b m d hb hd => by
      simpa [Literal.value?] using hc.literal_value (hk b hb) hd
    split
    · refine conveys_part hl ⟨h.zero, fun n v hv => ?_⟩
      obtain ⟨-, hv⟩ | ⟨hf, -⟩ := choose_eq (hV.succ n v hv)
      · exact hv
      · cases hlit _ n _ rfl hf
    · refine conveys_part hr ⟨h.zero, fun n v hv => ?_⟩
      obtain ⟨ht, -⟩ | ⟨-, hv⟩ := choose_eq (hV.succ n v hv)
      · cases hlit _ n _ rfl ht
      · exact hv
    · refine h.typed hplain fun n v hv => ?_
      obtain ⟨n, rfl, hw⟩ := hV.elim hv
      obtain ⟨-, hv⟩ | ⟨-, hv⟩ := choose_eq hw
      · exact hfits v (.inl ((hl.suits ht).2 n v hv))
      · exact hfits v (.inr ((hr.suits hu).2 n v hv))

end Ci
