-- Ranges as types. A range is written as a comparison of constants, or as the half of
-- one. Its upper bound, where it is left out, is lowered by one before the range
-- is checked. Below the least word there is no other, so that the range from the
-- least word to itself holds that word, whether it is left out or not.
import Ci.Proofs.Frame.Rules
import Ci.Proofs.Hierarchy.Circles
import Ci.Proofs.Interval.Words

namespace Ci

open Pass

variable {calls : Calls} {n : Nat} {s s1 s' : State} {e e' x low high : ExprId} {m : ExprNode}
  {t : Ty} {a b v : Int64} {included writable : Bool}

/-! ## What is written -/

/-- An expression resolves to an integer, and another expression takes its place. -/
structure Pass.Calls.Counts (calls : Calls) (s : State) (e e' : ExprId) (v : Int64) (s' : State) :
    Prop where
  run : calls.expr e s = .ok e' s'
  literal : s'.program.literal? e' = .ok (some (.int v))

/-- The forms of a range: the lower bound if there is one, whether the upper bound is included,
and the upper bound. -/
inductive RangeForm : Expr → Option ExprId → Bool → ExprId → Prop
  | less (low high : ExprId) :
      RangeForm (.binary (.order .less) low (.expr high)) (some low) false high
  | lessOrEqual (low high : ExprId) :
      RangeForm (.binary (.order .lessOrEqual) low (.expr high)) (some low) true high
  | fromZero (high : ExprId) : RangeForm (.before .less high) none false high
  | fromZeroTo (high : ExprId) : RangeForm (.before .lessOrEqual high) none true high

/-- The bounds of a range resolve to integers, from left to right. A bound that is not written is
zero. -/
inductive BoundsCount (calls : Calls) (s : State) (high : ExprId) :
    Option ExprId → Int64 → Int64 → State → Prop
  | fromZero {high' : ExprId} {b : Int64} {s' : State} (upper : calls.Counts s high high' b s') :
      BoundsCount calls s high none 0 b s'
  | both {low low' high' : ExprId} {a b : Int64} {s1 s' : State}
      (lower : calls.Counts s low low' a s1) (upper : calls.Counts s1 high high' b s') :
      BoundsCount calls s high (some low) a b s'

/-- The upper end of a range. -/
def Resolve.upperEnd (included : Bool) (bound : Int64) : Int64 :=
  if included then bound else Saturating.sub bound 1

/-- The word does not lie beyond an upper bound. -/
def Below (included : Bool) (v bound : Int64) : Prop := if included then v ≤ bound else v < bound

/-- Only the least word has no word below it, and is its own upper end. -/
theorem le_upperEnd_iff :
    v ≤ Resolve.upperEnd included b ↔
      Below included v b ∨ included = false ∧ v = Int64.minValue ∧ b = Int64.minValue := by
  cases included with
  | true => simp [Resolve.upperEnd, Below]
  | false =>
    have hlow := toInt_lower b
    have hhigh := toInt_upper b
    have hvlow := toInt_lower v
    simp only [Resolve.upperEnd, Bool.false_eq_true, if_false, Saturating.sub, Below, true_and,
      Int64.lt_iff_toInt_lt, Int64.le_iff_toInt_le, ← Int64.toInt_inj, Int64.toInt_one]
    by_cases hleast : b.toInt = Int64.minValue.toInt
    · rw [Saturating.ofIntClamp_of_below (by omega)]
      omega
    · rw [Int64.toInt_ofIntClamp (by omega) (by omega)]
      omega

/-- The type that a name in a type stands for. -/
def Symbol.asType (writable : Bool) : Symbol → Option Ty
  | .classDecl c => some (.classPointer c writable)
  | .type t => some t
  | .enumDecl d => some (.enumeration d)
  | _ => none

/-! ## How it is read -/

namespace Resolve

theorem constantInt_eq_ok {r : ExprId × Int64} :
    constantInt calls e s = .ok r s' ↔ calls.Counts s e r.1 r.2 s' := by
  constructor
  · intro run
    simp only [constantInt, bind_eq_ok, literal?_eq_ok] at run
    obtain ⟨e', s1, he, v, _, ⟨hv, rfl⟩, run⟩ := run
    split at run
    · obtain ⟨rfl, rfl⟩ := pure_eq_ok.1 run
      exact ⟨he, hv⟩
    · simp at run
    · simp at run
  · rintro ⟨he, hv⟩
    simp only [constantInt, bind_eq_ok, literal?_eq_ok]
    exact ⟨r.1, s', he, _, s', ⟨hv, rfl⟩, rfl⟩

theorem rangeTo_of_counts (h : calls.Counts s e e' b s') : rangeTo calls a included e s =
      (if upperEnd included b < a then failAt e (.rangeMinGreaterThanMax a (upperEnd included b))
        else pure (e', .range ⟨a, upperEnd included b⟩) : Pass (ExprId × Ty)) s' := by
  have hcount : constantInt calls e s = .ok (e', b) s' := constantInt_eq_ok.2 h
  rw [rangeTo, bind_ok hcount, upperEnd]

theorem rangeTo_eq_ok {r : ExprId × Ty} :
    rangeTo calls a included e s = .ok r s' ↔
      ∃ b, calls.Counts s e r.1 b s' ∧ a ≤ upperEnd included b ∧
        r.2 = .range ⟨a, upperEnd included b⟩ := by
  constructor
  · intro run
    obtain ⟨⟨e', b⟩, s1, hb, -⟩ := bind_eq_ok.1 run
    have hcounts := constantInt_eq_ok.1 hb
    rw [rangeTo_of_counts hcounts] at run
    split at run
    · simp at run
    · obtain ⟨rfl, rfl⟩ := pure_eq_ok.1 run
      exact ⟨b, hcounts, Int64.not_lt.1 (by assumption), rfl⟩
  · rintro ⟨b, hcounts, hle, hr⟩
    rw [rangeTo_of_counts hcounts, if_neg (Int64.not_lt.2 hle)]
    exact pure_eq_ok.2 ⟨Prod.ext rfl hr, rfl⟩

/-- A length is a number that is not negative and fits in 32 signed bits. -/
theorem arrayLength_eq_ok {r : ExprId × UInt32} :
    arrayLength calls e s = .ok r s' ↔
      ∃ v, calls.Counts s e r.1 v s' ∧ ¬ v < 0 ∧ ¬ 2147483647 < v ∧
        r.2 = UInt32.ofNat v.toNatClampNeg := by
  simp only [arrayLength, bind_eq_ok, constantInt_eq_ok]
  constructor
  · rintro ⟨⟨e', v⟩, s1, hcount, run⟩
    dsimp only at hcount run
    split at run
    · simp at run
    · split at run
      · simp at run
      · obtain ⟨rfl, rfl⟩ := pure_eq_ok.1 run
        exact ⟨v, hcount, by assumption, by assumption, rfl⟩
  · rintro ⟨v, hcount, hneg, hbig, hr⟩
    refine ⟨(r.1, v), s', hcount, ?_⟩
    dsimp only
    rw [if_neg hneg, if_neg hbig]
    exact pure_eq_ok.2 ⟨Prod.ext rfl hr, rfl⟩

/-- An expression that has been resolved is there. -/
theorem exists_of_expr (h : (callsWithin n).expr e s = .ok e' s') :
    ∃ m, s.program.exprs.get? e = some m := by
  cases n with
  | zero => simp [callsWithin, outOfDepth] at h
  | succ =>
    simp only [callsWithin, exprRule, bind_eq_ok, node_eq_ok] at h
    obtain ⟨m, _, ⟨hm, -⟩, -⟩ := h
    exact ⟨m, hm⟩

/-- What is there stays there. -/
theorem exists_after_expr (h : (callsWithin n).expr e s = .ok e' s')
    (hx : ∃ m, s.program.exprs.get? x = some m) : ∃ m, s'.program.exprs.get? x = some m := by
  obtain ⟨m, hm⟩ := hx
  have hmoves := (((Moves.stay_callsWithin Set.univ n).expr s e (.inl trivial)).of_ok
    (.refl .univ) h).1
  obtain ⟨m', hm', -⟩ := hmoves.program.exprs.part x m hm
  exact ⟨m', hm'⟩

theorem failAt_eq_error (α : Type) (fault : Fault) (h : ∃ m, s.program.exprs.get? e = some m) :
    ∃ d, (failAt e fault : Pass α) s = .error (.fault d) s ∧ d.fault = fault := by
  obtain ⟨m, hm⟩ := h
  exact ⟨_, bind_ok (node_eq_ok.2 ⟨hm, rfl⟩), rfl⟩

theorem rangeType_of_counts {rel : Relation} (h : calls.Counts s low e' a s1) :
    rangeType calls e rel low high s = (do
      let (right, t) ← rangeTo calls a (rel == Relation.lessOrEqual) high
      replace e (.binary (.order rel) e' (.expr right))
      return t : Pass Ty) s1 := by
  have hcount : constantInt calls low s = .ok (e', a) s1 := constantInt_eq_ok.2 h
  rw [rangeType, bind_ok hcount]

section

variable (he : ∃ m, s.program.exprs.get? e = some m)

include he

theorem rangeType_eq_ok_iff {rel : Relation} :
    (∃ s', rangeType (callsWithin n) e rel low high s = .ok t s' ∧
        ∃ m, s'.program.exprs.get? e = some m) ↔
      ∃ a b s1, BoundsCount (callsWithin n) s high (some low) a b s1 ∧
        a ≤ upperEnd (rel == .lessOrEqual) b ∧
          t = .range ⟨a, upperEnd (rel == .lessOrEqual) b⟩ := by
  simp only [rangeType, bind_eq_ok, constantInt_eq_ok, rangeTo_eq_ok, replace_eq_ok, pure_eq_ok]
  constructor
  · rintro ⟨_, ⟨_, _, lower, _, s1, ⟨b, upper, hle, hty⟩, _, _, -, rfl, -⟩, -⟩
    exact ⟨_, b, s1, .both lower upper, hle, hty⟩
  · rintro ⟨a, b, s1, bounds, hle, rfl⟩
    cases bounds with
    | @both _ l r _ _ s0 _ lower upper =>
      obtain ⟨m, hm⟩ := exists_after_expr upper.run (exists_after_expr lower.run he)
      exact ⟨_, ⟨(l, a), s0, lower, (r, _), s1, ⟨b, upper, hle, rfl⟩, (), _,
        ⟨m, hm, rfl⟩, rfl, rfl⟩, _, get?_put_self hm⟩

theorem rangeFromZero_eq_ok_iff {op : PrefixOp} :
    (∃ s', rangeFromZero (callsWithin n) e op high s = .ok t s' ∧
        ∃ m, s'.program.exprs.get? e = some m) ↔
      ∃ a b s1, BoundsCount (callsWithin n) s high none a b s1 ∧
        a ≤ upperEnd (op == .lessOrEqual) b ∧ t = .range ⟨a, upperEnd (op == .lessOrEqual) b⟩ := by
  simp only [rangeFromZero, bind_eq_ok, rangeTo_eq_ok, replace_eq_ok, pure_eq_ok]
  constructor
  · rintro ⟨_, ⟨_, s1, ⟨b, upper, hle, hty⟩, _, _, -, rfl, -⟩, -⟩
    exact ⟨0, b, s1, .fromZero upper, hle, hty⟩
  · rintro ⟨a, b, s1, bounds, hle, rfl⟩
    cases bounds with
    | @fromZero r _ _ upper =>
      obtain ⟨m, hm⟩ := exists_after_expr upper.run he
      exact ⟨_, ⟨(r, _), s1, ⟨b, upper, hle, rfl⟩, (), _, ⟨m, hm, rfl⟩, rfl, rfl⟩, _,
        get?_put_self hm⟩

end

/-- What is left of an expression without its exclamation mark, and whether there is one. -/
def unmark (e : ExprId) : Expr → ExprId × Bool
  | .after .bang x => (x, true)
  | _ => (e, false)

/-- What stands before and between the last brackets of an expression. -/
def brackets? : Expr → Option (ExprId × Option ExprId)
  | .binary .index left .none => some (left, none)
  | .binary .index left (.expr length) => some (left, some length)
  | _ => none

theorem takeMark_of_node (hm : s.program.exprs.get? e = some m) :
    takeMark e s = .ok (unmark e m.kind) s := by
  rw [takeMark, bind_ok (node_eq_ok.2 ⟨hm, rfl⟩)]
  cases m.kind with
  | after op => cases op <;> rfl
  | _ => rfl

theorem lastBrackets?_of_node (hm : s.program.exprs.get? e = some m) :
    lastBrackets? e s = .ok (brackets? m.kind) s := by
  rw [lastBrackets?, bind_ok (node_eq_ok.2 ⟨hm, rfl⟩)]
  cases m.kind with
  | binary op _ r => cases op <;> cases r <;> rfl
  | _ => rfl

section

variable {depth : Nat} {mx : ExprNode} (hm : s.program.exprs.get? e = some m)
  (hmark : unmark e m.kind = (x, writable)) (hx : s.program.exprs.get? x = some mx)

include hm hmark hx

theorem takeBrackets_base (hb : brackets? mx.kind = none) :
    takeBrackets calls (depth + 1) e s = .ok ⟨x, writable, [], [e]⟩ s := by
  have hlast := lastBrackets?_of_node hx
  have htake := takeMark_of_node hm
  rw [hb] at hlast
  rw [hmark] at htake
  rw [takeBrackets, bind_ok htake]
  dsimp only
  rw [bind_ok hlast]
  rfl

theorem takeBrackets_suffix {left : ExprId} {length : Option ExprId}
    (hb : brackets? mx.kind = some (left, length)) :
    takeBrackets calls (depth + 1) e s = (do
      let b ← readBrackets calls x writable left length
      let rest ← takeBrackets calls depth left
      return { rest with brackets := b :: rest.brackets, nodes := e :: x :: rest.nodes } :
        Pass Spelling) s := by
  have hlast := lastBrackets?_of_node hx
  have htake := takeMark_of_node hm
  rw [hb] at hlast
  rw [hmark] at htake
  rw [takeBrackets, bind_ok htake]
  dsimp only
  rw [bind_ok hlast]

end

/-- Where there are no brackets and no mark, the whole is read as the part before them. -/
theorem readType_of_plain (hm : s.program.exprs.get? e = some m)
    (hmark : unmark e m.kind = (e, false)) (hb : brackets? m.kind = none) :
    readType calls e s = baseType calls e false s := by
  have htake : takeBrackets calls s.program.exprDepth e s = .ok ⟨e, false, [], [e]⟩ s :=
    takeBrackets_base hm hmark hm hb
  rw [readType, bind_ok (get_eq_ok.2 ⟨rfl, rfl⟩), bind_ok htake]
  simp

theorem tyOfSymbol_eq_ok {name : String} {writable : Bool} {symbol : Option Symbol} :
    tyOfSymbol e name writable symbol s = .ok t s' ↔
      (∃ found, symbol = some found ∧ found.asType writable = some t) ∧ s' = s := by
  unfold tyOfSymbol
  split <;> simp_all [Symbol.asType, eq_comm]

/-- Only a type that takes a mark may have one. -/
theorem baseType_eq_ok_iff (hm : s.program.exprs.get? e = some m) :
    (∃ s', baseType calls e writable s = .ok t s') ↔
      (∃ s', plainType calls e writable m.kind s = .ok t s' ∧
        ∃ m', s'.program.exprs.get? e = some m') ∧ (writable = true → takesMark t = true) := by
  rw [baseType, bind_ok (node_eq_ok.2 ⟨hm, rfl⟩)]
  simp only [bind_eq_ok]
  constructor
  · rintro ⟨s', t', s1, hplain, run⟩
    split at run
    · simp [strayMark] at run
    · rename_i hmark
      simp only [bind_eq_ok, record_eq_ok, pure_eq_ok] at run
      obtain ⟨_, _, ⟨m', hm', rfl⟩, rfl, rfl⟩ := run
      exact ⟨⟨s1, hplain, m', hm'⟩, by simpa using hmark⟩
  · rintro ⟨⟨s1, hplain, m', hm'⟩, hmark⟩
    refine ⟨s1.put e { m' with ty := some t }, t, s1, hplain, ?_⟩
    rw [if_neg (by simpa using hmark)]
    exact bind_ok (a := ()) (record_eq_ok.2 ⟨m', hm', rfl⟩)

end Resolve

namespace RangeForm

variable {lower : Option ExprId} {kind : Expr} (form : RangeForm kind lower included high)

include form

theorem unmark (e : ExprId) : Resolve.unmark e kind = (e, false) := by cases form <;> rfl

theorem brackets? : Resolve.brackets? kind = none := by cases form <;> rfl

/-- A range is read where its bounds are integers and it is not empty. -/
theorem plainType_eq_ok_iff (he : ∃ m, s.program.exprs.get? e = some m) :
    (∃ s', Resolve.plainType (Resolve.callsWithin n) e writable kind s = .ok t s' ∧
        ∃ m, s'.program.exprs.get? e = some m) ↔
      ∃ a b s1, BoundsCount (Resolve.callsWithin n) s high lower a b s1 ∧
        a ≤ Resolve.upperEnd included b ∧ t = .range ⟨a, Resolve.upperEnd included b⟩ := by
  cases form with
  | less => exact Resolve.rangeType_eq_ok_iff he
  | lessOrEqual => exact Resolve.rangeType_eq_ok_iff he
  | fromZero => exact Resolve.rangeFromZero_eq_ok_iff he
  | fromZeroTo => exact Resolve.rangeFromZero_eq_ok_iff he

theorem plainType_eq_error (hb : BoundsCount (Resolve.callsWithin n) s high lower a b s1)
    (hlt : Resolve.upperEnd included b < a) (e : ExprId) (writable : Bool) :
    ∃ d, Resolve.plainType (Resolve.callsWithin n) e writable kind s = .error (.fault d) s1 ∧
      d.fault = .rangeMinGreaterThanMax a (Resolve.upperEnd included b) := by
  have hstop : ∀ {s'} {e'} {α : Type} {f : ExprId × Ty → Pass α},
      (Resolve.callsWithin n).Counts s' high e' b s1 → ∃ d,
        (Resolve.rangeTo (Resolve.callsWithin n) a included high >>= f) s' = .error (.fault d) s1 ∧
          d.fault = .rangeMinGreaterThanMax a (Resolve.upperEnd included b) := by
    intro s' e' α f hupper
    obtain ⟨d, hd, hfault⟩ := Resolve.failAt_eq_error (ExprId × Ty)
      (.rangeMinGreaterThanMax a (Resolve.upperEnd included b))
      (Resolve.exists_after_expr hupper.run (Resolve.exists_of_expr hupper.run))
    refine ⟨d, bind_error ?_, hfault⟩
    rw [Resolve.rangeTo_of_counts hupper, if_pos hlt, hd]
  cases hb with
  | fromZero upper => cases form <;> exact hstop upper
  | both lower upper =>
    cases form <;> rw [Resolve.plainType, Resolve.rangeType_of_counts lower] <;> exact hstop upper

end RangeForm

/-- A range that is written with constant bounds holds the words between them, and one that holds
no word is a fault. The one exception is the range from the least word to itself, which holds
that word although it is left out. -/
theorem range_type_denotes_bounds {lower : Option ExprId} (hm : s.program.exprs.get? e = some m)
    (form : RangeForm m.kind lower included high)
    (bounds : BoundsCount (Resolve.callsWithin n) s high lower a b s₁) :
    (Below included a b → ∃ i s', Resolve.readType (Resolve.callsWithin n) e s = .ok (.range i) s' ∧
      ∀ v, i.Mem v ↔ a ≤ v ∧ Below included v b) ∧
    (¬ Below included a b → ¬ (included = false ∧ a = Int64.minValue ∧ b = Int64.minValue) →
      ∃ d s', Resolve.readType (Resolve.callsWithin n) e s = .error (.fault d) s' ∧
        d.fault = .rangeMinGreaterThanMax a (Resolve.upperEnd included b)) ∧
    (included = false → a = Int64.minValue → b = Int64.minValue →
      ∃ s', Resolve.readType (Resolve.callsWithin n) e s =
        .ok (.range (.point Int64.minValue)) s') := by
  rw [Resolve.readType_of_plain hm (form.unmark e) form.brackets?]
  have haccept (hle : a ≤ Resolve.upperEnd included b) :
      ∃ s', Resolve.baseType (Resolve.callsWithin n) e false s =
        .ok (.range ⟨a, Resolve.upperEnd included b⟩) s' :=
    (Resolve.baseType_eq_ok_iff hm).2
      ⟨(form.plainType_eq_ok_iff ⟨m, hm⟩).2 ⟨a, b, s₁, bounds, hle, rfl⟩, by simp⟩
  refine ⟨fun hbelow => ?_, fun hbelow hleast => ?_, ?_⟩
  · obtain ⟨s', run⟩ := haccept (le_upperEnd_iff.2 (.inl hbelow))
    refine ⟨_, s', run, fun v => and_congr_right fun hav => ?_⟩
    rw [le_upperEnd_iff]
    -- a range that starts at the least word and leaves it out at its end is empty
    refine or_iff_left ?_
    rintro ⟨rfl, rfl, rfl⟩
    simp only [Below, Bool.false_eq_true, if_false, Int64.lt_iff_toInt_lt] at hbelow
    have := toInt_lower a
    omega
  · have hlt : Resolve.upperEnd included b < a :=
      Int64.not_le.1 fun hle => (le_upperEnd_iff.1 hle).elim hbelow hleast
    obtain ⟨d, hd, hfault⟩ := form.plainType_eq_error bounds hlt e false
    refine ⟨d, s₁, ?_, hfault⟩
    rw [Resolve.baseType, bind_ok (node_eq_ok.2 ⟨hm, rfl⟩), bind_error hd]
  · rintro rfl rfl rfl
    exact haccept (by decide)

/-- Two integers, and the range from the first up to the second. -/
def upTo (a b : Int64) : Program :=
  let expr (kind : Expr) : ExprNode := ⟨kind, 1, none⟩
  { Program.empty with
    exprs := .ofList [expr (.literal (.int a)), expr (.literal (.int b)),
      expr (.binary (.order .less) ⟨0⟩ (.expr ⟨1⟩))] }

theorem upTo_counts (a b : Int64) :
    ∃ s, BoundsCount (Resolve.callsWithin 1) (.start (upTo a b)) ⟨1⟩ (some ⟨0⟩) a b s :=
  ⟨_, .both ⟨rfl, rfl⟩ ⟨rfl, rfl⟩⟩

theorem range_from_three_to_seven :
    ∃ i s', Resolve.readType (Resolve.callsWithin 1) ⟨2⟩ (.start (upTo 3 7)) = .ok (.range i) s' ∧
      ∀ v, i.Mem v ↔ 3 ≤ v ∧ v < 7 := by
  obtain ⟨s, hs⟩ := upTo_counts 3 7
  have h := range_type_denotes_bounds (e := ⟨2⟩) rfl (RangeForm.less ⟨0⟩ ⟨1⟩) hs
  exact h.1 (show (3 : Int64) < 7 by decide)

/-- No word lies below the least word, and yet the range up to it is read. -/
theorem range_up_to_least_word :
    (∃ s, BoundsCount (Resolve.callsWithin 1) (.start (upTo Int64.minValue Int64.minValue))
      ⟨1⟩ (some ⟨0⟩) Int64.minValue Int64.minValue s) ∧
    ¬ Int64.minValue < Int64.minValue ∧
    ∃ s', Resolve.readType (Resolve.callsWithin 1) ⟨2⟩
      (.start (upTo Int64.minValue Int64.minValue)) = .ok (.range (.point Int64.minValue)) s' :=
  ⟨upTo_counts _ _, by decide, _, rfl⟩

end Ci
