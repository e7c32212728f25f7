-- Comparisons of ranges. A comparison gives way to a result only if all the words of
-- the two ranges agree on it, and a comparison by order does so whenever they agree.
import Ci.Proofs.Frame.Rules
import Ci.Proofs.Interval.Tightness
import Ci.Proofs.Pass.Endings

namespace Ci

open Pass Resolve Arena

variable {n : Nat} {s s' t : State} {e e' l r : ExprId} {op : BinaryOp} {A B : Interval} {v : Bool}
  {onWords : Int64 → Int64 → Bool}

/-! ## Intervals -/

namespace Relation

variable {rel : Relation}

/-- A comparison that holds between all words holds between the worst ones. -/
theorem always_of_holds (hA : A.Valid) (hB : B.Valid)
    (h : ∀ x y, A.Mem x → B.Mem y → rel.holds x y = true) : rel.always A B = true := by
  cases rel with
  | less => exact h _ _ hA.mem_max hB.mem_min
  | lessOrEqual => exact h _ _ hA.mem_max hB.mem_min
  | greater => exact h _ _ hA.mem_min hB.mem_max
  | greaterOrEqual => exact h _ _ hA.mem_min hB.mem_max

/-- A comparison of intervals that hold words is decided for the result on which their words
agree, and for no other. -/
theorem decide?_eq_some_iff (hA : A.Valid) (hB : B.Valid) :
    rel.decide? A B = some v ↔ ∀ x y, A.Mem x → B.Mem y → rel.holds x y = v := by
  refine ⟨fun h x y hx hy => holds_of_decide? h hx hy, fun h => ?_⟩
  unfold decide?
  cases v with
  | true => rw [if_pos (always_of_holds hA hB h)]
  | false =>
    have hnot : ¬ rel.always A B = true := fun ha => by
      simpa [h _ _ hA.mem_min hB.mem_min] using holds_of_always ha hA.mem_min hB.mem_min
    have hopposite : rel.opposite.always A B = true :=
      always_of_holds hA hB fun x y hx hy => by rw [holds_opposite, h x y hx hy]; rfl
    rw [if_neg hnot, if_pos hopposite]

end Relation

/-- The result of a comparison of two words. -/
def BinaryOp.onWords? : BinaryOp → Option (Int64 → Int64 → Bool)
  | .equal => some fun x y => x == y
  | .notEqual => some fun x y => x != y
  | .order rel => some rel.holds
  | _ => none

/-! ## Operands -/

/-- A comparison has been put back with its operands, which have been resolved. They have ranges
for types and do nothing. -/
structure Compared (n : Nat) (s : State) (e : ExprId) (op : BinaryOp) (l r : ExprId)
    (A B : Interval) (t : State) : Prop where
  operands : ∃ m left right s1 s2 m2, s.program.exprs.get? e = some m ∧
    m.kind = .binary op left (.expr right) ∧ (callsWithin n).expr left s = .ok l s1 ∧
    (callsWithin n).expr right s1 = .ok r s2 ∧ s2.program.exprs.get? e = some m2 ∧
    t = s2.put e { m2 with kind := .binary op l (.expr r) }
  left : t.program.typeOf l = .ok (some (.range A))
  right : t.program.typeOf r = .ok (some (.range B))
  inert : t.program.hasEffects l = .ok false ∧ t.program.hasEffects r = .ok false

/-- A literal that has taken the place of an expression has its own type. -/
theorem Moves.Stands.typeOf {D : Set Node} {p : Program} {w : Literal} (h : Stands D p e)
    (hw : p.literal? e = .ok (some w)) : p.typeOf e = .ok (some w.ty) := by
  simp only [Program.literal?, Query.bind_ok, fetch_ok] at hw
  obtain ⟨m, hm, hw⟩ := hw
  split at hw
  · rename_i v hk
    obtain rfl : v = w := by simpa using hw
    rcases h with ⟨u, line, hu⟩ | ⟨-, _, m', hm', -, hl⟩
    · obtain rfl := hu.some_unique hm
      obtain rfl : u = v := by simpa using hk
      simp [Program.typeOf, fetch_ok.2 hu]
    · obtain rfl := hm.some_unique hm'
      simp [hk] at hl
  · simp at hw

namespace Compared

variable (h : Compared n s e op l r A B t)

include h

/-- An operand that is a literal is the only word of its range. -/
theorem literal {x : ExprId} {w : Literal} {i : Interval} (hx : x = l ∨ x = r)
    (hw : t.program.literal? x = .ok (some w)) (hi : t.program.typeOf x = .ok (some (.range i))) :
    ∃ a, w = .int a ∧ i = .point a := by
  obtain ⟨m, left, right, s1, s2, m2, -, -, hl, hr, hm2, rfl⟩ := h.operands
  obtain ⟨hmoves, hr'⟩ := ((Moves.stay_callsWithin Set.univ n).expr s1 right (.inl trivial)).of_ok
    (.refl .univ) hr
  have hl' := (((Moves.stay_callsWithin Set.univ n).expr s left (.inl trivial)).of_ok
    (.refl .univ) hl).2.step hmoves.program
  have hstands : Moves.Stands Set.univ s2.program x := by
    rcases hx with rfl | rfl
    · exact hl'
    · exact hr'
  -- the comparison itself is no literal
  have hne : e ≠ x := by
    rintro rfl
    simp [Program.literal?, fetch_ok.2 (get?_put_self hm2)] at hw
  have hsame : (s2.put e { m2 with kind := .binary op l (.expr r) }).program.exprs.get? x = _ :=
    get?_put_of_ne hne
  simp only [Program.literal?, Program.typeOf, fetch, hsame] at hw hi
  have hty : w.ty = .range i := by simpa using (hstands.typeOf hw).symm.trans hi
  cases w with
  | int a => exact ⟨a, rfl, by simpa [Literal.ty] using hty.symm⟩
  | _ => cases hty

omit h in
theorem literal?_run {x : ExprId} {i : Interval} (hx : t.program.typeOf x = .ok (some (.range i))) :
    ∃ w, t.program.literal? x = .ok w := by
  simp only [Program.typeOf, Query.bind_ok, fetch_ok] at hx
  obtain ⟨m, hm, -⟩ := hx
  cases hk : m.kind <;> simp [Program.literal?, fetch_ok.2 hm, hk]

/-- What is known in advance of the equality of two values is so for all their words. -/
theorem knownEqual : ∃ known, Resolve.knownEqual l r (.range A) (.range B) t = .ok known t ∧
    ∀ v, known = some v → ∀ x y, A.Mem x → B.Mem y → (x == y) = v := by
  obtain ⟨v, hv⟩ := literal?_run h.left
  obtain ⟨w, hw⟩ := literal?_run h.right
  -- only two literals are compared by their values
  have hranges : ∀ v, (if A.disjoint B then some false else none) = some v →
      ∀ x y, A.Mem x → B.Mem y → (x == y) = v := by
    intro v hv x y hx hy
    split at hv
    · cases hv
      simpa using Interval.ne_of_disjoint ‹_› hx hy
    · cases hv
  rw [Resolve.knownEqual, bind_ok (literal?_eq_ok.2 ⟨hv, rfl⟩),
    bind_ok (literal?_eq_ok.2 ⟨hw, rfl⟩)]
  cases v with
  | none => exact ⟨_, rfl, hranges⟩
  | some v =>
    cases w with
    | none => exact ⟨_, rfl, hranges⟩
    | some =>
      obtain ⟨a, rfl, rfl⟩ := h.literal (.inl rfl) hv h.left
      obtain ⟨b, rfl, rfl⟩ := h.literal (.inr rfl) hw h.right
      refine ⟨_, rfl, fun v hv x y hx hy => ?_⟩
      rw [Int64.le_antisymm hx.2 hx.1, Int64.le_antisymm hy.2 hy.1]
      exact Option.some.inj hv

/-- Whether a comparison gives way depends on a result that is known in advance. All words agree
on it, and a result by order on which they agree is known. -/
theorem known (hop : op.onWords? = some onWords) (hA : A.Valid)
    (hB : B.Valid) : ∃ known, Resolve.operation e op l r t = typedBool e [l, r] known t ∧
      (∀ v, known = some v → ∀ x y, A.Mem x → B.Mem y → onWords x y = v) ∧
      (op.isRelational → ∀ v, (∀ x y, A.Mem x → B.Mem y → onWords x y = v) → known = some v) := by
  have hl : valueTy l t = .ok (.range A) t := by simp [Program.valueTy, h.left]
  have hr : valueTy r t = .ok (.range B) t := by simp [Program.valueTy, h.right]
  obtain ⟨known, hknown, hsound⟩ := h.knownEqual
  have hequality : ∀ wanted, Resolve.equality e wanted l r t =
      typedBool e [l, r] (known.map (· == wanted)) t := by
    intro wanted
    have hcomparable : comparable (.range A) (.range B) t = .ok true t := by
      have : (Ty.unify (.range A) (.range B)).isSome = true := by
        unfold Ty.unify
        split <;> rfl
      simp [comparable, this]
    rw [Resolve.equality, bind_ok hl, bind_ok hr, bind_ok hcomparable, if_pos rfl, bind_ok hknown]
  cases op with
  | equal =>
    cases hop
    refine ⟨_, hequality true, fun v hv x y hx hy => ?_, by simp [BinaryOp.isRelational]⟩
    obtain ⟨w, hw, rfl⟩ := Option.map_eq_some_iff.1 hv
    simpa using hsound w hw x y hx hy
  | notEqual =>
    cases hop
    refine ⟨_, hequality false, fun v hv x y hx hy => ?_, by simp [BinaryOp.isRelational]⟩
    obtain ⟨w, hw, rfl⟩ := Option.map_eq_some_iff.1 hv
    simp [bne, hsound w hw x y hx hy]
  | order rel =>
    cases hop
    refine ⟨rel.decide? A B, ?_, fun v => (rel.decide?_eq_some_iff hA hB).1,
      fun _ v => (rel.decide?_eq_some_iff hA hB).2⟩
    have hnumeric : ∀ {x i}, requireNumeric x (.range i) t = .ok () t := fun {_ _} => rfl
    rw [Resolve.operation, ordering, bind_ok hl, bind_ok hr, bind_ok hnumeric, bind_ok hnumeric]
    rfl
  | _ => cases hop

/-- The rule for the comparison has come to its operation. -/
theorem run_eq (hop : op.onWords? = some onWords) :
    (callsWithin (n + 1)).expr e s = Resolve.operation e op l r t := by
  obtain ⟨m, left, right, s1, s2, m2, hm, hk, hl, hr, hm2, rfl⟩ := h.operands
  have hbinary : (callsWithin (n + 1)).expr e s =
      binary (callsWithin n) e op left (.expr right) s := by
    refine (bind_ok (node_eq_ok.2 ⟨hm, rfl⟩)).trans ?_
    rw [hk]
    cases op <;> first | rfl | cases hop
  rw [hbinary, binary, bind_ok hl, bind_ok hr, bind_ok (a := ()) (replace_eq_ok.2 ⟨m2, hm2, rfl⟩)]

end Compared

/-! ## Results -/

/-- A truth value that has its type. -/
def Pass.State.Truth (s : State) (e : ExprId) (v : Bool) : Prop :=
  ∃ line, s.program.exprs.get? e = some ⟨.literal (.bool v), line, some .bool⟩

/-- A result that is known takes the place of an operator whose operands do nothing. Without one
the operator stays, as a truth value. -/
theorem typedBool_run {m : ExprNode} (known : Option Bool) (hm : t.program.exprs.get? e = some m)
    (hk : m.kind.isLiteral = false) (hl : t.program.hasEffects l = .ok false)
    (hr : t.program.hasEffects r = .ok false) (room : t.program.exprs.size < UInt32.size) :
    ∃ e' s', typedBool e [l, r] known t = .ok e' s' ∧
      (∀ v, s'.Truth e' v ↔ known = some v) ∧
      (known = none → e' = e ∧ s'.program.exprs.get? e = some { m with ty := some .bool }) := by
  cases known with
  | none =>
    have hself := get?_put_self (m := { m with ty := some .bool }) hm
    refine ⟨e, _, typed_eq_ok.2 ⟨rfl, m, hm, rfl⟩, fun v => ⟨?_, by simp⟩, fun _ => ⟨rfl, hself⟩⟩
    rintro ⟨line, hv⟩
    have hkind := congrArg ExprNode.kind (hself.some_unique hv)
    dsimp only at hkind
    simp [hkind] at hk
  | some b =>
    have hinert : areInert [l, r] t = .ok true t := by
      have hany : [l, r].anyM t.program.hasEffects = .ok false := by
        simp only [List.anyM, hl, hr]
        rfl
      rw [areInert, bind_ok (ask_eq_ok.2 ⟨hany, rfl⟩)]
      rfl
    have hnew : (t.grow m.line (.bool b)).program.exprs.get? t.program.exprs.next =
        some ⟨.literal (.bool b), m.line, some .bool⟩ := Arena.get?_next_push room
    refine ⟨t.program.exprs.next, t.grow m.line (.bool b), ?_, fun v => ⟨?_, ?_⟩, by simp⟩
    · rw [typedBool, foldUnless, bind_ok hinert, if_pos rfl]
      exact fold_eq_ok.2 ⟨room, rfl, m, hm, rfl⟩
    · rintro ⟨line, hv⟩
      cases hnew.symm.trans hv
      rfl
    · rintro ⟨⟩
      exact ⟨_, hnew⟩

/-- A comparison of ranges that do nothing is resolved. A truth value takes its place only if it is
the result for all words of the two ranges. A comparison by order gives way to every such result.
Where no truth value takes its place, the comparison stays and is boolean. -/
theorem comparison_decided_by_ranges {onWords : Int64 → Int64 → Bool}
    (h : Compared n s e op l r A B t) (hop : op.onWords? = some onWords) (hA : A.Valid)
    (hB : B.Valid) (room : t.program.exprs.size < UInt32.size) :
    ∃ e' s', (Resolve.callsWithin (n + 1)).expr e s = .ok e' s' ∧
      (∀ v, s'.Truth e' v → ∀ x y, A.Mem x → B.Mem y → onWords x y = v) ∧
      (op.isRelational → ∀ v, (∀ x y, A.Mem x → B.Mem y → onWords x y = v) → s'.Truth e' v) ∧
      ((∀ v, ¬ s'.Truth e' v) →
        e' = e ∧ ∃ line,
        s'.program.exprs.get? e = some ⟨.binary op l (.expr r), line, some .bool⟩) := by
  obtain ⟨known, hrun, hsound, hcomplete⟩ := h.known hop hA hB
  obtain ⟨m, hm, hk⟩ : ∃ m, t.program.exprs.get? e = some m ∧ m.kind = .binary op l (.expr r) := by
    obtain ⟨_, _, _, _, s2, m2, -, -, -, -, hm2, rfl⟩ := h.operands
    exact ⟨_, get?_put_self hm2, rfl⟩
  obtain ⟨e', s', hend, htruth, hstays⟩ :=
    typedBool_run known hm (by simp [hk]) h.inert.1 h.inert.2 room
  refine ⟨e', s', (h.run_eq hop).trans (hrun.trans hend), fun v hv => hsound v ((htruth v).1 hv),
    fun hrel v hv => (htruth v).2 (hcomplete hrel v hv), fun hno => ?_⟩
  have hnone : known = none := by
    cases known with
    | none => rfl
    | some v => exact absurd ((htruth v).2 rfl) (hno v)
  obtain ⟨rfl, hself⟩ := hstays hnone
  exact ⟨rfl, m.line, by rw [hself, ← hk]⟩

/-- Two integers, and a comparison of the first with the second. -/
def versus (op : BinaryOp) (a b : Int64) : Program :=
  let expr (kind : Expr) : ExprNode := ⟨kind, 1, none⟩
  { Program.empty with
    exprs := .ofList [expr (.literal (.int a)), expr (.literal (.int b)),
      expr (.binary op ⟨0⟩ (.expr ⟨1⟩))] }

/-- Of touching ranges, the one that is not greater is found out. -/
theorem comparison_of_equal_words :
    ∃ e' s', (Resolve.callsWithin 2).expr ⟨2⟩ (.start (versus (.order .lessOrEqual) 7 7)) =
    .ok e' s' ∧
      s'.Truth e' true := by
  have h : ∃ t, Compared 1 (.start (versus (.order .lessOrEqual) 7 7)) ⟨2⟩ (.order .lessOrEqual)
      ⟨0⟩ ⟨1⟩ (.point 7) (.point 7) t ∧ t.program.exprs.size < UInt32.size :=
    ⟨_, ⟨⟨_, _, _, _, _, _, rfl, rfl, rfl, rfl, rfl, rfl⟩, rfl, rfl, rfl, rfl⟩, by decide⟩
  obtain ⟨t, h, room⟩ := h
  obtain ⟨e', s', hrun, -, hfolds, -⟩ :=
    comparison_decided_by_ranges h rfl (by decide) (by decide) room
  refine ⟨e', s', hrun, hfolds rfl true fun x y hx hy => ?_⟩
  rw [Int64.le_antisymm hx.2 hx.1, Int64.le_antisymm hy.2 hy.1]
  rfl

end Ci
