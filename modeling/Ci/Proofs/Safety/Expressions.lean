-- Names, operators and all other expressions keep to handles that lead somewhere, if
-- what they call does. What they call stands lower, so the depth is enough.
import Ci.Proofs.Safety.Safe

namespace Ci

open Pass Resolve Program Arena

variable {value : Literal} {name : String} {op : IntOp} {operands items : List ExprId} {p : Program}
  {look : Resolve.Look} {scope : ScopeId} {a b member onTrue onFalse inner callee : ExprId}
  {right : Operand}

/-- The rank of an expression. -/
abbrev Ranking.depth (ρ : Ranking) (e : ExprId) : Nat := ρ.rank (.expr e)

/-- An expression is there and stands lower than a bound. -/
def Low (ρ : Ranking) (r : Nat) (e : ExprId) (s : State) : Prop :=
  ρ.Sees s.program (.expr e) ∧ ρ.depth e < r

/-- A depth is enough for what stands lower than a bound, with all the constants that may have to
be visited on the way. -/
def Room (ρ : Ranking) (n r : Nat) (s : State) : Prop :=
  s.program.pending * (ρ.exprs + 3) + r + 1 ≤ n

/-- The rules that are called are safe where the depth is enough. -/
structure Pass.Calls.Safe (ρ : Ranking) (n : Nat) (calls : Calls) : Prop where
  expr : ∀ s r e, Low ρ r e s → Room ρ n r s → Ci.Safe ρ (calls.expr e) s (Low ρ r)
  type : ∀ s r e, Low ρ r e s → Room ρ n r s →
    Ci.Safe ρ (calls.type e) s fun t s' => ρ.SeesAll s'.program t.refs
  const : ∀ s k, ρ.Sees s.program (.const k) → Room ρ n 0 s →
    Ci.Safe ρ (calls.const k) s fun _ _ => True

variable {ρ : Ranking} {n r : Nat} {s s' : State} {e l : ExprId} {t t' u : Ty} {calls : Calls}

theorem Low.wider (h : Low ρ r e s) (hw : Wider s s') : Low ρ r e s' :=
  ⟨hw.program.sees h.1, h.2⟩

theorem Low.mono {r' : Nat} (h : Low ρ r e s) (hr : r ≤ r') : Low ρ r' e s :=
  ⟨h.1, h.2.trans_le hr⟩

theorem Room.wider (h : Room ρ n r s) (hw : Wider s s') : Room ρ n r s' := by
  have := Nat.mul_le_mul_right (ρ.exprs + 3) hw.pending
  unfold Room at h ⊢
  omega

theorem Room.mono {r' : Nat} (h : Room ρ n r s) (hr : r' ≤ r) : Room ρ n r' s := by
  unfold Room at h ⊢
  omega

/-- What an expression is made of stands lower. -/
theorem Sound.child {m : ExprNode} {i : ExprId} (h : Sound ρ s)
    (hm : s.program.exprs.get? e = some m) (hi : i ∈ m.kind.children) : Low ρ (ρ.depth e) i s :=
  ⟨h.handles.child hm hi, (h.ranks.expr e m hm).1 i hi⟩

namespace Safe

/-! ## Steps -/

theorem typed_low (he : Low ρ r e s) (ht : ρ.SeesAll s.program t.refs) :
    Safe ρ (Pass.typed e t) s (Low ρ r) := by
  refine (typed he.1 ht).mono ?_
  rintro e' s' - hw rfl
  exact he.wider hw

theorem fold_low (he : Low ρ r e s) : Safe ρ (Pass.fold e value) s (Low ρ r) := by
  refine (fold he.1).mono ?_
  rintro e' s' - - ⟨hhas, hzero⟩
  exact ⟨hhas, by have := he.2; unfold Ranking.depth; omega⟩

/-- An expression is put together again from parts that stand lower. -/
theorem rebuild {kind : Expr} (he : Low ρ r e s) (hv : ∀ v, kind ≠ .var v)
    (hname : ∀ name symbol, kind ≠ .name name symbol)
    (hc : ∀ c ∈ kind.children, Low ρ (ρ.depth e) c s) :
    Safe ρ (Pass.replace e kind) s fun _ _ => True := by
  refine replace he.1 (fun w hw => ?_) (fun c hm => (hc c hm).2) hv
  have hw : w ∈ kind.children.map Node.expr := by
    cases kind with
    | name name symbol => exact absurd rfl (hname name symbol)
    | var v => exact absurd rfl (hv v)
    | _ => exact hw
  obtain ⟨c, hm, rfl⟩ := List.mem_map.1 hw
  exact (hc c hm).1

section

variable (he : ρ.Sees s.program (.expr e))

include he

theorem remember {symbol : Option Symbol} (hs : ∀ x, symbol = some x → ρ.SeesAll s.program x.refs) :
    Safe ρ (Pass.replace e (.name name symbol)) s fun _ _ => True := by
  refine replace he (fun w hw => ?_) (by simp) (by simp)
  cases symbol with
  | none => simp [Expr.refs] at hw
  | some x => exact hs x rfl w hw

theorem requireNumeric (ht : ρ.SeesAll s.program t.refs) :
    Safe ρ (Resolve.requireNumeric e t) s fun _ _ => True := by
  unfold Resolve.requireNumeric
  split
  · exact pure fun _ => trivial
  · exact mismatchAt he ht

theorem requireInteger (ht : ρ.SeesAll s.program t.refs) :
    Safe ρ (Resolve.requireInteger e t) s fun _ _ => True := by
  unfold Resolve.requireInteger
  split
  · exact pure fun _ => trivial
  · exact mismatchAt he ht

theorem requireOperand (ht : ρ.SeesAll s.program t.refs) :
    Safe ρ (Resolve.requireOperand op e t) s fun _ _ => True := by
  unfold Resolve.requireOperand
  split
  · exact requireInteger he ht
  · exact requireNumeric he ht

theorem requirePlace : Safe ρ (Resolve.requirePlace e) s fun _ _ => True := by
  refine ask_bind (fun hs => answers_isPlace hs.handles hs.ranks hs.exprs he) fun b _ => ?_
  split
  · exact pure fun _ => trivial
  · exact failAt he

theorem boolLiteral : Safe ρ (boolLiteral? e) s fun _ _ => True := by
  refine literal_bind he fun v => ?_
  split <;> exact pure fun _ => trivial

theorem bounds {i j : Interval} : Safe ρ (Resolve.bounds e op i j) s fun _ _ => True := by
  unfold Resolve.bounds
  split
  · exact pure fun _ => trivial
  · exact failAt he

end

theorem foldUnless (he : Low ρ r e s)
    (ho : ∀ o ∈ operands, ρ.Sees s.program (.expr o)) (ht : ρ.SeesAll s.program t.refs) :
    Safe ρ (Resolve.foldUnless e operands value t) s (Low ρ r) := by
  refine silent_bind (P := fun _ _ => True) .areInert (ask_bind (A := fun _ => True) (fun hs => ?_)
    fun _ _ => pure fun _ => trivial) fun b _ => ?_
  · exact .anyM fun o hm => answers_hasEffects hs.handles hs.ranks hs.exprs (ho o hm)
  · split
    · exact fold_low he
    · exact typed_low he ht

theorem seesAll_nil : ρ.SeesAll p [] := fun _ hw => (nomatch hw)

theorem typedRange {i : Interval} (he : Low ρ r e s) (ho : ∀ o ∈ operands,
    ρ.Sees s.program (.expr o)) :
    Safe ρ (Resolve.typedRange e operands i) s (Low ρ r) := by
  unfold Resolve.typedRange
  split
  · exact foldUnless he ho seesAll_nil
  · exact typed_low he seesAll_nil

theorem typedBool {known : Option Bool} (he : Low ρ r e s)
    (ho : ∀ o ∈ operands, ρ.Sees s.program (.expr o)) :
    Safe ρ (Resolve.typedBool e operands known) s (Low ρ r) := by
  unfold Resolve.typedBool
  split
  · exact foldUnless he ho seesAll_nil
  · exact typed_low he seesAll_nil

/-! ## Names -/

/-- A way to look a name up that finds what is there. -/
def Reads (look : Resolve.Look) : Prop :=
  ∀ ρ s i name, Sound ρ s → i.slot < s.table.scopes.size →
    ∃ found, look s.table i name = .ok found ∧ ∀ x, found = some x → ρ.SeesAll s.program x.refs

theorem reads_lookup : Reads ScopeTable.lookup := fun _ _ _ _ hs hi => hs.search hi

theorem reads_lookupMember : Reads ScopeTable.lookupMember := fun _ _ _ _ hs hi => hs.search hi

theorem lookup : Safe ρ (Pass.lookup name) s fun found s' =>
    ∀ x, found = some x → ρ.SeesAll s'.program x.refs := by
  refine (askTable fun hs => hs.search hs.current).mono ?_
  rintro found _ - - ⟨rfl, hfound⟩
  exact hfound

theorem lookupGlobal_bind {α : Type} {f : Option Symbol → Pass α} {Q : α → State → Prop}
    (hf : ∀ found, (∀ x, found = some x → ρ.SeesAll s.program x.refs) → Safe ρ (f found) s Q) :
    Safe ρ (Pass.lookupGlobal name >>= f) s Q :=
  askTable_bind (fun hs => hs.search (Nat.zero_lt_of_lt hs.current)) hf

theorem declared {ty : Option Ty} (he : Low ρ r e s)
    (ht : ρ.SeesAll s.program (Ty.recordedRefs ty)) :
    Safe ρ (Resolve.declared e ty) s (Low ρ r) := by
  unfold Resolve.declared
  split
  · exact typed_low he ht
  · exact failAt he.1

theorem bindName (hlook : Reads look)
    (hi : scope.slot < s.table.scopes.size) (he : ρ.Sees s.program (.expr e)) :
    Safe ρ (Resolve.bindName look scope e) s fun b s' => ρ.SeesAll s'.program b.2.refs := by
  refine node_bind he fun m hm => ?_
  split
  · rename_i name symbol hk
    refine pure fun hs w hw => hs.handles.kind hm ?_
    simpa [hk, Expr.refs] using hw
  · refine askTable_bind (fun hs => hlook ρ s scope _ hs hi) fun found hfound => ?_
    split
    · rename_i symbol
      refine (remember he ?_).bind fun _ s' hw _ => pure fun _ => ?_
      · rintro x hx
        cases hx
        exact hfound symbol rfl
      · exact hw.program.seesAll (hfound symbol rfl)
    · exact failAt he
  · exact failAt he

theorem resolveName (hlook : Reads look)
    (hc : calls.Safe ρ n) (hi : scope.slot < s.table.scopes.size) (he : Low ρ r e s)
    (hn : Room ρ n 0 s) : Safe ρ (Resolve.resolveName calls look scope e) s (Low ρ r) := by
  refine (bindName hlook hi he.1).bind ?_
  rintro ⟨name, symbol⟩ s1 hw1 hsym
  replace he := he.wider hw1
  dsimp only at hsym ⊢
  split
  · rename_i k
    have hk := hsym (.const k) (by simp [Symbol.refs])
    refine (hc.const s1 k hk (hn.wider hw1)).bind fun _ s2 hw2 _ => ?_
    replace he := he.wider hw2
    refine ask_bind (fun _ => .fetch (hw2.program.sees hk)) fun d hd => of_sound fun hs => ?_
    have hd' : ∀ w ∈ d.refs, ρ.Sees s2.program w := hs.handles.consts d (mem_toList_of_get? hd)
    refine silent_bind (P := fun _ _ => True) .inlined? ?_ fun v _ => ?_
    · refine askTable_bind (A := fun _ => True) (fun _ => ?_) fun c _ => ?_
      · have := Nat.lt_of_lt_of_le hi (hw1.trans hw2).scopes
        exact ⟨_, ScopeTable.fetch_ok.2 (Array.getElem?_eq_getElem this), trivial⟩
      · split
        · exact pure fun _ => trivial
        · split
          · rename_i value hvalue
            have hhas := hd' (.expr value) (by simp [Const.refs, Const.parts, hvalue])
            exact (ask fun _ => answers_literal? hhas).mono fun _ _ _ _ _ => trivial
          · exact pure fun _ => trivial
    · split
      · exact fold_low he
      · exact declared he fun w hw => hd' w (List.mem_append_right _ hw)
  · rename_i f
    refine ask_bind (fun _ => .fetch (hsym (.field f) (by simp [Symbol.refs]))) fun d hd =>
      of_sound fun hs => declared he fun w hw => ?_
    exact hs.handles.fields d (mem_toList_of_get? hd) w (List.mem_append_right _ hw)
  · rename_i m
    refine ask_bind (fun _ => .fetch (hsym (.method m) (by simp [Symbol.refs]))) fun d hd =>
      of_sound fun hs => declared he fun w hw => ?_
    exact hs.handles.methods d (mem_toList_of_get? hd) w (List.mem_append_right _ hw)
  · rename_i v
    refine ask_bind (fun _ => .fetch (hsym (.var v) (by simp [Symbol.refs]))) fun d hd =>
      of_sound fun hs => declared he fun w hw => ?_
    exact hs.handles.vars d (mem_toList_of_get? hd) w (List.mem_append_right _ hw)
  · exact declared he seesAll_nil
  · exact failAt he.1
  · exact failAt he.1
  · exact failAt he.1

theorem localName (hc : calls.Safe ρ n) (he : Low ρ r e s) (hn : Room ρ n 0 s) :
    Safe ρ (Resolve.localName calls e) s (Low ρ r) :=
  get_bind (of_sound fun hs => resolveName reads_lookup hc hs.current he hn)

theorem bindOwner {symbol : Symbol} (he : ρ.Sees s.program (.expr e))
    (hs : ρ.SeesAll s.program symbol.refs) (ht : ρ.SeesAll s.program t.refs) :
    Safe ρ (Resolve.bindOwner e name symbol t) s fun _ _ => True := by
  refine (remember he ?_).bind fun _ s' hw _ => record (hw.program.sees he) (hw.program.seesAll ht)
  rintro x hx
  cases hx
  exact hs

theorem ownerScope (he : ρ.Sees s.program (.expr e)) :
    Safe ρ (Resolve.ownerScope e) s fun found s' =>
      ∀ i, found = some i → i.slot < s'.table.scopes.size := by
  refine node_bind he fun m hm => ?_
  split
  · rename_i name known hk
    refine silent_bind (P := fun found s => ∀ x, found = some x → ρ.SeesAll s.program x.refs)
      .standsFor ?_ fun found hfound => ?_
    · cases known with
      | some =>
        refine pure fun hs x hx w hw => hs.handles.kind hm ?_
        cases hx
        simpa [hk, Expr.refs] using hw
      | none => exact lookup
    · split
      · rename_i c
        have hc := hfound _ rfl (.classDecl c) (by simp [Symbol.refs])
        refine classScope_bind hc fun i _ hi => ?_
        refine (bindOwner he (hfound _ rfl) (by simpa [Ty.refs, Ranking.SeesAll] using hc)).bind
          fun _ s' hw _ => pure fun _ j hj => ?_
        cases hj
        exact Nat.lt_of_lt_of_le hi hw.scopes
      · rename_i d
        have hd := hfound _ rfl (.enumDecl d) (by simp [Symbol.refs])
        refine enumScope_bind hd fun i hi => ?_
        refine (bindOwner he (hfound _ rfl) (by simpa [Ty.refs, Ranking.SeesAll] using hd)).bind
          fun _ s' hw _ => pure fun _ j hj => ?_
        cases hj
        exact Nat.lt_of_lt_of_le hi hw.scopes
      · refine pure fun _ _ h => ?_
        cases h
  · refine pure fun _ _ h => ?_
    cases h

/-! ## Operators -/

section

variable (he : Low ρ r e s) (hl : ρ.Sees s.program (.expr l))

include he hl

theorem steppedBefore {delta : Int64} : Safe ρ (Resolve.steppedBefore e l delta) s (Low ρ r) := by
  refine valueTy_bind hl fun ty hty => silent_bind .requireNumeric (requireNumeric hl hty)
    fun _ _ =>
    silent_bind .requirePlace (requirePlace hl) fun _ _ => ?_
  split
  · exact typed_low he seesAll_nil
  · exact typed_low he hty

theorem negation : Safe ρ (Resolve.negation e l) s (Low ρ r) := by
  refine valueTy_bind hl fun ty hty => silent_bind .requireNumeric (requireNumeric hl hty)
    fun _ _ =>
    literal_bind hl fun v => ?_
  split
  · exact fold_low he
  · split
    · exact typedRange he (by simpa using hl)
    · exact typed_low he hty

theorem bitComplement : Safe ρ (Resolve.bitComplement e l) s (Low ρ r) := by
  refine valueTy_bind hl fun ty hty => silent_bind .requireInteger (requireInteger hl hty)
    fun _ _ => ?_
  split
  · exact typedRange he (by simpa using hl)
  · exact typed_low he hty

theorem logicalNot : Safe ρ (Resolve.logicalNot e l) s (Low ρ r) := by
  refine silent_bind .coerce (coerce hl seesAll_nil) fun _ _ =>
    silent_bind .boolLiteral? (boolLiteral hl) fun v _ => ?_
  split
  · exact fold_low he
  · exact typed_low he seesAll_nil

end

theorem resultTy_refs : ρ.SeesAll p (resultTy op t u).refs := by
  have hint : ∀ t u : Ty, (Ty.integerResult t u).refs = [] := by
    intro t u
    unfold Ty.integerResult
    split <;> rfl
  unfold resultTy Ty.numericResult
  split
  · exact hint t u ▸ seesAll_nil
  · split
    · exact seesAll_nil
    · exact hint t u ▸ seesAll_nil

theorem unify_refs (h : Ty.unify t u = some t') (ht : ρ.SeesAll p t.refs)
    (hu : ρ.SeesAll p u.refs) : ρ.SeesAll p t'.refs := by
  unfold Ty.unify at h
  split at h
  · cases h
    exact ht
  · split at h
    · cases h
      exact seesAll_nil
    · split at h
      · cases h
        split <;> exact seesAll_nil
      · split at h
        · cases h
          exact hu
        · split at h
          · cases h
            exact ht
          · cases h

theorem element_refs (h : t.element = some u) (ht : ρ.SeesAll p t.refs) : ρ.SeesAll p u.refs := by
  cases t <;> simp only [Ty.element, Option.some.injEq, reduceCtorEq] at h <;> subst h <;> exact ht

theorem memberClass_refs {c : ClassId} (h : t.memberClass = some c)
    (ht : ρ.SeesAll p t.refs) : ρ.Sees p (.classDecl c) := by
  cases t <;> simp only [Ty.memberClass, Option.some.injEq, reduceCtorEq] at h <;> subst h <;>
    exact ht _ (by simp [Ty.refs])

theorem has_pair (ha : ρ.Sees s.program (.expr a)) (hb : ρ.Sees s.program (.expr b)) :
    ∀ o ∈ [a, b], ρ.Sees s.program (.expr o) := by
  simp only [List.mem_cons, List.not_mem_nil, or_false]
  rintro o (rfl | rfl)
  · exact ha
  · exact hb

section Operands

variable {a b : ExprId} (he : Low ρ r e s) (ha : ρ.Sees s.program (.expr a))
  (hb : ρ.Sees s.program (.expr b))
include he ha hb

theorem arithmetic : Safe ρ (Resolve.arithmetic e op a b) s (Low ρ r) := by
  refine valueTy_bind ha fun t ht => valueTy_bind hb fun u hu => ?_
  split
  · refine literal_bind ha fun v => literal_bind hb fun w => ?_
    split
    · exact fold_low he
    · exact typed_low he seesAll_nil
  · split
    · exact silent_bind .bounds (bounds he.1) fun i _ => typedRange he (has_pair ha hb)
    · exact silent_bind .requireOperand (requireOperand ha ht) fun _ _ =>
        silent_bind .requireOperand (requireOperand hb hu) fun _ _ => typed_low he resultTy_refs

theorem equality {wanted : Bool} : Safe ρ (Resolve.equality e wanted a b) s (Low ρ r) := by
  refine valueTy_bind ha fun t ht => valueTy_bind hb fun u hu => ?_
  refine silent_bind (P := fun _ _ => True) .comparable ?_ fun fits _ => ?_
  · unfold comparable
    split
    · exact pure fun _ => trivial
    · refine ask_bind (fun hs => answers_assignable hs.handles ht hu) fun c _ => ?_
      split
      · exact pure fun _ => trivial
      · exact (ask fun hs => answers_assignable hs.handles hu ht).mono fun _ _ _ _ _ => trivial
  · split
    · refine silent_bind (P := fun _ _ => True) .knownEqual ?_ fun known _ =>
        typedBool he (has_pair ha hb)
      refine literal_bind ha fun v => literal_bind hb fun w => ?_
      split
      · exact pure fun _ => trivial
      · split <;> exact pure fun _ => trivial
    · exact mismatchTy hb ht hu

theorem ordering {rel : Relation} : Safe ρ (Resolve.ordering e rel a b) s (Low ρ r) := by
  refine valueTy_bind ha fun t ht => valueTy_bind hb fun u hu =>
    silent_bind .requireNumeric (requireNumeric ha ht) fun _ _ =>
      silent_bind .requireNumeric (requireNumeric hb hu) fun _ _ =>
        silent_bind (P := fun _ _ => True) .knownOrder ?_ fun _ _ => typedBool he (has_pair ha hb)
  unfold knownOrder
  split
  · exact pure fun _ => trivial
  · refine literal_bind ha fun v => literal_bind hb fun w => ?_
    split <;> exact pure fun _ => trivial

theorem assignment : Safe ρ (Resolve.assignment e a b) s (Low ρ r) :=
  silent_bind .requirePlace (requirePlace ha) fun _ _ => valueTy_bind ha fun _ ht =>
    silent_bind .coerce (coerce hb ht) fun _ _ => typed_low he ht

theorem update : Safe ρ (Resolve.update e op a b) s (Low ρ r) := by
  refine silent_bind .requirePlace (requirePlace ha) fun _ _ => valueTy_bind ha fun t ht =>
    valueTy_bind hb fun u hu => ?_
  split
  · exact typed_low he ht
  · refine silent_bind .requireOperand (requireOperand ha ht) fun _ _ =>
      silent_bind .requireOperand (requireOperand hb hu) fun _ _ =>
        silent_bind (P := fun _ _ => True) .checkBounds ?_ fun _ _ => typed_low he ht
    unfold checkBounds
    split
    · exact (bounds he.1).bind fun _ _ _ _ => pure fun _ => trivial
    · exact pure fun _ => trivial

theorem charOf : Safe ρ (Resolve.charOf e a b) s (Low ρ r) := by
  refine literal_bind ha fun v => literal_bind hb fun w => ?_
  split
  · split
    · exact fold_low he
    · exact typed_low he seesAll_nil
  · exact typed_low he seesAll_nil

theorem indexing : Safe ρ (Resolve.indexing e a b) s (Low ρ r) := by
  refine valueTy_bind hb fun i _ => ?_
  split
  · refine valueTy_bind ha fun t ht => ?_
    split
    · rename_i u hu
      exact typed_low he (element_refs hu ht)
    · split
      · exact charOf he ha hb
      · exact mismatchAt ha ht
  · exact failAt hb

end Operands

theorem logical {decisive : Bool} (he : Low ρ r e s) (ha : ρ.Sees s.program (.expr a))
    (hb : Low ρ r b s) : Safe ρ (Resolve.logical e decisive a b) s (Low ρ r) := by
  refine silent_bind .coerce (coerce ha seesAll_nil) fun _ _ =>
    silent_bind .coerce (coerce hb.1 seesAll_nil) fun _ _ =>
      silent_bind .boolLiteral? (boolLiteral ha) fun v _ => ?_
  split
  · split
    · exact fold_low he
    · exact pure fun _ => hb
  · exact typed_low he seesAll_nil

theorem operation {op : BinaryOp} (he : Low ρ r e s)
    (ha : ρ.Sees s.program (.expr a)) (hb : Low ρ r b s) :
    Safe ρ (Resolve.operation e op a b) s (Low ρ r) := by
  unfold Resolve.operation
  split
  · exact indexing he ha hb.1
  · exact equality he ha hb.1
  · exact equality he ha hb.1
  · exact ordering he ha hb.1
  · exact logical he ha hb
  · exact logical he ha hb
  · exact assignment he ha hb.1
  · exact update he ha hb.1
  · exact arithmetic he ha hb.1
  · exact failAt he.1
  · exact failAt he.1

theorem stringLength (he : Low ρ r e s)
    (hl : ρ.Sees s.program (.expr l)) (hm : ρ.Sees s.program (.expr member)) :
    Safe ρ (Resolve.stringLength e l member name) s (Low ρ r) := by
  refine literal_bind hl fun v => ?_
  split
  · exact fold_low he
  · refine (remember hm ?_).bind fun _ s1 hw1 _ => ?_
    · rintro x hx
      cases hx
      exact seesAll_nil
    · exact (record (hw1.program.sees hm) seesAll_nil).bind fun _ s2 hw2 _ =>
        typed_low (he.wider (hw1.trans hw2)) seesAll_nil

theorem argument {arg : ExprId} {param : VarId} (hc : calls.Safe ρ n) (ha : Low ρ r arg s)
    (hp : ρ.Sees s.program (.var param)) (hn : Room ρ n r s) :
    Safe ρ (Resolve.argument calls arg param) s (Low ρ r) := by
  refine (hc.expr s _ arg ha hn).bind fun arg' s1 hw ha' => ?_
  refine ask_bind (fun _ => .fetch (hw.program.sees hp)) fun d hd => of_sound fun hs => ?_
  split
  · rename_i t ht
    refine silent_bind .coerce (coerce ha'.1 fun w hw => ?_) fun _ _ => pure fun _ => ha'
    refine hs.handles.vars d (mem_toList_of_get? hd) w (List.mem_append_right _ ?_)
    simpa [Ty.recordedRefs, ht] using hw
  · exact failAt ha'.1

theorem methodTy_refs {d : Method} {m : MethodId} (hs : Sound ρ s)
    (hd : s.program.methods.get? m = some d) : ρ.SeesAll s.program (d.ty.getD .void).refs := by
  intro w hw
  refine hs.handles.methods d (mem_toList_of_get? hd) w (List.mem_append_right _ ?_)
  cases ht : d.ty with
  | none => simp [ht, Ty.refs] at hw
  | some => simpa [ht, Ty.recordedRefs] using hw

theorem condition {resolve : ExprId → Pass ExprId} (h : Safe ρ (resolve e) s (Low ρ r)) :
    Safe ρ (Resolve.condition resolve e) s (Low ρ r) :=
  h.bind fun _ _ _ he => silent_bind .coerce (coerce he.1 seesAll_nil) fun _ _ => pure fun _ => he

theorem choice {cond : ExprId} (he : Low ρ r e s) (hcond : ρ.Sees s.program (.expr cond))
    (ht : Low ρ r onTrue s) (hf : Low ρ r onFalse s) :
    Safe ρ (Resolve.choice e cond onTrue onFalse) s (Low ρ r) := by
  refine valueTy_bind ht.1 fun t htr => valueTy_bind hf.1 fun u hu => ?_
  split
  · exact mismatchTy hf.1 htr hu
  · rename_i v hv
    refine silent_bind .boolLiteral? (boolLiteral hcond) fun known _ => ?_
    split
    · exact pure fun _ => ht
    · exact pure fun _ => hf
    · exact typed_low he (unify_refs hv htr hu)

theorem commonTy (ht : ρ.SeesAll s.program t.refs) (hitems : ∀ i ∈ items,
    ρ.Sees s.program (.expr i)) :
    Safe ρ (Resolve.commonTy t items) s fun u s' => ρ.SeesAll s'.program u.refs := by
  induction items generalizing t with
  | nil => exact pure fun _ => ht
  | cons i items ih =>
    have hi := hitems i List.mem_cons_self
    refine valueTy_bind hi fun u hu => ?_
    split
    · rename_i v hv
      exact ih (unify_refs hv ht hu) fun j hj => hitems j (List.mem_cons_of_mem i hj)
    · exact mismatchTy hi ht hu

theorem startValue {v : VarId} {value : Option ExprId} (hc : calls.Safe ρ n)
    (hv : ρ.Sees s.program (.var v)) (ht : ρ.SeesAll s.program t.refs)
    (hvalue : ∀ i, value = some i → Low ρ (ρ.rank (.var v)) i s)
    (hn : Room ρ n (ρ.rank (.var v)) s) :
    Safe ρ (Resolve.startValue calls v t value) s fun _ _ => True := by
  unfold Resolve.startValue
  split
  · exact pure fun _ => trivial
  · rename_i i
    refine (hc.expr s _ i (hvalue i rfl) hn).bind fun i' s1 hw hi' => ?_
    refine silent_bind .coerce (coerce hi'.1 (hw.program.seesAll ht)) fun _ _ => ?_
    have htype : ∀ d : Var, Node.expr d.typeExpr ∈ d.parts := by simp [Var.parts]
    refine updateVar (hw.program.sees hv) (fun d hs hd w hm => ?_) fun d hs hd c hmem => ?_
    · have hrefs := hs.handles.vars d (mem_toList_of_get? hd)
      simp only [Var.refs, Var.parts, Option.toList_some, List.map_cons, List.map_nil,
        List.cons_append, List.nil_append, List.mem_cons] at hm
      rcases hm with rfl | rfl | hm
      · exact hrefs _ (List.mem_append_left _ (htype d))
      · exact hi'.1
      · exact hrefs w (List.mem_append_right _ hm)
    · simp only [Var.parts, Option.toList_some, List.map_cons, List.map_nil, List.mem_cons,
        List.not_mem_nil, or_false, Node.expr.injEq] at hmem
      rcases hmem with rfl | rfl
      · exact hs.ranks.var v d hd _ (htype d)
      · exact hi'.2

/-! ## All expressions -/

section

variable (hc : calls.Safe ρ n) (he : Low ρ r e s) (hn : Room ρ n (ρ.depth e) s)

include hc he hn

theorem innerBefore {op : PrefixOp} (hl : Low ρ (ρ.depth e) l s) :
    Safe ρ (Resolve.innerBefore calls e op l) s (Low ρ (ρ.depth e)) := by
  refine (hc.expr s _ l hl hn).bind fun l' s1 hw1 hl' => ?_
  refine (rebuild (he.wider hw1) (by simp) (by simp) (by simpa using hl')).bind
    fun _ s2 hw2 _ => pure fun _ => hl'.wider hw2

theorem newArray {length : ExprId} (hi : Low ρ (ρ.depth e) inner s)
    (hl : Low ρ (ρ.depth inner) l s) (hlen : Low ρ (ρ.depth inner) length s) :
    Safe ρ (Resolve.newArray calls e inner l length) s (Low ρ r) := by
  have hn' : Room ρ n (ρ.depth inner) s := hn.mono hi.2.le
  refine (hc.type s _ l hl hn').bind fun ty s1 hw1 hty => ?_
  refine (hc.expr s1 _ length (hlen.wider hw1) (hn'.wider hw1)).bind fun length' s2 hw2 hlen' => ?_
  have hw12 := hw1.trans hw2
  refine (rebuild (hi.wider hw12) (by simp) (by simp) ?_).bind fun _ s3 hw3 _ => ?_
  · simpa using ⟨hl.wider hw12, hlen'⟩
  have hty3 : ρ.SeesAll s3.program (Ty.arrayPointer ty true).refs :=
    (hw2.trans hw3).program.seesAll hty
  refine valueTy_bind (hlen'.wider hw3).1 fun u hu => ?_
  split
  · refine (record ((hi.wider hw12).wider hw3).1 hty3).bind fun _ s4 hw4 _ => ?_
    exact typed_low (he.wider (hw12.trans (hw3.trans hw4))) (hw4.program.seesAll hty3)
  · exact mismatchAt (hlen'.wider hw3).1 hu

theorem newObject (hi : Low ρ (ρ.depth e) inner s) :
    Safe ρ (Resolve.newObject calls e inner) s (Low ρ r) := by
  refine (hc.type s _ inner hi hn).bind fun ty s1 hw1 hty => ?_
  split
  · exact typed_low (he.wider hw1) hty
  · exact mismatchAt (hi.wider hw1).1 hty

theorem allocation (hi : Low ρ (ρ.depth e) inner s) :
    Safe ρ (Resolve.allocation calls e inner) s (Low ρ r) := by
  refine node_bind hi.1 fun m hm => of_sound fun hs => ?_
  split
  · rename_i left length hk
    refine newArray hc he hn hi (hs.child hm ?_) (hs.child hm ?_)
    · simp [hk]
    · simp [hk]
  · exact newObject hc he hn hi

section

variable (hl : Low ρ (ρ.depth e) l s)

include hl

theorem before {op : PrefixOp} : Safe ρ (Resolve.before calls e op l) s (Low ρ r) := by
  have inner : Safe ρ (Resolve.innerBefore calls e op l) s (Low ρ (ρ.depth e)) :=
    innerBefore hc he hn hl
  unfold Resolve.before
  split
  · exact allocation hc he hn hl
  · exact failAt he.1
  · exact failAt he.1
  · exact inner.bind fun _ _ hw hl' => steppedBefore (he.wider hw) hl'.1
  · exact inner.bind fun _ _ hw hl' => steppedBefore (he.wider hw) hl'.1
  · exact inner.bind fun _ _ hw hl' => negation (he.wider hw) hl'.1
  · exact inner.bind fun _ _ hw hl' => bitComplement (he.wider hw) hl'.1
  · exact inner.bind fun _ _ hw hl' => logicalNot (he.wider hw) hl'.1

theorem steppedAfter {op : PostfixOp} : Safe ρ (Resolve.steppedAfter calls e op l) s (Low ρ r) := by
  refine (hc.expr s _ l hl hn).bind fun l' s1 hw1 hl' => ?_
  refine (rebuild (he.wider hw1) (by simp) (by simp) (by simpa using hl')).bind fun _ s2 hw2 _ => ?_
  have hhas := (hl'.wider hw2).1
  refine valueTy_bind hhas fun ty hty => silent_bind .requireNumeric (requireNumeric hhas hty)
    fun _ _ => silent_bind .requirePlace (requirePlace hhas) fun _ _ => ?_
  exact typed_low (he.wider (hw1.trans hw2)) hty

theorem after {op : PostfixOp} : Safe ρ (Resolve.after calls e op l) s (Low ρ r) := by
  unfold Resolve.after
  split
  · exact failAt he.1
  · exact steppedAfter hc he hn hl
  · exact steppedAfter hc he hn hl

theorem binary {op : BinaryOp} (hr : ∀ c ∈ right.exprs, Low ρ (ρ.depth e) c s) :
    Safe ρ (Resolve.binary calls e op l right) s (Low ρ r) := by
  unfold Resolve.binary
  split
  · rename_i a
    refine (hc.expr s _ l hl hn).bind fun l' s1 hw1 hl' => ?_
    refine (hc.expr s1 _ a ((hr a (by simp)).wider hw1) (hn.wider hw1)).bind
      fun a' s2 hw2 ha' => ?_
    refine (rebuild (he.wider (hw1.trans hw2)) (by simp) (by simp) ?_).bind fun _ s3 hw3 _ => ?_
    · simpa using ⟨hl'.wider hw2, ha'⟩
    · exact operation (he.wider (hw1.trans (hw2.trans hw3))) (hl'.wider (hw2.trans hw3)).1
        ((ha'.wider hw3).mono he.2.le)
  · exact failAt he.1

end

theorem memberFrom (hi : scope.slot < s.table.scopes.size) (hm : Low ρ (ρ.depth e) member s) :
    Safe ρ (Resolve.memberFrom calls scope e member) s (Low ρ r) := by
  refine (resolveName reads_lookupMember hc hi hm (hn.mono (Nat.zero_le _))).bind
    fun resolved s1 hw1 hres => ?_
  split
  · exact valueTy_bind (hm.wider hw1).1 fun t ht => typed_low (he.wider hw1) ht
  · exact pure fun _ => hres.mono he.2.le

theorem memberOfClass (hm : Low ρ (ρ.depth e) member s) (ht : ρ.SeesAll s.program t.refs) :
    Safe ρ (Resolve.memberOfClass calls e member name t) s (Low ρ r) := by
  unfold Resolve.memberOfClass
  split
  · rename_i c hclass
    exact classScope_bind (memberClass_refs hclass ht) fun i _ hi => memberFrom hc he hn hi hm
  · exact failAt hm.1

theorem memberOfValue (hl : Low ρ (ρ.depth e) l s) (hm : Low ρ (ρ.depth e) member s) :
    Safe ρ (Resolve.memberOfValue calls e l member name) s (Low ρ r) := by
  refine (hc.expr s _ l hl hn).bind fun l' s1 hw1 hl' => ?_
  refine (rebuild (he.wider hw1) (by simp) (by simp) ?_).bind fun _ s2 hw2 _ => ?_
  · simpa using ⟨hl', hm.wider hw1⟩
  have hw := hw1.trans hw2
  replace hl' := (hl'.wider hw2).1
  refine valueTy_bind hl' fun t ht => ?_
  split
  · exact stringLength (he.wider hw) hl' (hm.wider hw).1
  · split
    · split
      · exact fold_low (he.wider hw)
      · exact memberOfClass hc (he.wider hw) (hn.wider hw) (hm.wider hw) ht
    · exact memberOfClass hc (he.wider hw) (hn.wider hw) (hm.wider hw) ht

theorem memberNamed (hl : Low ρ (ρ.depth e) l s) (hm : Low ρ (ρ.depth e) member s) :
    Safe ρ (Resolve.memberNamed calls e l member name) s (Low ρ r) := by
  refine (ownerScope hl.1).bind fun found s1 hw hfound => ?_
  split
  · exact memberFrom hc (he.wider hw) (hn.wider hw) (hfound _ rfl) (hm.wider hw)
  · exact memberOfValue hc (he.wider hw) (hn.wider hw) (hl.wider hw) (hm.wider hw)

theorem memberAccess (hl : Low ρ (ρ.depth e) l s) (hr : ∀ c ∈ right.exprs, Low ρ (ρ.depth e) c s) :
    Safe ρ (Resolve.memberAccess calls e l right) s (Low ρ r) := by
  unfold Resolve.memberAccess
  split
  · rename_i member
    have hm := hr member (by simp)
    refine node_bind hm.1 fun m _ => ?_
    split
    · exact memberNamed hc he hn hl hm
    · exact failAt hm.1
  · exact failAt he.1

theorem callOf {m : MethodId} {args : List ExprId}
    (hcallee : Low ρ (ρ.depth e) callee s) (hm : ρ.Sees s.program (.method m))
    (hargs : ∀ a ∈ args, Low ρ (ρ.depth e) a s) :
    Safe ρ (Resolve.callOf calls e callee m args) s (Low ρ r) := by
  refine ask_bind (fun _ => .fetch hm) fun d hd => of_sound fun hs => ?_
  dsimp only
  split
  · refine (mapM (A := Low ρ (ρ.depth e)) ?_ fun a _ _ hw ha => ha.wider hw).bind
      fun args' s1 hw1 hargs' => ?_
    · rintro ⟨arg, param⟩ hmem s' hw
      have hpair := List.of_mem_zip hmem
      have hparam : ρ.Sees s.program (.var param) :=
        hs.handles.methods d (mem_toList_of_get? hd) _
        (by simp [Method.refs, Method.parts, hpair.2])
      exact argument hc ((hargs arg hpair.1).wider hw) (hw.program.sees hparam) (hn.wider hw)
    refine (rebuild (he.wider hw1) (by simp) (by simp) ?_).bind fun _ s2 hw2 _ => ?_
    · intro c hmem
      rcases List.mem_cons.1 hmem with rfl | hmem
      · exact hcallee.wider hw1
      · exact hargs' c hmem
    · refine ask_bind (fun _ => .fetch ((hw1.trans hw2).program.sees hm)) fun d' hd' =>
        of_sound fun hs => ?_
      exact typed_low (he.wider (hw1.trans hw2)) (methodTy_refs hs hd')
  · exact failAt he.1

theorem call {args : Operand} (hcallee : Low ρ (ρ.depth e) callee s)
    (hargs : ∀ a ∈ args.exprs, Low ρ (ρ.depth e) a s) :
    Safe ρ (Resolve.call calls e callee args) s (Low ρ r) := by
  unfold Resolve.call
  split
  · rename_i args
    refine (hc.expr s _ callee hcallee hn).bind fun callee' s1 hw hcallee' => ?_
    refine ask_bind (fun hs => answers_symbolOf hs.handles hs.ranks hs.exprs hcallee'.1)
      fun symbol hsymbol => ?_
    split
    · rename_i m
      have hm := hsymbol _ rfl (.method m) (by simp [Symbol.refs])
      exact callOf hc (he.wider hw) (hn.wider hw) hcallee' hm (fun a ha => (hargs a ha).wider hw)
    · exact failAt hcallee'.1
  · exact failAt he.1

theorem conditional {cond : ExprId} (hcond : Low ρ (ρ.depth e) cond s)
    (ht : Low ρ (ρ.depth e) onTrue s) (hf : Low ρ (ρ.depth e) onFalse s) :
    Safe ρ (Resolve.conditional calls e cond onTrue onFalse) s (Low ρ r) := by
  refine (condition (hc.expr s _ cond hcond hn)).bind fun cond' s1 hw1 hcond' => ?_
  refine (hc.expr s1 _ onTrue (ht.wider hw1) (hn.wider hw1)).bind fun onTrue' s2 hw2 ht' => ?_
  refine (hc.expr s2 _ onFalse (hf.wider (hw1.trans hw2)) (hn.wider (hw1.trans hw2))).bind
    fun onFalse' s3 hw3 hf' => ?_
  have hw := hw1.trans (hw2.trans hw3)
  refine (rebuild (he.wider hw) (by simp) (by simp) ?_).bind fun _ s4 hw4 _ => ?_
  · simpa using ⟨hcond'.wider (hw2.trans hw3), ht'.wider hw3, hf'⟩
  · exact choice (he.wider (hw.trans hw4)) (hcond'.wider (hw2.trans (hw3.trans hw4))).1
      ((ht'.wider (hw3.trans hw4)).mono he.2.le) ((hf'.wider hw4).mono he.2.le)

theorem collection (hitems : ∀ i ∈ items, Low ρ (ρ.depth e) i s) :
    Safe ρ (Resolve.collection calls e items) s (Low ρ r) := by
  refine (mapM (A := Low ρ (ρ.depth e)) (fun i hi s' hw => hc.expr s' _ i ((hitems i hi).wider hw)
    (hn.wider hw)) fun a _ _ hw ha => ha.wider hw).bind fun items' s1 hw1 hitems' => ?_
  split
  · exact failAt (he.wider hw1).1
  · rename_i first rest
    refine valueTy_bind (hitems' first List.mem_cons_self).1 fun t ht => ?_
    refine silent_bind .commonTy (commonTy ht fun i hi => (hitems' i (List.mem_cons_of_mem _ hi)).1)
      fun u hu => ?_
    dsimp only
    split
    · exact failAt (he.wider hw1).1
    · refine (rebuild (he.wider hw1) (by simp) (by simp) ?_).bind fun _ s2 hw2 _ => ?_
      · exact hitems'
      · exact typed_low (he.wider (hw1.trans hw2)) (hw2.program.seesAll hu)

theorem localVar {v : VarId} (hv : ρ.Sees s.program (.var v)) (hle : ρ.rank (.var v) ≤ ρ.depth e) :
    Safe ρ (Resolve.localVar calls e v) s (Low ρ r) := by
  have hn' := hn.mono hle
  refine ask_bind (fun _ => .fetch hv) fun d hd => of_sound fun hs => ?_
  have hpart : ∀ c, .expr c ∈ d.parts → Low ρ (ρ.rank (.var v)) c s := fun c hm =>
    ⟨hs.handles.vars d (mem_toList_of_get? hd) _ (List.mem_append_left _ hm),
      hs.ranks.var v d hd c hm⟩
  refine (hc.type s _ d.typeExpr (hpart _ (by simp [Var.parts])) hn').bind fun t s1 hw1 ht => ?_
  refine (startValue hc (hw1.program.sees hv) ht (fun i hi => (hpart i ?_).wider hw1)
    (hn'.wider hw1)).bind fun _ s2 hw2 _ => ?_
  · simp [Var.parts, hi]
  have hw12 := hw1.trans hw2
  refine (updateVar (g := fun d => { d with ty := some t }) (hw12.program.sees hv)
    (fun d' hs2 hd' w hm => ?_) fun d' hs2 hd' => hs2.ranks.var v d' hd').bind fun _ s3 hw3 _ => ?_
  · rcases List.mem_append.1 hm with hm | hm
    · exact hs2.handles.vars d' (mem_toList_of_get? hd') w (List.mem_append_left _ hm)
    · exact hw2.program.seesAll ht w hm
  have hw := hw12.trans hw3
  refine node_bind (he.wider hw).1 fun m _ => ?_
  refine (define fun w hm => ?_).bind fun _ s4 hw4 _ => ?_
  · obtain rfl := List.mem_singleton.1 hm
    exact hw.program.sees hv
  · exact typed_low (he.wider (hw.trans hw4)) ((hw2.trans (hw3.trans hw4)).program.seesAll ht)

theorem exprRule : Safe ρ (Resolve.exprRule calls e) s (Low ρ r) := by
  refine node_bind he.1 fun m hm => of_sound fun hs => ?_
  have hchild : ∀ c ∈ m.kind.children, Low ρ (ρ.depth e) c s := fun c h => hs.child hm h
  split <;> rename_i hk <;> simp only [hk, Expr.children] at hchild
  · refine typed_low he fun w hw => ?_
    rename_i value
    cases value <;> simp [Literal.ty, Ty.refs, Ty.double] at hw
  · exact localName hc he (hn.mono (Nat.zero_le _))
  · exact before hc he hn (hchild _ (by simp))
  · exact after hc he hn (hchild _ (by simp))
  · exact memberAccess hc he hn (hchild _ (by simp))
      (fun c h => hchild c (List.mem_cons_of_mem _ h))
  · exact call hc he hn (hchild _ (by simp)) (fun c h => hchild c (List.mem_cons_of_mem _ h))
  · exact binary hc he hn (hchild _ (by simp)) (fun c h => hchild c (List.mem_cons_of_mem _ h))
  · exact conditional hc he hn (hchild _ (by simp)) (hchild _ (by simp)) (hchild _ (by simp))
  · exact collection hc he hn hchild
  · rename_i v
    refine localVar hc he hn ?_ ((hs.ranks.expr e m hm).2 v hk)
    exact hs.handles.kind hm (by simp [hk, Expr.refs])

end

end Safe

end Ci
