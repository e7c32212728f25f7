-- Expressions follow a discipline, if the rules that they call do. The type that is
-- recorded for an expression is made from the types of its parts by the operations
-- that a family of intervals allows.
import Ci.Proofs.Discipline.Steps

namespace Ci

open Pass Resolve Program Arena

variable {W : Type} [Preorder W] {L : Discipline W} {π : Spot} {w w' : W} {e l r : ExprId}
  {kind : Expr} {calls : Calls} {operands items : List ExprId} {t : Ty} {op : IntOp}
  {known : Option Symbol} {look : Resolve.Look} {scope : ScopeId} {right : Operand} {v : VarId}
  {s : State} {n : ExprNode} {Δ : Set (Node × Node)}

/-- The rules that are called follow the discipline. -/
structure Pass.Calls.Obey (calls : Calls) (L : Discipline W) : Prop where
  expr : ∀ {π w e}, L.At w π (.expr e) → Obeys L π w (calls.expr e) (L.Gives · e)
  type : ∀ {π w e}, L.At w π (.expr e) → Obeys L π w (calls.type e) fun w' t =>
    t.Within L.Family ∧ L.Covers w' (.expr e)
  const : ∀ {π w k}, L.Means w (.const k) ∨ L.At w π (.const k) →
    Obeys L π w (calls.const k) fun w' _ => L.Settled w' k

namespace Obeys

/-! ## Values -/

theorem declared {t : Option Ty} (he : L.Open π w e) (ht : ∀ u, t = some u → u.Within L.Family) :
    Obeys L π w (Resolve.declared e t) (L.Gives · e) := by
  cases t with
  | some u => exact typed he (ht u rfl)
  | none => exact failAt he.here rfl

section

variable (he : L.Open π w e)

include he

theorem foldUnless {value : Literal} (ht : t.Within L.Family) :
    Obeys L π w (Resolve.foldUnless e operands value t) (L.Gives · e) := by
  refine look_bind .areInert fun b => ?_
  split
  · exact fold he.here
  · exact typed he ht

theorem typedRange {i : Interval} (hi : L.Family i) :
    Obeys L π w (Resolve.typedRange e operands i) (L.Gives · e) := by
  unfold Resolve.typedRange
  split
  · exact foldUnless he hi
  · exact typed he hi

theorem typedBool {known : Option Bool} :
    Obeys L π w (Resolve.typedBool e operands known) (L.Gives · e) := by
  unfold Resolve.typedBool
  split
  · exact foldUnless he trivial
  · exact typed he trivial

theorem concatenation : Obeys L π w (Resolve.concatenation e l r) (L.Gives · e) := by
  refine look_bind .ask fun v => look_bind .ask fun u => ?_
  split
  · exact fold he.here
  · exact typed he trivial

theorem charOf : Obeys L π w (Resolve.charOf e l r) (L.Gives · e) := by
  refine look_bind .ask fun v => look_bind .ask fun u => ?_
  split
  · split
    · exact fold he.here
    · exact typed he trivial
  · exact typed he trivial

theorem bounds_bind {β : Type} {f : Interval → Pass β} {R : W → β → Prop}
    {i j : Interval} (hi : L.Family i) (hj : L.Family j)
    (h : ∀ k, L.Family k → Obeys L π w (f k) R) : Obeys L π w (bounds e op i j >>= f) R := by
  unfold bounds
  split
  · exact h _ (L.family.apply hi hj ‹_›)
  · rename_i z _
    exact bind (Q := fun _ _ => False) (failAt he.here (by cases z <;> rfl)) fun _ _ _ h => h.elim

end

/-! ## Operators with one operand -/

section

variable (he : L.Open π w e) (hl : L.At w π (.expr l))

include he hl

theorem steppedBefore {delta : Int64} :
    Obeys L π w (Resolve.steppedBefore e l delta) (L.Gives · e) := by
  refine valueTy_bind fun t ht => check_bind .requireNumeric hl fun _ =>
    check_bind .requirePlace hl fun _ => ?_
  split
  · exact typed he (L.family.offset (ht.asRange ‹_›))
  · exact typed he ht

theorem negation : Obeys L π w (Resolve.negation e l) (L.Gives · e) := by
  refine valueTy_bind fun t ht => check_bind .requireNumeric hl fun _ => look_bind .ask fun v => ?_
  split
  · exact fold he.here
  · split
    · exact typedRange he (L.family.neg (ht.asRange ‹_›))
    · exact typed he ht

theorem bitComplement : Obeys L π w (Resolve.bitComplement e l) (L.Gives · e) := by
  refine valueTy_bind fun t ht => check_bind .requireInteger hl fun _ => ?_
  split
  · exact typedRange he (L.family.complement (ht.asRange ‹_›))
  · exact typed he ht

theorem logicalNot : Obeys L π w (Resolve.logicalNot e l) (L.Gives · e) := by
  refine check_bind .coerce hl fun _ => look_bind .boolLiteral? fun v => ?_
  split
  · exact fold he.here
  · exact typed he trivial

/-! ## Operators between two operands -/

variable (hr : L.At w π (.expr r))

include hr

theorem indexing : Obeys L π w (Resolve.indexing e l r) (L.Gives · e) := by
  refine look_bind .ask fun i => ?_
  split
  · refine valueTy_bind fun t ht => ?_
    split
    · exact typed he (ht.element ‹_›)
    · split
      · exact charOf he
      · exact mismatchAt hl
  · exact failAt hr rfl

theorem arithmetic : Obeys L π w (Resolve.arithmetic e op l r) (L.Gives · e) := by
  refine valueTy_bind fun t ht => valueTy_bind fun u hu => ?_
  split
  · exact concatenation he
  · split
    · exact bounds_bind he (ht.asRange ‹_›) (hu.asRange ‹_›) fun _ hk => typedRange he hk
    · exact check_bind .requireOperand hl fun _ => check_bind .requireOperand hr fun _ =>
        typed he .resultTy

theorem ordering {rel : Relation} : Obeys L π w (Resolve.ordering e rel l r) (L.Gives · e) :=
  look_bind .ask fun _ => look_bind .ask fun _ => check_bind .requireNumeric hl fun _ =>
    check_bind .requireNumeric hr fun _ => look_bind .knownOrder fun _ => typedBool he

theorem assignment : Obeys L π w (Resolve.assignment e l r) (L.Gives · e) :=
  check_bind .requirePlace hl fun _ => valueTy_bind fun _ ht => check_bind .coerce hr fun _ =>
    typed he ht

theorem update : Obeys L π w (Resolve.update e op l r) (L.Gives · e) := by
  refine check_bind .requirePlace hl fun _ => valueTy_bind fun t ht => look_bind .ask fun u => ?_
  split
  · exact typed he ht
  · exact check_bind .requireOperand hl fun _ => check_bind .requireOperand hr fun _ =>
      check_bind .checkBounds he.here fun _ => typed he ht

theorem logical {decisive : Bool} (hg : L.Gives w e r) :
    Obeys L π w (Resolve.logical e decisive l r) (L.Gives · e) := by
  refine check_bind .coerce hl fun _ => check_bind .coerce hr fun _ =>
    look_bind .boolLiteral? fun v => ?_
  split
  · split
    · exact fold he.here
    · exact pure hg
  · exact typed he trivial

omit hl

theorem equality {wanted : Bool} : Obeys L π w (Resolve.equality e wanted l r) (L.Gives · e) := by
  refine look_bind .ask fun t => look_bind .ask fun u => look_bind .comparable fun b => ?_
  split
  · exact look_bind .knownEqual fun _ => typedBool he
  · exact mismatchTy hr

theorem choice {cond : ExprId} (hgl : L.Gives w e l) (hgr : L.Gives w e r) :
    Obeys L π w (Resolve.choice e cond l r) (L.Gives · e) := by
  refine valueTy_bind fun t ht => valueTy_bind fun u hu => ?_
  split
  · exact mismatchTy hr
  · refine look_bind .boolLiteral? fun v => ?_
    split
    · exact pure hgl
    · exact pure hgr
    · exact typed he (ht.unify L.family hu ‹_›)

end

theorem operation {op : BinaryOp} (he : L.Open π w e) (hl : L.At w π (.expr l))
    (hr : L.At w π (.expr r)) (hg : L.Gives w e r) :
    Obeys L π w (Resolve.operation e op l r) (L.Gives · e) := by
  cases op with
  | index => exact indexing he hl hr
  | equal | notEqual => exact equality he hr
  | order => exact ordering he hl hr
  | condAnd | condOr => exact logical he hl hr hg
  | assign => exact assignment he hl hr
  | update => exact update he hl hr
  | arith => exact arithmetic he hl hr
  | dot | call => exact failAt he.here rfl

theorem commonTy_bind {β : Type} {f : Ty → Pass β} {R : W → β → Prop}
    (hi : ∀ item ∈ items, L.At w π (.expr item)) (ht : t.Within L.Family)
    (h : ∀ u, u.Within L.Family → Obeys L π w (f u) R) :
    Obeys L π w (commonTy t items >>= f) R := by
  refine bind (Q := fun w' u => w' = w ∧ u.Within L.Family) ?_ fun _ u _ hq => hq.1 ▸ h u hq.2
  clear h
  induction items generalizing t with
  | nil => exact pure ⟨rfl, ht⟩
  | cons _ _ ih =>
    obtain ⟨hitem, hrest⟩ := List.forall_mem_cons.1 hi
    refine valueTy_bind fun u hu => ?_
    split
    · exact ih hrest (ht.unify L.family hu ‹_›)
    · exact mismatchTy hitem

/-! ## Names -/

/-- A name holds nothing, and so it may stand for whatever names may stand for. -/
theorem rename {text : String} {symbol : Option Symbol}
    (h : L.Reads π w e (.name text known)) (hs : ∀ found, symbol = some found → L.Means w found) :
    Obeys L π w (Pass.replace e (.name text symbol)) fun w' _ => L.Held w' (.expr e) :=
  replace h.fits rfl .nil rfl rfl fun _ found heq => hs found (by cases heq; rfl)

theorem bindName (hlook : Finds look) (he : L.At w π (.expr e)) :
    Obeys L π w (Resolve.bindName look scope e) fun w' b => L.Open π w' e ∧ L.Means w' b.2 := by
  refine node_bind he fun n hn => ?_
  split
  · rename_i hk
    rw [hk] at hn
    exact pure ⟨hn.openName, hn.names _ _ rfl⟩
  · rename_i hk
    rw [hk] at hn
    refine find_bind (i := fun _ => scope) hlook fun symbol hs => ?_
    split
    · exact bind (rename hn hs) fun _ _ hw _ =>
        pure ⟨hn.openName.mono hw, L.means_mono hw (hs _ rfl)⟩
    · exact failAt he rfl
  · exact failAt he rfl

/-- The name of a class or an enumeration gets its type. -/
theorem ownerScope (he : L.At w π (.expr e)) :
    Obeys L π w (Resolve.ownerScope e) fun w' scope => scope.isSome → L.Gives w' e e := by
  refine node_bind he fun n hn => ?_
  split
  · rename_i name known hk
    rw [hk] at hn
    have howner : ∀ {symbol : Symbol} {t : Ty}, (∀ t, symbol ≠ .type t) → (∀ k, symbol ≠ .const k) →
        t.Within L.Family → Obeys L π w (bindOwner e name symbol t) fun w' _ => L.Gives w' e e := by
      intro symbol t ht hk hw
      refine bind (rename hn fun _ heq => ?_) fun _ _ hw' _ => record (hn.openName.mono hw') hw
      cases heq
      exact L.means_other ht hk
    refine look_bind .standsFor fun symbol => ?_
    split
    · exact look_bind .classScope fun _ => bind (howner (by simp) (by simp) trivial)
        fun _ _ _ hg => pure fun _ => hg
    · exact look_bind .enumScope fun _ => bind (howner (by simp) (by simp) trivial)
        fun _ _ _ hg => pure fun _ => hg
    · exact pure (by simp)
  · exact pure (by simp)

/-- What names no class and no enumeration is only looked at. -/
theorem ownerScope_none {s' : State} (run : Resolve.ownerScope e s = .ok none s') : s' = s := by
  simp only [Resolve.ownerScope, bind_eq_ok, node_eq_ok] at run
  obtain ⟨n, _, ⟨-, rfl⟩, run⟩ := run
  generalize n.kind = kind at run
  split at run
  · simp only [bind_eq_ok] at run
    obtain ⟨symbol, s1, hfound, run⟩ := run
    obtain rfl := Silent.standsFor.of_ok hfound
    split at run
    · simp only [bind_eq_ok, pure_eq_ok, reduceCtorEq, false_and, and_false, exists_false] at run
    · simp only [bind_eq_ok, pure_eq_ok, reduceCtorEq, false_and, and_false, exists_false] at run
    · exact (pure_eq_ok.1 run).2
  · exact (pure_eq_ok.1 run).2

section

variable (hc : calls.Obey L)

include hc

theorem resolveName (hlook : Finds look) (he : L.At w π (.expr e)) :
    Obeys L π w (Resolve.resolveName calls look scope e) (L.Gives · e) := by
  refine bind (bindName hlook he) ?_
  rintro w ⟨name, symbol⟩ - ⟨ho, hm⟩
  cases symbol with
  | const =>
    refine bind (hc.const (.inl hm)) fun w' _ hw _ => ask_bind fun s d hs hd =>
      look_bind .inlined? fun v => ?_
    split
    · exact fold (ho.mono hw).here
    · exact declared (ho.mono hw) ((L.types hs).consts d (mem_of_fetch hd))
  | field =>
    exact ask_bind fun s d hs hd => declared ho ((L.types hs).fields d (mem_of_fetch hd))
  | method =>
    exact ask_bind fun s d hs hd => declared ho ((L.types hs).methods d (mem_of_fetch hd))
  | var =>
    exact ask_bind fun s d hs hd => declared ho ((L.types hs).vars d (mem_of_fetch hd))
  | stringLength => exact declared ho fun _ heq => Option.some.inj heq ▸ .length L.family
  | type | classDecl | enumDecl => exact failAt ho.here rfl

/-! ## Allocation and steps -/

theorem innerBefore {op : PrefixOp} (h : L.Reads π w e (.before op l)) :
    Obeys L π w (Resolve.innerBefore calls e op l) fun w' l' => L.Open π w' e ∧
    L.At w' π (.expr l') := by
  have hl := h.parts (.expr l) (by simp)
  refine bind (hc.expr hl) fun w1 l' hw1 hg =>
    bind (replace (h.mono hw1).fits rfl (.cons (.expr hg) .nil) rfl rfl (by simp))
    fun w2 _ hw2 hh => ?_
  have hw := hw1.trans hw2
  exact pure ⟨(h.mono hw).open hh rfl rfl, L.gives_at (L.at_mono hw hl) (L.gives_mono hw2 hg)⟩

theorem allocation (he : L.Open π w e) (hl : L.At w π (.expr l)) :
    Obeys L π w (Resolve.allocation calls e l) fun w' e' => L.Gives w' e e' ∧
    L.Covers w' (.expr l) := by
  have htyped : ∀ {w'} {t : Ty}, w ≤ w' → L.Covers w' (.expr l) → t.Within L.Family →
      Obeys L π w' (Pass.typed e t) fun w' e' => L.Gives w' e e' ∧ L.Covers w' (.expr l) :=
    fun hw hcov ht => (typed (he.mono hw) ht).imp fun _ _ hw' hg => ⟨hg, L.covers_mono hw' hcov⟩
  refine node_bind hl fun n hn => ?_
  split
  · rename_i left length hk
    rw [hk] at hn
    refine bind (hc.type (hn.parts (.expr left) (by simp))) fun w1 t hw1 ht =>
      bind (hc.expr (L.at_mono hw1 (hn.parts (.expr length) (by simp)))) fun w2 length' hw2 hg =>
        bind (replace (hn.mono (hw1.trans hw2)).fits rfl
          (.cons (.same (.inl (L.covers_mono hw2 ht.2))) (.cons (.expr hg) .nil)) rfl rfl (by simp))
          fun w3 _ hw3 hh => look_bind .ask fun u => ?_
    have hw := (hw1.trans hw2).trans hw3
    split
    · exact bind (record ((hn.mono hw).open hh rfl rfl) ht.1) fun w4 _ hw4 hl =>
        htyped (hw.trans hw4) (L.gives_covers hl) ht.1
    · exact mismatchAt
        (L.gives_at ((hn.mono hw).parts (.expr length) (by simp)) (L.gives_mono hw3 hg))
  · refine bind (hc.type hl) fun w' t hw ht => ?_
    cases t with
    | classStorage => exact htyped hw ht.2 trivial
    | _ => exact mismatchAt (L.at_mono hw hl)

theorem before {op : PrefixOp} (hs : L.Holds Δ w s) (hπ : s.place = π)
    (hn : s.program.exprs.get? e = some n) (hk : n.kind = .before op l)
    (h : L.Reads π w e (.before op l)) :
    ObeysFrom L Δ w s (Resolve.before calls e op l) (L.Gives · e) := by
  have hinner := innerBefore hc h
  cases op with
  | new =>
    refine .owing hs hn (by simp [hk]) fun w' hw hh hs' => allocation hc ?_ ?_ s hs' hπ
    · exact (h.mono hw).open hh rfl rfl
    · exact (h.mono hw).parts (.expr l) (by simp)
  | less | lessOrEqual => exact failAt h.here rfl s hs hπ
  | increment | decrement => exact hinner.bind (fun _ _ _ hl => steppedBefore hl.1 hl.2) s hs hπ
  | minus => exact hinner.bind (fun _ _ _ hl => negation hl.1 hl.2) s hs hπ
  | tilde => exact hinner.bind (fun _ _ _ hl => bitComplement hl.1 hl.2) s hs hπ
  | not => exact hinner.bind (fun _ _ _ hl => logicalNot hl.1 hl.2) s hs hπ

theorem after {op : PostfixOp} (h : L.Reads π w e (.after op l)) :
    Obeys L π w (Resolve.after calls e op l) (L.Gives · e) := by
  have hl := h.parts (.expr l) (by simp)
  have hstep : Obeys L π w (steppedAfter calls e op l) (L.Gives · e) := by
    refine bind (hc.expr hl) fun w1 l' hw1 hg => bind (replace (h.mono hw1).fits rfl
      (.cons (.expr hg) .nil) rfl rfl (by simp)) fun w2 _ hw2 hh => ?_
    have hw := hw1.trans hw2
    have hl' := L.gives_at (L.at_mono hw hl) (L.gives_mono hw2 hg)
    exact valueTy_bind fun t ht => check_bind .requireNumeric hl' fun _ =>
      check_bind .requirePlace hl' fun _ => typed ((h.mono hw).open hh rfl rfl) ht
  cases op with
  | bang => exact failAt h.here rfl
  | increment | decrement => exact hstep

theorem binary {op : BinaryOp} (hop : ∀ l r, Expr.member (.binary op l r) = [])
    (h : L.Reads π w e (.binary op l right)) :
    Obeys L π w (Resolve.binary calls e op l right) (L.Gives · e) := by
  cases right with
  | expr r =>
    have hl := h.parts (.expr l) (by simp)
    have hr := h.parts (.expr r) (by simp)
    refine bind (hc.expr hl) fun w1 l' hw1 hgl =>
      bind (hc.expr (L.at_mono hw1 hr)) fun w2 r' hw2 hgr =>
        bind (replace (h.mono (hw1.trans hw2)).fits rfl
          (.cons (.expr (L.gives_mono hw2 hgl)) (.cons (.expr hgr) .nil)) rfl
          ((hop _ _).trans (hop _ _).symm) (by simp)) fun w3 _ hw3 hh => ?_
    have hw := (hw1.trans hw2).trans hw3
    replace hgr := L.gives_mono hw3 hgr
    exact operation ((h.mono hw).open hh rfl (hop _ _))
      (L.gives_at (L.at_mono hw hl) (L.gives_mono (hw2.trans hw3) hgl))
      (L.gives_at (L.at_mono hw hr) hgr)
      (L.gives_child (h.mono hw).fits (by simp) hgr)
  | none | args => exact failAt h.here rfl

/-! ## Members and calls -/

theorem memberFrom (h : L.Reads π w e (.binary .dot l (.expr r))) (hh : L.Held w (.expr e)) :
    Obeys L π w (Resolve.memberFrom calls scope e r) (L.Gives · e) := by
  refine bind (resolveName hc finds_lookupMember (h.parts (.expr r) (by simp)))
    fun w' r' hw hg => ?_
  replace h := h.mono hw
  split
  · rename_i heq
    refine valueTy_bind fun _ ht => typed ⟨h.here, L.held_mono hw hh, _, h.fits, rfl,
      fun y hy => ?_⟩ ht
    obtain rfl := List.mem_singleton.1 hy
    exact heq ▸ L.gives_covers hg
  · exact pure (L.gives_child h.fits (by simp) hg)

theorem memberOfValue {name : String}
    (h : L.Reads π w e (.binary .dot l (.expr r))) (hn : L.Reads π w r (.name name known)) :
    Obeys L π w (Resolve.memberOfValue calls e l r name) (L.Gives · e) := by
  refine bind (hc.expr (h.parts (.expr l) (by simp))) fun w1 l' hw1 hg =>
    bind (replace (h.mono hw1).fits rfl
      (.cons (.expr hg) (.cons (.same (.inr (List.mem_singleton_self _))) .nil)) rfl rfl (by simp))
      fun w2 _ hw2 hh => look_bind .ask fun t => ?_
  replace h := h.mono (hw1.trans hw2)
  replace hn := hn.mono (hw1.trans hw2)
  have hclass : ∀ t : Ty, Obeys L π w2 (memberOfClass calls e r name t) (L.Gives · e) := by
    intro t
    unfold memberOfClass
    split
    · exact look_bind .classScope fun _ => memberFrom hc h hh
    · exact failAt hn.here rfl
  split
  · refine look_bind .ask fun v => ?_
    split
    · exact fold h.here
    · refine bind (rename hn fun _ heq => Option.some.inj heq ▸ L.means_other (by simp) (by simp))
        fun w3 _ hw3 _ => bind (record (hn.openName.mono hw3) (.length L.family)) fun w4 _ hw4 hr =>
          typed ⟨(h.mono (hw3.trans hw4)).here, L.held_mono (hw3.trans hw4) hh, _,
            (h.mono (hw3.trans hw4)).fits, rfl, fun y hy => ?_⟩ (.length L.family)
      obtain rfl := List.mem_singleton.1 hy
      exact L.gives_covers hr
  · split
    · split
      · exact fold h.here
      · exact hclass _
    · exact hclass _

/-- The name before the dot gets its type before the member is looked up, or it is not one of a
class or an enumeration. -/
theorem memberNamed {name : String} (hs : L.Holds Δ w s) (hπ : s.place = π)
    (hn : s.program.exprs.get? e = some n) (hk : n.kind = .binary .dot l (.expr r))
    (h : L.Reads π w e (.binary .dot l (.expr r))) (hr : L.Reads π w r (.name name known)) :
    ObeysFrom L Δ w s (Resolve.memberNamed calls e l r name) (L.Gives · e) := by
  have hl := h.parts (.expr l) (by simp)
  by_cases hnone : Resolve.ownerScope l s = .ok none s
  · unfold ObeysFrom Resolve.memberNamed
    rw [bind_ok hnone]
    exact memberOfValue hc h hr s hs hπ
  · refine .owing (z := .expr l) hs hn (by simp [hk, Expr.member]) fun w1 hw1 hh hs1 =>
      (ownerScope (L.at_mono hw1 hl) s hs1 hπ).bind_at fun w2 scope t hx hw2 ht hp hg => ?_
    cases scope with
    | none => exact absurd (ownerScope_none hx ▸ hx) hnone
    | some =>
      exact (memberFrom hc (h.mono (hw1.trans hw2)) (L.held_mono hw2 hh)).imp (fun _ _ hw' he =>
        ⟨he, L.covers_mono hw' (L.gives_covers (hg rfl))⟩) t ht (hp.trans hπ)

theorem memberAccess (hs : L.Holds Δ w s) (hπ : s.place = π) (hn : s.program.exprs.get? e = some n)
    (hk : n.kind = .binary .dot l right) (h : L.Reads π w e (.binary .dot l right)) :
    ObeysFrom L Δ w s (Resolve.memberAccess calls e l right) (L.Gives · e) := by
  cases right with
  | expr r =>
    have hr := h.parts (.expr r) (by simp)
    refine .ask hs fun m hm => ?_
    obtain ⟨hfits, hparts, hnames⟩ := L.node hs hr (fetch_ok.1 hm)
    split
    · rename_i hmk
      rw [hmk] at hfits hparts hnames
      exact memberNamed hc hs hπ hn hk h ⟨hr, hfits, hparts, hnames⟩
    · exact failAt hr rfl s hs hπ
  | none | args => exact failAt h.here rfl s hs hπ

theorem argument (hl : L.At w π (.expr l)) :
    Obeys L π w (Resolve.argument calls l v) (L.Gives · l) := by
  refine bind (hc.expr hl) fun w' l' hw hg => look_bind .ask fun d => ?_
  split
  · exact check_bind .coerce (L.gives_at (L.at_mono hw hl) hg) fun _ => pure hg
  · exact failAt (L.gives_at (L.at_mono hw hl) hg) rfl

theorem callOf {m : MethodId} {callee : ExprId} {args : List ExprId}
    (h : L.Reads π w e (.binary .call callee (.args args))) (hl : L.Gives w callee l) :
    Obeys L π w (Resolve.callOf calls e l m args) (L.Gives · e) := by
  refine look_bind .ask fun d => ?_
  dsimp only
  split
  · rename_i hlen
    refine bind (mapM (P := fun w => ∀ a ∈ args, L.At w π (.expr a))
      (R := fun w a b => L.Gives w a.1 b)
      (fun hw h a ha => L.at_mono hw (h a ha)) (fun hw => L.gives_mono hw)
      (fun a ha => h.parts _ (by simp [ha]))
      fun a ha _ hargs => argument hc (hargs _ (List.of_mem_zip ha).1)) fun w' args' hw hargs => ?_
    -- each argument stands beside its parameter
    have hgives : List.Forall₂ (L.Gives w') args args' := by
      have := List.forall₂_map_left_iff.2 hargs
      rwa [List.map_fst_zip hlen.ge] at this
    refine bind (replace (h.mono hw).fits rfl
      (.cons (.expr (L.gives_mono hw hl)) (Turns.exprs hgives))
      (by simp [hgives.length_eq]) rfl (by simp))
      fun w2 _ hw2 hh => ask_bind fun s d hs hd => ?_
    exact typed ((h.mono (hw.trans hw2)).open hh rfl rfl)
      (.getD ((L.types hs).methods d (mem_of_fetch hd)))
  · exact failAt h.here rfl

theorem call (h : L.Reads π w e (.binary .call l right)) :
    Obeys L π w (Resolve.call calls e l right) (L.Gives · e) := by
  cases right with
  | args =>
    refine bind (hc.expr (h.parts (.expr l) (by simp))) fun w' l' hw hg =>
      look_bind .ask fun symbol => ?_
    split
    · exact callOf hc (h.mono hw) hg
    · exact failAt (L.gives_at ((h.mono hw).parts (.expr l) (by simp)) hg) rfl
  | none | expr => exact failAt h.here rfl

end

/-! ## Other expressions -/

theorem condition {resolve : ExprId → Pass ExprId} (he : L.At w π (.expr e))
    (h : Obeys L π w (resolve e) (L.Gives · e)) :
    Obeys L π w (Resolve.condition resolve e) (L.Gives · e) :=
  bind h fun _ _ hw hg => check_bind .coerce (L.gives_at (L.at_mono hw he) hg) fun _ => pure hg

theorem conditional {cond : ExprId} (hc : calls.Obey L)
    (h : L.Reads π w e (.conditional cond l r)) :
    Obeys L π w (Resolve.conditional calls e cond l r) (L.Gives · e) := by
  have hcond := h.parts (.expr cond) (by simp)
  refine bind (condition hcond (hc.expr hcond)) fun w1 cond' hw1 hgc =>
    bind (hc.expr ((h.mono hw1).parts (.expr l) (by simp))) fun w2 l' hw2 hgl =>
      bind (hc.expr ((h.mono (hw1.trans hw2)).parts (.expr r) (by simp))) fun w3 r' hw3 hgr => ?_
  replace h := h.mono ((hw1.trans hw2).trans hw3)
  refine bind (replace h.fits rfl (.cons (.expr (L.gives_mono (hw2.trans hw3) hgc))
    (.cons (.expr (L.gives_mono hw3 hgl)) (.cons (.expr hgr) .nil))) rfl rfl (by simp))
      fun w4 _ hw4 hh => ?_
  replace h := h.mono hw4
  replace hgl := L.gives_mono (hw3.trans hw4) hgl
  replace hgr := L.gives_mono hw4 hgr
  exact choice (h.open hh rfl rfl) (L.gives_at (h.parts (.expr r) (by simp)) hgr)
    (L.gives_child h.fits (by simp) hgl) (L.gives_child h.fits (by simp) hgr)

theorem collection (hc : calls.Obey L) (h : L.Reads π w e (.collection items)) :
    Obeys L π w (Resolve.collection calls e items) (L.Gives · e) := by
  have hitems : ∀ item ∈ items, L.At w π (.expr item) :=
    fun item hi => h.parts _ (by simpa using hi)
  refine bind (mapM (P := fun w => ∀ item ∈ items, L.At w π (.expr item)) (R := L.Gives)
    (fun hw h item hi => L.at_mono hw (h item hi)) (fun hw => L.gives_mono hw) hitems
    fun item hi w hw => hc.expr (hw item hi)) fun w' items' hw hg => ?_
  replace h := h.mono hw
  have hitems' := L.at_of_gives hg fun item hi => L.at_mono hw (hitems item hi)
  cases items' with
  | nil => exact failAt h.here rfl
  | cons =>
    refine valueTy_bind fun t ht => commonTy_bind (fun item hi => hitems' item (by simp [hi])) ht
      fun u hu => ?_
    dsimp only
    split
    · exact failAt h.here rfl
    · exact bind (replace h.fits rfl (Turns.exprs hg)
        (by simp [hg.length_eq, List.replicate_succ]) rfl (by simp)) fun _ _ hw' hh =>
          typed ((h.mono hw').open hh rfl rfl) hu

theorem startValue {d : Var} (hc : calls.Obey L) (hd : L.FitsVar w v d)
    (hp : ∀ y ∈ d.parts, L.At w π y) (ht : L.Covers w (.expr d.typeExpr)) :
    Obeys L π w (Resolve.startValue calls v t d.value) fun w' _ => d.value = none ∨
    L.Held w' (.var v) := by
  cases hv : d.value with
  | none => exact pure (.inl rfl)
  | some value =>
    have hvalue := hp (.expr value) (by simp [Var.parts, hv])
    refine bind (hc.expr hvalue) fun w' value' hw hg =>
      check_bind .coerce (L.gives_at (L.at_mono hw hvalue) hg) fun _ => ?_
    refine imp (change fun s q hs hq => ?_) fun _ _ _ => .inr
    obtain ⟨d', hd', rfl⟩ := updateVar_ok.1 hq
    exact L.varValue hs (L.fitsVar_mono hw hd) hv hg (L.covers_mono hw ht) hd'

theorem localVar (hc : calls.Obey L) (he : L.Open π w e) (hv : L.At w π (.var v)) :
    Obeys L π w (Resolve.localVar calls e v) fun w' e' => L.Gives w' e e' ∧
    L.Covers w' (.var v) := by
  refine ask_bind fun s d hs hd => ?_
  obtain ⟨hfits, hparts⟩ := L.var hs hv (fetch_ok.1 hd)
  refine bind (hc.type (hparts _ (by simp [Var.parts]))) fun w1 t hw1 ht =>
    bind (startValue hc (L.fitsVar_mono hw1 hfits) (fun y hy => L.at_mono hw1 (hparts y hy)) ht.2)
      fun w2 _ hw2 hval => bind (Q := fun w' _ => L.Covers w' (.var v)) (change fun s q hs hq => ?_)
        fun w3 _ hw3 hcov => ask_bind fun s n hs hn => ?_
  · obtain ⟨d', hd', rfl⟩ := updateVar_ok.1 hq
    exact L.varTy hs (L.fitsVar_mono (hw1.trans hw2) hfits) ht.1 (L.covers_mono hw2 ht.2) hval hd'
  · have hw := (hw1.trans hw2).trans hw3
    replace he := he.mono hw
    exact then_bind (define (L.line hs he.here (by simp [lines, fetch_ok.1 hn]))
      fun hs ht => L.bindVar hs (L.at_mono hw hv) ht) ((typed he ht.1).imp fun _ _ hw' hg =>
        ⟨hg, L.covers_mono hw' hcov⟩)

/-- The rule for expressions follows the discipline. -/
theorem exprRule (hc : calls.Obey L) (he : L.At w π (.expr e)) :
    Obeys L π w (Resolve.exprRule calls e) (L.Gives · e) := by
  refine ask_at fun s n hs hπ hn => ?_
  replace hn := fetch_ok.1 hn
  have hr : L.Reads π w e n.kind := by
    obtain ⟨hf, hp, hm⟩ := L.node hs he hn
    exact ⟨he, hf, hp, hm⟩
  cases hk : n.kind with
  | literal =>
    -- a literal only gets its type
    obtain ⟨w', hw, hs', hg⟩ := L.recordLiteral hs he hk hn
    exact .of_ok (typed_eq_ok.2 ⟨rfl, n, hn, rfl⟩) hw hs' (SamePlace.refl s).set_program hg
  | name =>
    exact (look_bind .get fun s => resolveName hc finds_lookup he : Obeys L π w _ _) s hs hπ
  | before => exact before hc hs hπ hn hk (hk ▸ hr)
  | after => exact after hc (hk ▸ hr) s hs hπ
  | binary op =>
    cases op with
    | dot => exact memberAccess hc hs hπ hn hk (hk ▸ hr)
    | call => exact call hc (hk ▸ hr) s hs hπ
    | _ => exact binary hc (fun _ _ => rfl) (hk ▸ hr) s hs hπ
  | conditional => exact conditional hc (hk ▸ hr) s hs hπ
  | collection => exact collection hc (hk ▸ hr) s hs hπ
  | var v =>
    rw [hk] at hr
    exact .owing (z := .var v) hs hn (by simp [hk]) fun w' hw hh hs' =>
      localVar hc ((hr.mono hw).open hh rfl rfl) ((hr.mono hw).parts (.var v) (by simp)) s hs' hπ

end Obeys

end Ci
