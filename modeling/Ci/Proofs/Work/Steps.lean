-- What work leaves for the work that follows. Every step keeps the constants that
-- wait as they were, and what takes the place of an expression stands inside it or
-- is a new literal.
import Ci.Proofs.Work.Expressions

namespace Ci

open Pass

variable {p q : Program} {n : Nat} {s s1 s2 s' : State} {e e' l : ExprId} {D : Set Node}
  {x y : Node} {m m' : ExprNode} {value value' : Option ExprId}

/-! ## Single changes -/

theorem Program.Same.setExpr (h : p.Same q y) (hne : y ≠ .expr e) :
    p.Same { q with exprs := q.exprs.set e m } y := by
  cases y with
  | expr =>
    intro n hn
    exact (Arena.get?_set_of_ne fun he => hne (by rw [he])).trans (h n hn)
  | _ => exact h

/-- The expression was there at the start, and does not belong to a constant that waits. -/
structure Free (p : Program) (s : State) (e : ExprId) : Prop where
  node : ∃ m, p.exprs.get? e = some m
  apart : .expr e ∉ p.waiting s.program

theorem Fit.free (h : Fit p s x) (he : .expr e ∈ p.region x) (hm : p.exprs.get? e = some m) :
    Free p s e := ⟨⟨m, hm⟩, h.not_waiting he⟩

theorem Free.step (h : Free p s e) (hc : s.program.Changes D s'.program) : Free p s' e :=
  ⟨h.node, fun hw => h.apart (Program.waiting_subset hc hw)⟩

@[simp] theorem Program.waiting_put : p.waiting (s.put e m).program = p.waiting s.program := rfl

theorem Free.put (h : Free p s e) : Free p (s.put l m) e := ⟨h.node, h.apart⟩

theorem Free.still (h : Free p s e) (hm : s.program.exprs.get? e = some m)
    (hc : Moves (p.waiting s.program) s s') : s'.program.exprs.get? e = some m :=
  hc.program.same h.apart m hm

theorem Inside.put (h : Inside D s.program x) (hm : s.program.exprs.get? e = some m)
    (hl : m.kind.isLiteral = false) : Inside D (s.put e m').program x := by
  refine h.imp_right fun ⟨l, hx, v, line, hv⟩ => ⟨l, hx, v, line, ?_⟩
  have hne : e ≠ l := by
    rintro rfl
    obtain rfl := hv.some_unique hm
    simp at hl
  exact (get?_put_of_ne hne).trans hv

theorem Inside.later {D' : Set Node} (h : Inside D s.program x) (hm : Moves D' s s') :
    Inside D s'.program x :=
  h.imp_right fun ⟨l, hx, hl⟩ => ⟨l, hx, hm.program.typedLiteral hl⟩

namespace Ready

theorem put (h : Ready p s) (he : Free p s e) : Ready p (s.put e m) := by
  refine ⟨fun e' hp hs' => ?_, h.bound, fun y hy => ?_⟩
  · have hne : e ≠ e' := by
      rintro rfl
      obtain ⟨m0, hm0⟩ := he.node
      exact absurd (Arena.lt_size_of_get? hm0) (Nat.not_lt.2 hp)
    obtain ⟨v, line, hv⟩ := h.added e' hp (by simpa [State.put] using hs')
    exact ⟨v, line, (get?_put_of_ne hne).trans hv⟩
  · exact (h.waiting y hy).setExpr fun hye => he.apart (hye ▸ hy)

theorem grow (h : Ready p s) {line : UInt32} {v : Literal} : Ready p (s.grow line v) := by
  have hc : s.program.Changes ∅ (s.grow line v).program := .addTyped
  refine ⟨fun e' hp hs' => ?_, h.bound, fun y hy => ?_⟩
  · rcases Nat.lt_or_ge e'.slot s.program.exprs.size with hs | hs
    · exact hc.typedLiteral (h.added e' hp hs)
    · exact hc.added e' hs hs'
  · exact (h.waiting y hy).trans (hc.same (Set.notMem_empty y))

theorem setVar (h : Ready p s) {v : VarId} {d : Var} (hv : .var v ∉ p.waiting s.program) :
    Ready p (s.setVar v d) := by
  refine ⟨h.added, h.bound, fun y hy => ?_⟩
  have hsame := h.waiting y hy
  cases y with
  | var v' =>
    have hne : v ≠ v' := by
      rintro rfl
      exact hv hy
    exact (Arena.get?_set_of_ne hne).trans hsame
  | _ => exact hsame

/-- A variable gets a name. -/
theorem define (h : Ready p s) {i : ScopeId} {name : String} {v : VarId} {T : ScopeTable}
    (hd : s.table.define? i name (.var v) = .ok (some T)) : Ready p { s with table := T } := by
  refine ⟨h.added, fun j c name' k hj hb => ?_, h.waiting⟩
  obtain ⟨c0, hc0, -, rfl⟩ := ScopeTable.define?_ok hd
  by_cases hij : i.slot = j
  · subst hij
    obtain rfl := (ScopeTable.getElem?_set_self hc0).some_unique hj
    rcases List.mem_cons.1 hb with hb | hb
    · cases (Prod.ext_iff.1 hb).2
    · exact h.bound i.slot c0 name' k hc0 hb
  · exact h.bound j c name' k ((ScopeTable.getElem?_set_of_ne hij).symm.trans hj) hb

theorem ending {V : Program → Prop} {parts : List ExprId} {f : Pass ExprId} (h : Ready p s)
    (he : Free p s e) (hend : Ending V e parts s f e' s') : Ready p s' := by
  cases hend with
  | typed => exact h.put he
  | folded => exact h.grow
  | part => exact h

end Ready

/-! ## Ends of operators -/

namespace Resolve

/-- Whatever the operator, its end is that of an operator with one operand. -/
theorem settles_beforeEnd {inner : ExprId} {op : PrefixOp} :
    Settles (Views s.program [inner]) e [] s (beforeEnd e inner op) := by
  cases op with
  | increment => exact Settles.steppedBefore
  | decrement => exact Settles.steppedBefore
  | minus => exact Settles.negation
  | tilde => exact Settles.bitComplement
  | not => exact Settles.logicalNot
  | new => exact Settles.absurd .failAt
  | less => exact Settles.absurd .failAt
  | lessOrEqual => exact Settles.absurd .failAt

theorem settles_afterEnd {inner : ExprId} :
    Settles (Views s.program [inner]) e [] s (afterEnd e inner) := Settles.steppedAfter

end Resolve

/-! ## What a step leaves -/

theorem Reached.ready {found : Symbol} (h : Reached p n s found s') (hr : Ready p s) :
    Ready p s' := by
  cases h with
  | const run => exact run.ready
  | other => exact hr

theorem Reached.free {found : Symbol} (h : Reached p n s found s') (he : Free p s e) :
    Free p s' e := by
  cases h with
  | const run => exact he.step run.moves.program
  | other => exact he

namespace Named

variable {look : Resolve.Look} {scope : ScopeId} {text : String}

section

variable (h : Named p n s look scope e m text e' s')

include h

theorem ready (hr : Ready p s) (he : Free p s e) : Ready p s' := by
  cases h with
  | kept _ reached =>
    exact (reached.ready (hr.put he)).put (reached.free he.put)
  | inlined _ run => exact run.ready.grow

theorem free (hl : Free p s l) : Free p s' l := by
  cases h with
  | kept _ reached => exact (reached.free hl.put).put
  | inlined _ run => exact ⟨hl.node, (hl.put.step run.moves.program).apart⟩

/-- What takes the place of a name is the name or a literal. -/
theorem ends : e' = e ∨ s'.program.TypedLiteral e' := by
  cases h with
  | kept => exact .inl rfl
  | @inlined _ _ v _ _ _ _ _ _ room =>
    exact .inr ⟨v, m.line, Arena.get?_next_push room⟩

end

end Named

namespace Accessed

variable {member r : ExprId}

theorem ready (h : Accessed e m member s r e' s') (hr : Ready p s) (he : Free p s e) :
    Ready p s' := by
  cases h with
  | kept => exact hr.put he
  | folded => exact hr

theorem ends (h : Accessed e m member s r e' s')
    (hr : r = member ∨ s.program.TypedLiteral r) : e' = e ∨ s'.program.TypedLiteral e' := by
  cases h with
  | kept => exact .inl rfl
  | folded ne => exact .inr (hr.resolve_left ne)

end Accessed

namespace OfValue

variable {left member : ExprId} {mm : ExprNode} {text : String} {ty : Ty}

theorem ready (h : OfValue p n e m left member mm text s ty e' s') (hr : Ready p s)
    (he : Free p s e) (hm : Free p s member) : Ready p s' := by
  cases h with
  | literalLength => exact hr.grow
  | stringLength => exact (hr.put hm).put he.put
  | arrayLength => exact hr.grow
  | ofClass _ _ named accessed =>
    exact accessed.ready (named.ready hr hm) (named.free he)

theorem ends (h : OfValue p n e m left member mm text s ty e' s') :
    e' = e ∨ s'.program.TypedLiteral e' := by
  cases h with
  | literalLength _ _ _ room => exact .inr ⟨_, m.line, Arena.get?_next_push room⟩
  | stringLength => exact .inl rfl
  | arrayLength _ room => exact .inr ⟨_, m.line, Arena.get?_next_push room⟩
  | ofClass _ _ named accessed => exact accessed.ends named.ends

end OfValue

theorem Started.ready {t : Ty} (h : Started p n t s value value' s') (hr : Ready p s) :
    Ready p s' := by
  cases h with
  | none => exact hr
  | some run => exact run.ready

theorem Started.waiting_subset {t : Ty}
    (h : Started p n t s value value' s') : p.waiting s'.program ⊆ p.waiting s.program := by
  cases h with
  | none => exact subset_rfl
  | some run => exact Program.waiting_subset run.moves.program

namespace RanList

variable {ι : Type} {depth : State → Nat} {exprOf : ι → ExprId} {C : ι → ExprId → State → Prop}
  {xs : List ι} {es : List ExprId}

section

variable (h : RanList p depth exprOf C s xs es s')

include h

theorem ready (hr : Ready p s) : Ready p s' := by
  induction h with
  | nil => exact hr
  | cons first _ _ ih => exact ih first.ready

theorem waiting_subset : p.waiting s'.program ⊆ p.waiting s.program := by
  induction h with
  | nil => exact subset_rfl
  | cons first _ _ ih => exact ih.trans (Program.waiting_subset first.moves.program)

theorem free (he : Free p s e) : Free p s' e :=
  ⟨he.node, fun hw => he.apart (h.waiting_subset hw)⟩

theorem shift (hD : ∀ i ∈ xs, p.region (.expr (exprOf i)) ⊆ D) (hw : p.waiting s.program ⊆ D) :
    Shift D s s' := by
  induction h with
  | nil => exact .refl _
  | cons first _ _ ih =>
    refine (first.moves.shift.mono (Set.union_subset (hD _ (by simp)) hw)).trans ?_
    exact ih (fun i hi => hD i (by simp [hi]))
      ((Program.waiting_subset first.moves.program).trans hw)

/-- What is in none of the regions and does not wait is left as it is. -/
theorem same (hx : ∀ i ∈ xs, x ∉ p.region (.expr (exprOf i))) (hw : x ∉ p.waiting s.program) :
    s.program.Same s'.program x := by
  have hshift := h.shift (D := {y | y ≠ x}) (fun i hi y hy hyx => hx i hi (hyx ▸ hy))
    fun y hy hyx => hw (hyx ▸ hy)
  exact hshift.program.same fun hne => hne rfl

theorem length : es.length = xs.length := by
  induction h with
  | nil => rfl
  | cons _ _ _ ih => simp [ih]

end

theorem of_mapM {f : ι → Pass ExprId}
    (hstep : ∀ i ∈ xs, ∀ s a s', Fit p s (.expr (exprOf i)) → f i s = .ok a s' →
      Ran p (depth s) s (exprOf i) a s' ∧ C i a s')
    (hfit : ∀ i ∈ xs, Fit p s (.expr (exprOf i)))
    (hdis : xs.Pairwise fun i j =>
      Disjoint (p.region (.expr (exprOf i))) (p.region (.expr (exprOf j))))
    (run : xs.mapM f s = .ok es s') : RanList p depth exprOf C s xs es s' := by
  induction xs generalizing s es with
  | nil =>
    obtain ⟨rfl, rfl⟩ := mapM_nil_eq_ok.1 run
    exact .nil _
  | cons i _ ih =>
    obtain ⟨a, s1, as, hi, hxs, rfl⟩ := mapM_cons_eq_ok.1 run
    obtain ⟨hran, hC⟩ := hstep i (by simp) s a s1 (hfit i (by simp)) hi
    obtain ⟨hd, hdis⟩ := List.pairwise_cons.1 hdis
    refine .cons hran hC (ih (fun j hj => hstep j (by simp [hj])) (fun j hj => ?_) hdis hxs)
    have hj' := hfit j (by simp [hj])
    exact hj'.step hran.moves.program hran.ready (Disjoint.sup_left (hd j hj) hj'.apart.symm)

end RanList

/-! ## Expressions -/

/-- The parts of an expression have been there from the start. -/
theorem Fit.child (h : Fit p s (.expr e)) (hm : p.exprs.get? e = some m) {c : ExprId}
    {mc : ExprNode} (hc : c ∈ m.kind.children) (hn : p.exprs.get? c = some mc) : Free p s c := by
  exact h.free (Program.part_mem_region (Program.child_mem_parts hm hc)) hn

namespace Step

theorem ready (h : Step p n s e e' s') (hfit : Fit p s (.expr e)) : Ready p s' := by
  have hfree : ∀ {m}, p.exprs.get? e = some m → Free p s e := hfit.free Program.mem_region_self
  cases h with
  | @literal _ v node kind =>
    rcases hfit.expr_cases node with hm | ⟨w, line, hw⟩
    · exact hfit.ready.put (hfree hm)
    · -- a literal that has been added has its type already
      obtain rfl := hw.some_unique node
      obtain rfl : w = v := by simpa using kind
      rw [put_get? node]
      exact hfit.ready
  | name node _ named => exact named.ready hfit.ready (hfree node)
  | before node _ operand _ ends =>
    have he := (hfree node).step operand.moves.program
    exact (operand.ready.put he).ending he.put (Resolve.settles_beforeEnd _ _ ends)
  | newArray node kind inode _ element count =>
    have hi := hfit.child node (by simp [kind]) inode
    have hstep : ∀ {l}, Free p s l → Free p _ l := fun hl =>
      (hl.step element.moves.program).step count.moves.program
    exact (count.ready.put (hstep hi)).put (hstep (hfree node)).put
  | newObject node _ _ _ object =>
    exact object.ready.put ((hfree node).step object.moves.program)
  | after node _ _ operand _ ends =>
    have he := (hfree node).step operand.moves.program
    exact (operand.ready.put he).ending he.put (Resolve.settles_afterEnd _ _ ends)
  | ownerMember node kind mnode _ lnode _ _ _ named accessed =>
    have hl := hfit.child node (by simp [kind]) lnode
    have hm := hfit.child node (by simp [kind]) mnode
    exact accessed.ready (named.ready (hfit.ready.put hl) hm.put) (named.free (hfree node).put)
  | valueMember node kind mnode _ value _ _ _ ofValue =>
    have hm := hfit.child node (by simp [kind]) mnode
    have he := (hfree node).step value.moves.program
    exact ofValue.ready (value.ready.put he) he.put (hm.step value.moves.program).put
  | call node _ function _ _ _ arguments =>
    exact (arguments.ready function.ready).put
      (arguments.free ((hfree node).step function.moves.program))
  | binary node _ _ _ first second _ ends =>
    have he := ((hfree node).step first.moves.program).step second.moves.program
    exact (second.ready.put he).ending he.put (Settles.operation _ _ ends)
  | conditional node _ condition _ first second _ ends =>
    have he := (((hfree node).step condition.moves.program).step first.moves.program).step
      second.moves.program
    exact (second.ready.put he).ending he.put (Settles.choice _ _ ends)
  | collection node _ list =>
    exact (list.ready hfit.ready).put (list.free (hfree node))
  | @var m v _ _ _ _ _ s2 node kind _ type started _ _ binds =>
    have hsub := started.waiting_subset.trans (Program.waiting_subset type.moves.program)
    have hv : .var v ∉ p.waiting s2.program := fun hw =>
      hfit.not_waiting (Program.part_mem_region (by simp [Program.parts_expr node, kind])) (hsub hw)
    have he : .expr e ∉ p.waiting s2.program := fun hw => (hfree node).apart (hsub hw)
    exact (((started.ready type.ready).setVar hv).define binds).put ⟨⟨m, node⟩, he⟩

theorem inside (h : Step p n s e e' s') : Inside (p.region (.expr e)) s'.program (.expr e') := by
  have hends : e' = e ∨ s'.program.TypedLiteral e' →
      Inside (p.region (.expr e)) s'.program (.expr e') := by
    rintro (rfl | hl)
    · exact .inl Program.mem_region_self
    · exact .inr ⟨e', rfl, hl⟩
  -- a part may take the place of the whole
  have hpart : ∀ {m : ExprNode} {c}, p.exprs.get? e = some m → c ∈ m.kind.children →
      Inside (p.region (.expr c)) s'.program (.expr e') →
      Inside (p.region (.expr e)) s'.program (.expr e') := by
    intro m c hm hc hin
    exact hin.imp_left fun hin => Program.region_subset (Program.child_mem_parts hm hc) hin
  cases h with
  | literal => exact hends (.inl rfl)
  | name _ _ named => exact hends named.ends
  | before _ _ _ _ ends =>
    cases Resolve.settles_beforeEnd _ _ ends with
    | typed => exact hends (.inl rfl)
    | folded line value room => exact hends (.inr ⟨value, line, Arena.get?_next_push room⟩)
    | part _ mem => simp at mem
  | newArray => exact hends (.inl rfl)
  | newObject => exact hends (.inl rfl)
  | after _ _ _ _ _ ends =>
    cases Resolve.settles_afterEnd _ _ ends with
    | typed => exact hends (.inl rfl)
    | folded line value room => exact hends (.inr ⟨value, line, Arena.get?_next_push room⟩)
    | part _ mem => simp at mem
  | ownerMember _ _ _ _ _ _ _ _ named accessed =>
    exact hends (accessed.ends named.ends)
  | valueMember _ _ _ _ _ _ _ _ ofValue => exact hends ofValue.ends
  | call => exact hends (.inl rfl)
  | binary node kind _ _ _ second still ends =>
    cases Settles.operation _ _ ends with
    | typed => exact hends (.inl rfl)
    | folded line value room => exact hends (.inr ⟨value, line, Arena.get?_next_push room⟩)
    | part _ mem =>
      obtain rfl := List.mem_singleton.1 mem
      exact hpart node (by simp [kind]) (second.inside.put still (by simp [kind]))
  | conditional node kind _ _ first second still ends =>
    cases Settles.choice _ _ ends with
    | typed => exact hends (.inl rfl)
    | folded line value room => exact hends (.inr ⟨value, line, Arena.get?_next_push room⟩)
    | part _ mem =>
      simp only [List.mem_cons, List.not_mem_nil, or_false] at mem
      rcases mem with rfl | rfl
      · exact hpart node (by simp [kind])
          ((first.inside.later second.moves).put still (by simp [kind]))
      · exact hpart node (by simp [kind]) (second.inside.put still (by simp [kind]))
  | collection => exact hends (.inl rfl)
  | var => exact hends (.inl rfl)

end Step

end Ci
