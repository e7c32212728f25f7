-- Questions to a program. They have answers, unless a class derives from itself or a
-- handle leads nowhere that may.
import Ci.Proofs.Safety.Handles
import Ci.Proofs.Work.Later

namespace Ci

variable {V : Node → Prop} {n : Nat} {ancestor : ClassId} {seen : List ClassId} {height : Nat → Nat}
  {admits : ScopeKind → Bool}

/-- What can still be wrong with the handles of a program: none is left, or a class derives from
itself. -/
def Program.Excuses (p : Program) : Broken → Prop
  | .dangling => False
  | .cyclic => p.CircularBases
  | .full => UInt32.size ≤ p.exprs.size

/-- What can be wrong where handles may lead nowhere. -/
def Ranking.Excuses (ρ : Ranking) (p : Program) (b : Broken) : Prop :=
  p.Excuses b ∨ ρ.loose ∧ b = .dangling

/-- A question has an answer of a kind, as far as handles go. -/
structure Answers {α : Type} (ρ : Ranking) (p : Program) (q : Query α) (P : α → Prop) : Prop where
  ok : ∀ a, q = .ok a → P a
  error : ∀ b, q = .error b → ρ.Excuses p b

namespace Answers

variable {α β : Type} {ρ : Ranking} {p : Program} {q : Query α} {P Q : α → Prop} {R : β → Prop}

theorem of_ok {a : α} (hq : q = .ok a) (ha : P a) : Answers ρ p q P := by
  subst hq
  refine ⟨fun a' h => ?_, fun b h => by cases h⟩
  cases h
  exact ha

theorem pure {a : α} (ha : P a) : Answers ρ p (Pure.pure a) P := of_ok rfl ha

theorem bind {f : α → Query β} (h : Answers ρ p q P) (hf : ∀ a, P a → Answers ρ p (f a) R) :
    Answers ρ p (q >>= f) R := by
  cases q with
  | ok a => exact hf a (h.ok a rfl)
  | error b =>
    refine ⟨fun _ ha => (nomatch ha), fun b' hb => ?_⟩
    cases hb
    exact h.error b rfl

theorem of_error {b : Broken} (hb : ρ.Excuses p b) : Answers ρ p (.error b : Query α) P := by
  constructor
  · intro a h
    cases h
  · intro b' h
    cases h
    exact hb

theorem fetch {k : Kind} {a : Arena k α} {i : Handle k} (hi : ρ.loose ∨ i.slot < a.size) :
    Answers ρ p (a.fetch i) fun x => a.get? i = some x := by
  cases hx : a.get? i with
  | some => exact of_ok (Arena.fetch_ok.2 hx) rfl
  | none =>
    have hloose : ρ.loose := hi.resolve_right fun hlt => by
      obtain ⟨x, hx'⟩ := Arena.exists_get? hlt
      exact nomatch hx.symm.trans hx'
    rw [Arena.fetch, hx]
    exact of_error (.inr ⟨hloose, rfl⟩)

theorem update {k : Kind} {a : Arena k α} {i : Handle k} {f : α → α}
    (hi : ρ.loose ∨ i.slot < a.size) :
    Answers ρ p (a.update i f) fun b => ∃ x, a.get? i = some x ∧ b = a.set i (f x) :=
  (fetch hi).bind fun x hx => pure ⟨x, hx, rfl⟩

theorem anyM {g : α → Query Bool} {xs : List α} (h : ∀ x ∈ xs, Answers ρ p (g x) fun _ => True) :
    Answers ρ p (xs.anyM g) fun _ => True := by
  induction xs with
  | nil => exact pure trivial
  | cons x _ ih =>
    simp only [List.anyM]
    refine (h x List.mem_cons_self).bind fun b _ => ?_
    cases b with
    | true => exact pure trivial
    | false => exact ih fun y hy => h y (List.mem_cons_of_mem x hy)

theorem allM {g : α → Query Bool} {xs : List α} (h : ∀ x ∈ xs, Answers ρ p (g x) fun _ => True) :
    Answers ρ p (xs.allM g) fun _ => True := by
  induction xs with
  | nil => exact pure trivial
  | cons x _ ih =>
    simp only [List.allM]
    refine (h x List.mem_cons_self).bind fun b _ => ?_
    cases b with
    | false => exact pure trivial
    | true => exact ih fun y hy => h y (List.mem_cons_of_mem x hy)

end Answers

namespace Program

variable {p : Program} {ρ : Ranking} {e : ExprId} {c : ClassId} {t u : Ty}

/-! ## Types -/

theorem Refers.ty_of_expr {n : ExprNode} (h : p.Refers V)
    (hn : p.exprs.get? e = some n) : ∀ w ∈ (n.ty.getD .void).refs, V w := by
  intro w hw
  refine h.exprs n (Arena.mem_toList_of_get? hn) w (List.mem_append_right _ ?_)
  cases ht : n.ty with
  | none => simp [ht, Ty.refs] at hw
  | some => simpa [ht, Ty.recordedRefs] using hw

theorem answers_valueTy (h : ρ.Covers p) (he : ρ.Sees p (.expr e)) :
    Answers ρ p (p.valueTy e) fun t => ρ.SeesAll p t.refs :=
  ((Answers.fetch he).bind fun n hn => .pure ⟨n, hn, rfl⟩ :
    Answers ρ p (p.typeOf e) fun t => ∃ n, p.exprs.get? e = some n ∧ t = n.ty).bind <| by
      rintro _ ⟨n, hn, rfl⟩
      exact .pure (h.ty_of_expr hn)

theorem answers_literal? (he : ρ.Sees p (.expr e)) : Answers ρ p (p.literal? e) fun _ => True := by
  refine (Answers.fetch he).bind fun n _ => ?_
  split <;> exact .pure trivial

theorem answers_describe (ht : ρ.SeesAll p t.refs) : Answers ρ p (p.describe t) fun _ => True := by
  induction t with
  | integer width => cases width <;> exact .pure trivial
  | floating width => cases width <;> exact .pure trivial
  | arrayPointer _ _ ih => exact (ih ht).bind fun _ _ => .pure trivial
  | arrayStorage _ _ ih => exact (ih ht).bind fun _ _ => .pure trivial
  | classPointer c =>
    exact (Answers.fetch (ht (.classDecl c) (by simp [Ty.refs]))).bind fun _ _ => .pure trivial
  | classStorage c =>
    exact (Answers.fetch (ht (.classDecl c) (by simp [Ty.refs]))).bind fun _ _ => .pure trivial
  | enumeration d =>
    exact (Answers.fetch (ht (.enumDecl d) (by simp [Ty.refs]))).bind fun _ _ => .pure trivial
  | _ => exact .pure trivial

theorem Refers.base {b : ClassId} (h : p.Refers V) (hb : p.HasBase c b) : V (.classDecl b) := by
  obtain ⟨d, hd, hb⟩ := hb
  exact h.classes d (Arena.mem_toList_of_get? hd) _ (by simp [ClassDecl.refs, hb])

/-- A class is a class looked for, or has no base, or has one to look at. -/
theorem answers_climbs_succ (hc : ρ.Sees p (.classDecl c))
    (hb : ∀ b, p.HasBase c b → Answers ρ p (p.climbs ancestor n b) fun _ => True) :
    Answers ρ p (p.climbs ancestor (n + 1) c) fun _ => True := by
  rw [climbs]
  split
  · exact .pure trivial
  refine (Answers.fetch hc).bind fun d hd => ?_
  cases hbase : d.base with
  | none => exact .pure trivial
  | some b => exact hb b ⟨d, hd, hbase⟩

theorem answers_climbs_circular (h : ρ.Covers p)
    (hcirc : p.CircularBases) (hc : ρ.Sees p (.classDecl c)) :
    Answers ρ p (p.climbs ancestor n c) fun _ => True := by
  induction n generalizing c with
  | zero => exact .of_error (.inl hcirc)
  | succ _ ih => exact answers_climbs_succ hc fun b hb => ih (h.base hb)

/-- Classes that are there and of which none comes twice are not more than all classes. -/
theorem length_le_size (hn : seen.Nodup)
    (hs : ∀ b ∈ seen, p.Has (.classDecl b)) : seen.length ≤ p.classes.size := by
  have hnodup : (seen.map Handle.slot).Nodup := hn.map fun _ _ hb => Handle.slot_inj.1 hb
  have hsub : seen.map Handle.slot ⊆ List.range p.classes.size := by
    intro i hi
    obtain ⟨b, hb, rfl⟩ := List.mem_map.1 hi
    exact List.mem_range.2 (hs b hb)
  simpa using (hnodup.subperm hsub).length_le

/-- The way from a class to its bases. No class on it comes twice, so the way is no longer than
the list of classes. -/
theorem answers_climbs (h : ρ.Covers p)
    (hcirc : ¬ p.CircularBases) (hc : ρ.Sees p (.classDecl c)) (hn : seen.Nodup)
    (hs : ∀ b ∈ seen, p.Has (.classDecl b)) (hway : ∀ b ∈ seen, Relation.TransGen p.HasBase b c)
    (hsize : p.classes.size < n + seen.length) :
    Answers ρ p (p.climbs ancestor n c) fun _ => True := by
  induction n generalizing c seen with
  | zero => exact absurd (length_le_size hn hs) (by omega)
  | succ _ ih =>
    refine answers_climbs_succ hc fun b hbase => ?_
    have hmem : c ∉ seen := fun hmem => hcirc ⟨c, hway c hmem⟩
    have hnext : ∀ x ∈ c :: seen, p.Has (.classDecl x) ∧ Relation.TransGen p.HasBase x b := by
      intro x hx
      rcases List.mem_cons.1 hx with rfl | hx
      · refine ⟨?_, .single hbase⟩
        obtain ⟨d, hd, -⟩ := hbase
        exact Arena.lt_size_of_get? hd
      · exact ⟨hs x hx, (hway x hx).tail hbase⟩
    exact ih (h.base hbase) (List.nodup_cons.2 ⟨hmem, hn⟩) (fun x hx => (hnext x hx).1)
      (fun x hx => (hnext x hx).2) (by simp only [List.length_cons]; omega)

theorem answers_derivesFrom (h : ρ.Covers p) (hc : ρ.Sees p (.classDecl c)) :
    Answers ρ p (p.derivesFrom c ancestor) fun _ => True := by
  by_cases hcirc : p.CircularBases
  · exact answers_climbs_circular h hcirc hc
  · exact answers_climbs h hcirc hc List.nodup_nil (by simp) (by simp) (by simp)

theorem answers_assignable (h : ρ.Covers p) (ht : ρ.SeesAll p t.refs) (hu : ρ.SeesAll p u.refs) :
    Answers ρ p (p.assignable t u) fun _ => True := by
  fun_induction assignable p t u <;> try exact .of_ok rfl trivial
  · rename_i c w d w' _
    exact (answers_derivesFrom h (ht (.classDecl c) (by simp [Ty.refs]))).bind fun _ _ =>
      .pure trivial
  · rename_i c d _ _
    exact answers_derivesFrom h (ht (.classDecl c) (by simp [Ty.refs]))
  · rename_i ih
    exact ih ht hu

/-! ## The parts of an expression -/

theorem Refers.kind {n : ExprNode} {w : Node} (h : p.Refers V)
    (hn : p.exprs.get? e = some n) (hw : w ∈ n.kind.refs) : V w :=
  h.exprs n (Arena.mem_toList_of_get? hn) w (List.mem_append_left _ hw)

theorem Refers.child {n : ExprNode} {i : ExprId} (h : p.Refers V) (hn : p.exprs.get? e = some n)
    (hi : i ∈ n.kind.children) : V (.expr i) := by
  refine h.kind hn (Expr.mem_refs_of_mem_parts ?_)
  cases hk : n.kind <;> simp_all

theorem answers_symbolWithin (h : ρ.Covers p) (hf : ρ.Fits p) (he : ρ.Sees p (.expr e))
    (hn : ρ.rank (.expr e) < n) :
    Answers ρ p (p.symbolWithin n e) fun symbol => ∀ x, symbol = some x → ρ.SeesAll p x.refs := by
  induction n generalizing e with
  | zero => omega
  | succ n ih =>
    refine (Answers.fetch he).bind fun node hnode => ?_
    split
    · rename_i symbol hk
      refine .pure fun x hx w hw => h.kind hnode ?_
      subst hx
      simpa [hk, Expr.refs] using hw
    · rename_i member hk
      have hmem : member ∈ node.kind.children := by simp [hk]
      have hlt := (hf.expr e node hnode).1 member hmem
      exact ih (h.child hnode hmem) (by omega)
    · exact .pure (by simp)

theorem answers_actsWithin (h : ρ.Covers p) (hf : ρ.Fits p) (he : ρ.Sees p (.expr e))
    (hn : ρ.rank (.expr e) < n) : Answers ρ p (p.actsWithin n e) fun _ => True := by
  induction n generalizing e with
  | zero => omega
  | succ _ ih =>
    refine (Answers.fetch he).bind fun node hnode => ?_
    dsimp only
    split
    · exact .pure trivial
    · refine .anyM fun i hi => ih (h.child hnode hi) ?_
      have := (hf.expr e node hnode).1 i hi
      omega

theorem rank_lt_depth (hρ : ρ.exprs ≤ p.exprs.size) (e : ExprId) : ρ.rank (.expr e) < p.exprDepth :=
  Nat.lt_succ_of_le ((ρ.expr_le e).trans hρ)

variable (h : ρ.Covers p) (hf : ρ.Fits p) (hρ : ρ.exprs ≤ p.exprs.size)
include h hf hρ

section

variable (he : ρ.Sees p (.expr e))

include he

theorem answers_symbolOf :
    Answers ρ p (p.symbolOf e) fun symbol => ∀ x, symbol = some x → ρ.SeesAll p x.refs :=
  answers_symbolWithin h hf he (rank_lt_depth hρ e)

theorem answers_isVariable : Answers ρ p (p.isVariable e) fun _ => True := by
  refine (answers_symbolOf h hf hρ he).bind fun symbol _ => ?_
  split <;> exact .pure trivial

theorem answers_isEnumerator : Answers ρ p (p.isEnumerator e) fun _ => True := by
  refine (answers_symbolOf h hf hρ he).bind fun symbol hs => ?_
  split
  · rename_i k
    have hk := hs _ rfl (.const k) (by simp [Symbol.refs])
    exact (Answers.fetch hk).bind fun _ _ => .pure trivial
  · exact .pure trivial

theorem answers_isPlace : Answers ρ p (p.isPlace e) fun _ => True := by
  refine (Answers.fetch he).bind fun n hn => ?_
  split
  · exact answers_isVariable h hf hρ he
  · exact answers_isVariable h hf hρ he
  · rename_i left right hk
    have hleft : left ∈ n.kind.children := by simp [hk]
    exact (answers_valueTy h (h.child hn hleft)).bind fun _ _ => .pure trivial
  · exact .pure trivial

theorem answers_hasEffects : Answers ρ p (p.hasEffects e) fun _ => True :=
  answers_actsWithin h hf he (rank_lt_depth hρ e)

theorem answers_constantWithin (hn : ρ.rank (.expr e) < n) :
    Answers ρ p (p.constantWithin n e) fun _ => True := by
  induction n generalizing e with
  | zero => omega
  | succ n ih =>
    refine (Answers.fetch he).bind fun node hnode => ?_
    split
    · exact .pure trivial
    · rename_i items hk
      refine .allM fun i hi => ?_
      have hi : i ∈ node.kind.children := by simpa [hk] using hi
      have := (hf.expr e node hnode).1 i hi
      exact ih (h.child hnode hi) (by omega)
    · exact answers_isEnumerator h hf hρ he
    · exact answers_isEnumerator h hf hρ he
    · exact .pure trivial

theorem answers_isConstant : Answers ρ p (p.isConstant e) fun _ => True :=
  answers_constantWithin h hf hρ he (rank_lt_depth hρ e)

end

end Program

/-! ## Scopes -/

namespace ScopeTable

variable {t : ScopeTable} {p : Program}

/-- The parents of scopes are there, and following them comes to an end. -/
def Nested (t : ScopeTable) : Prop :=
  ∃ height : Nat → Nat, ∀ (i : Nat) c j, t.scopes[i]? = some c → c.parent = some j →
    j.slot < t.scopes.size ∧ height j.slot < height i

/-- The scopes that are no higher than a scope. -/
def lower (t : ScopeTable) (height : Nat → Nat) (i : Nat) : Finset Nat :=
  (Finset.range t.scopes.size).filter fun j => height j ≤ height i

theorem card_lower_lt {i j : Nat} (hi : i < t.scopes.size)
    (hj : height j < height i) : (t.lower height j).card < (t.lower height i).card := by
  refine Finset.card_lt_card ⟨fun x hx => ?_, fun hsub => ?_⟩
  · simp only [lower, Finset.mem_filter, Finset.mem_range] at hx ⊢
    omega
  · have hself : i ∈ t.lower height i := by simp [lower, hi]
    have := hsub hself
    simp only [lower, Finset.mem_filter] at this
    omega

/-- A search meets no scope twice. -/
theorem answers_search {name : String} {i : Option ScopeId}
    (ht : ∀ (i : Nat) c j, t.scopes[i]? = some c → c.parent = some j →
      j.slot < t.scopes.size ∧ height j.slot < height i)
    (hi : ∀ j, i = some j → j.slot < t.scopes.size ∧ (t.lower height j.slot).card ≤ n) :
    ∃ symbol, t.search admits name n i = .ok symbol := by
  induction n generalizing i with
  | zero =>
    cases i with
    | none => exact ⟨none, rfl⟩
    | some j =>
      obtain ⟨hj, hcard⟩ := hi j rfl
      have hself : j.slot ∈ t.lower height j.slot := by simp [lower, hj]
      rw [Finset.card_eq_zero.1 (Nat.le_zero.1 hcard)] at hself
      simp at hself
  | succ _ ih =>
    cases i with
    | none => exact ⟨none, rfl⟩
    | some j =>
      obtain ⟨hj, hcard⟩ := hi j rfl
      have hc : t.scopes[j.slot]? = some t.scopes[j.slot] := Array.getElem?_eq_getElem hj
      simp only [search, fetch, hc]
      show ∃ symbol, (if admits t.scopes[j.slot].kind then _ else _ : Query (Option Symbol)) = _
      split
      · cases hfind : t.scopes[j.slot].find? name with
        | some symbol => exact ⟨some symbol, rfl⟩
        | none =>
          refine ih fun k hk => ?_
          obtain ⟨hslot, hlt⟩ := ht j.slot _ k hc hk
          have := card_lower_lt hj hlt
          exact ⟨hslot, by omega⟩
      · exact ⟨none, rfl⟩

theorem Nested.search {name : String} {i : ScopeId} (ht : t.Nested) (hi : i.slot < t.scopes.size) :
    ∃ symbol, t.search admits name t.scopes.size (some i) = .ok symbol := by
  obtain ⟨height, ht⟩ := ht
  refine answers_search ht fun j hj => ?_
  obtain rfl := Option.some.inj hj
  refine ⟨hi, ?_⟩
  calc (t.lower height i.slot).card ≤ (Finset.range t.scopes.size).card := Finset.card_filter_le _ _
    _ = t.scopes.size := Finset.card_range _

end ScopeTable

end Ci
