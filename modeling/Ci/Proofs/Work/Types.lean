-- What the rules for types have done when they end. The brackets and marks of a type
-- are taken off from right to left, what is left is read as a type without brackets,
-- and all the nodes on the way get the type of the whole.
import Ci.Proofs.Typing.Bounds
import Ci.Proofs.Work.Rules

namespace Ci

open Pass Program

variable {p : Program} {n : Nat} {s s1 s2 s' : State} {e e' l : ExprId} {D : Set Node}
  {m : ExprNode}
  {x : Node} {t : Ty} {writable : Bool} {base : ExprId} {es : List ExprId}

/-! ## Bounds -/

/-- An expression has been resolved to an integer. -/
structure RanInt (p : Program) (n : Nat) (s : State) (e e' : ExprId) (v : Int64) (s' : State) : Prop
    extends Ran p n s e e' s' where
  literal : s'.program.literal? e' = .ok (some (.int v))

section

variable (hw : Works p n) (hfit : Fit p s (.expr e))

include hw hfit

theorem Works.constantInt {a : ExprId × Int64}
    (run : Resolve.constantInt (Resolve.callsWithin n) e s = .ok a s') :
    RanInt p n s e a.1 a.2 s' := by
  have hcounts := Resolve.constantInt_eq_ok.1 run
  exact ⟨hw.expr hfit hcounts.run, hcounts.literal⟩

theorem Works.rangeTo {min : Int64} {included : Bool} {a : ExprId × Ty}
    (run : Resolve.rangeTo (Resolve.callsWithin n) min included e s = .ok a s') :
    ∃ bound, RanInt p n s e a.1 bound s' ∧ ¬ Resolve.upperEnd included bound < min ∧
      a.2 = .range ⟨min, Resolve.upperEnd included bound⟩ := by
  obtain ⟨bound, hcounts, hle, hty⟩ := Resolve.rangeTo_eq_ok.1 run
  exact ⟨bound, ⟨hw.expr hfit hcounts.run, hcounts.literal⟩, Int64.not_lt.2 hle, hty⟩

theorem Works.arrayLength {a : ExprId × UInt32}
    (run : Resolve.arrayLength (Resolve.callsWithin n) e s = .ok a s') :
    ∃ v, RanInt p n s e a.1 v s' ∧ ¬ v < 0 ∧ ¬ 2147483647 < v ∧
    a.2 = UInt32.ofNat v.toNatClampNeg := by
  obtain ⟨v, hcounts, hbounds⟩ := Resolve.arrayLength_eq_ok.1 run
  exact ⟨v, ⟨hw.expr hfit hcounts.run, hcounts.literal⟩, hbounds⟩

end

/-! ## Types without brackets -/

/-- A type without brackets and marks has been read. -/
inductive Plain (p : Program) (n : Nat) (s : State) (e : ExprId) (writable : Bool) :
    Ty → State → Prop
  | name {m : ExprNode} {text : String} {found : Symbol} {t : Ty}
      (node : p.exprs.get? e = some m) (kind : m.kind = .name text none)
      (finds : s.table.lookup .program text = .ok (some found))
      (type : found.asType writable = some t) :
      Plain p n s e writable t (s.put e { m with kind := .name text (some found) })
  | string {m ml : ExprNode} {left : ExprId}
      (node : p.exprs.get? e = some m) (kind : m.kind = .binary .call left (.args []))
      (lnode : p.exprs.get? left = some ml) (lkind : ml.kind = .name "string" none) :
      Plain p n s e writable .stringStorage (s.put left { ml with ty := some .stringStorage })
  | storage {m ml : ExprNode} {left : ExprId} {text : String} {c : ClassId}
      (node : p.exprs.get? e = some m) (kind : m.kind = .binary .call left (.args []))
      (lnode : p.exprs.get? left = some ml) (lkind : ml.kind = .name text none)
      (other : text ≠ "string")
      (finds : s.table.lookup .program text = .ok (some (.classDecl c))) :
      Plain p n s e writable (.classStorage c)
        (s.put left ⟨.name text (some (.classDecl c)), ml.line, some (.classStorage c)⟩)
  | range {m : ExprNode} {rel : Relation} {left left' right right' : ExprId} {min bound : Int64}
      {s1 s2 : State}
      (node : p.exprs.get? e = some m) (kind : m.kind = .binary (.order rel) left (.expr right))
      (relation : rel = .less ∨ rel = .lessOrEqual)
      (first : RanInt p n s left left' min s1) (second : RanInt p n s1 right right' bound s2)
      (ordered : ¬ Resolve.upperEnd (rel == .lessOrEqual) bound < min)
      (still : s2.program.exprs.get? e = some m) :
      Plain p n s e writable (.range ⟨min, Resolve.upperEnd (rel == .lessOrEqual) bound⟩)
        (s2.put e { m with kind := .binary (.order rel) left' (.expr right') })
  | rangeFromZero {m : ExprNode} {op : PrefixOp} {inner inner' : ExprId}
    {bound : Int64} {s1 : State} (node : p.exprs.get? e = some m) (kind : m.kind = .before op inner)
      (relation : op = .less ∨ op = .lessOrEqual) (operand : RanInt p n s inner inner' bound s1)
      (ordered : ¬ Resolve.upperEnd (op == .lessOrEqual) bound < 0)
      (still : s1.program.exprs.get? e = some m) :
      Plain p n s e writable (.range ⟨0, Resolve.upperEnd (op == .lessOrEqual) bound⟩)
        (s1.put e { m with kind := .before op inner' })

namespace Works

variable (hp : p.TreeShaped) (hf : Fresh p) (hw : Works p n) (hfit : Fit p s (.expr e))
  (hm : p.exprs.get? e = some m)

include hp hw hfit hm

theorem rangeType {rel : Relation} {r : ExprId}
    (hk : m.kind = .binary (.order rel) l (.expr r)) (hrel : rel = .less ∨ rel = .lessOrEqual)
    (run : Resolve.rangeType (Resolve.callsWithin n) e rel l r s = .ok t s') :
    Plain p n s e writable t s' := by
  have hl : l ∈ m.kind.children := by simp [hk]
  have hr : r ∈ m.kind.children := by simp [hk]
  have hne : l ≠ r := by simpa [hk] using hp.children_nodup hm
  simp only [Resolve.rangeType, bind_eq_ok, replace_eq_ok, pure_eq_ok] at run
  obtain ⟨a, s1, ha, b, s2, hb, _, _, ⟨m1, hm1, rfl⟩, rfl, rfl⟩ := run
  have hfirst := hw.constantInt (hfit.part_expr hp hm hl) ha
  obtain ⟨bound, hsecond, hord, hty⟩ := hw.rangeTo
    (hfit.next_part hp hm hl hr hne hfirst.moves hfirst.ready) hb
  have hstill : s2.program.exprs.get? e = some m := by
    have hsame := hsecond.moves.program.same (hfit.not_work hm hr hfirst.moves.program)
    exact hsame m (hfit.still_part hm hl hfirst.moves)
  obtain rfl := hstill.some_unique hm1
  rw [hty]
  exact .range hm hk hrel hfirst hsecond hord hstill

theorem rangeFromZero {op : PrefixOp} (hk : m.kind = .before op l)
    (hop : op = .less ∨ op = .lessOrEqual)
    (run : Resolve.rangeFromZero (Resolve.callsWithin n) e op l s = .ok t s') :
    Plain p n s e writable t s' := by
  have hl : l ∈ m.kind.children := by simp [hk]
  simp only [Resolve.rangeFromZero, bind_eq_ok, replace_eq_ok, pure_eq_ok] at run
  obtain ⟨a, s1, ha, _, _, ⟨m1, hm1, rfl⟩, rfl, rfl⟩ := run
  obtain ⟨bound, hran, hord, hty⟩ := hw.rangeTo (hfit.part_expr hp hm hl) ha
  have hstill := hfit.still_part hm hl hran.moves
  obtain rfl := hstill.some_unique hm1
  rw [hty]
  exact .rangeFromZero hm hk hop hran hord hstill

omit hw in
include hf in
theorem storageType (hk : m.kind = .binary .call l (.args []))
    (run : Resolve.storageType l s = .ok t s') : Plain p n s e writable t s' := by
  have hlfit := hfit.part_expr hp hm (c := l) (by simp [hk])
  simp only [Resolve.storageType, bind_eq_ok, node_eq_ok] at run
  obtain ⟨ml, _, ⟨hml, hs⟩, run⟩ := run
  rw [hs] at run
  cases hlk : ml.kind with
  | name text symbol =>
    have hpml := hlfit.node_of_not_literal hml (by simp [hlk])
    obtain rfl := hf.name hpml hlk
    simp only [hlk] at run
    split at run
    · rename_i htext
      simp only [bind_eq_ok, record_eq_ok, pure_eq_ok] at run
      obtain ⟨_, _, ⟨m1, hm1, rfl⟩, rfl, rfl⟩ := run
      obtain rfl := hml.some_unique hm1
      exact .string hm hk hpml (htext ▸ hlk)
    · rename_i htext
      simp only [bind_eq_ok, lookupGlobal_eq_ok] at run
      obtain ⟨found, _, ⟨hfound, hs⟩, run⟩ := run
      rw [hs] at run
      split at run
      · simp only [bind_eq_ok, replace_eq_ok, record_eq_ok, pure_eq_ok] at run
        obtain ⟨_, _, ⟨m1, hm1, rfl⟩, _, _, ⟨m2, hm2, rfl⟩, rfl, rfl⟩ := run
        obtain rfl := hml.some_unique hm1
        obtain rfl := (get?_put_self hml).some_unique hm2
        rw [put_put]
        have hplain : Plain p n s e writable _ _ := .storage hm hk hpml hlk htext hfound
        exact hplain
      · simp at run
  | _ => simp [hlk] at run

end Works

theorem Works.plainType (hp : p.TreeShaped) (hf : Fresh p) (hw : Works p n)
    (hfit : Fit p s (.expr e)) (hm : s.program.exprs.get? e = some m)
    (run : Resolve.plainType (Resolve.callsWithin n) e writable m.kind s = .ok t s') :
    Plain p n s e writable t s' := by
  have hpm := hfit.node_of_not_literal hm
  generalize hk : m.kind = kind at run
  unfold Resolve.plainType at run
  split at run
  · rename_i text symbol
    have hpm := hpm (by simp [hk])
    obtain rfl := hf.name hpm hk
    simp only [Resolve.namedType, bind_eq_ok, lookupGlobal_eq_ok, Resolve.tyOfSymbol_eq_ok,
      replace_eq_ok, pure_eq_ok] at run
    obtain ⟨_, _, ⟨hfinds, rfl⟩, _, _, ⟨⟨found, rfl, htype⟩, rfl⟩, _, _,
      ⟨m1, hm1, rfl⟩, rfl, rfl⟩ := run
    obtain rfl := hm.some_unique hm1
    exact .name hpm hk hfinds htype
  · exact Works.storageType hp hf hfit (hpm (by simp [hk])) hk run
  · simp at run
  · exact hw.rangeType hp hfit (hpm (by simp [hk])) hk (.inl rfl) run
  · exact hw.rangeType hp hfit (hpm (by simp [hk])) hk (.inr rfl) run
  · exact hw.rangeFromZero hp hfit (hpm (by simp [hk])) hk (.inl rfl) run
  · exact hw.rangeFromZero hp hfit (hpm (by simp [hk])) hk (.inr rfl) run
  · simp at run

/-! ## Brackets -/

/-- An exclamation mark has been taken off, or there is none. -/
inductive Marked (p : Program) (s : State) (e : ExprId) : ExprId → Bool → Prop
  | bang {m : ExprNode} {inner : ExprId} (node : p.exprs.get? e = some m)
      (kind : m.kind = .after .bang inner) : Marked p s e inner true
  | none {m : ExprNode} (node : s.program.exprs.get? e = some m)
      (kind : ∀ inner, m.kind ≠ .after .bang inner) : Marked p s e e false

/-- The brackets of a type have been taken off. -/
inductive Spelled (p : Program) (n : Nat) : State → ExprId → Resolve.Spelling → State → Prop
  | base {s : State} {e base : ExprId} {writable : Bool} {m : ExprNode}
      (mark : Marked p s e base writable) (node : s.program.exprs.get? base = some m)
      (empty : ∀ left, m.kind ≠ .binary .index left .none)
      (filled : ∀ left length, m.kind ≠ .binary .index left (.expr length)) :
      Spelled p n s e ⟨base, writable, [], [e]⟩ s
  | pointer {s s' : State} {e base left : ExprId} {writable : Bool} {m : ExprNode}
      {rest : Resolve.Spelling}
      (mark : Marked p s e base writable) (node : p.exprs.get? base = some m)
      (kind : m.kind = .binary .index left .none) (spelled : Spelled p n s left rest s') :
      Spelled p n s e { rest with
        brackets := .pointer writable :: rest.brackets, nodes := e :: base :: rest.nodes } s'
  | storage {s s1 s' : State} {e base left length length' : ExprId} {v : Int64} {m : ExprNode}
      {rest : Resolve.Spelling}
      (mark : Marked p s e base false) (node : p.exprs.get? base = some m)
      (kind : m.kind = .binary .index left (.expr length))
      (count : RanInt p n s length length' v s1) (low : ¬ v < 0) (high : ¬ 2147483647 < v)
      (still : s1.program.exprs.get? base = some m)
      (spelled : Spelled p n (s1.put base { m with kind := .binary .index left (.expr length') })
        left rest s') :
      Spelled p n s e { rest with
        brackets := .storage (UInt32.ofNat v.toNatClampNeg) :: rest.brackets,
        nodes := e :: base :: rest.nodes } s'

theorem Resolve.takeMark_eq_ok (hfit : Fit p s (.expr e)) {a : ExprId × Bool}
    (run : Resolve.takeMark e s = .ok a s') : Marked p s e a.1 a.2 ∧ s' = s := by
  simp only [Resolve.takeMark, bind_eq_ok, node_eq_ok] at run
  obtain ⟨m, _, ⟨hm, hs⟩, run⟩ := run
  rw [hs] at run
  generalize hk : m.kind = kind at run
  split at run
  · obtain ⟨rfl, rfl⟩ := pure_eq_ok.1 run
    exact ⟨.bang (hfit.node_of_not_literal hm (by simp [hk])) hk, rfl⟩
  · rename_i hother
    obtain ⟨rfl, rfl⟩ := pure_eq_ok.1 run
    exact ⟨.none hm fun inner h => hother inner (hk.symm.trans h), rfl⟩

section

variable (h : Marked p s e base writable)

include h

theorem Marked.fit (hp : p.TreeShaped) (hfit : Fit p s (.expr e)) : Fit p s (.expr base) := by
  cases h with
  | bang node kind => exact hfit.part_expr hp node (by simp [kind])
  | none => exact hfit

theorem Marked.mem : .expr base ∈ p.region (.expr e) := by
  cases h with
  | bang node kind =>
    exact part_mem_region (by simp [parts_expr node, kind])
  | none => exact mem_region_self

theorem Marked.loose (hp : p.TreeShaped) (hl : p.Loose (.expr e)) : p.Loose (.expr base) := by
  cases h with
  | bang node kind =>
    exact hl.part hp (by simp [parts_expr node, kind])
  | none => exact hl

/-- What stands before brackets. -/
theorem Marked.left_mem {left : ExprId} {right : Operand} (hm : p.exprs.get? base = some m)
    (hk : m.kind = .binary .index left right) : .expr left ∈ p.region (.expr e) :=
  parts_mem_region h.mem (by simp [parts_expr hm, hk])

end

theorem Fit.put (h : Fit p s x) (he : Free p s e) (hx : .expr e ∉ p.region x) :
    Fit p (s.put e m) x :=
  ⟨h.ready.put he, h.loose, fun y hy => (h.same y hy).setExpr fun hye => hx (hye ▸ hy), h.apart⟩

/-- Once the length between the brackets is resolved, what stands before them is as it was. -/
theorem Ran.fit_left {left length length' : ExprId} {r : ExprNode}
    (h : Ran p n s length length' s1) (hp : p.TreeShaped) (hfit : Fit p s (.expr e))
    (hm : p.exprs.get? e = some m) (hk : m.kind = .binary .index left (.expr length)) :
    Fit p (s1.put e r) (.expr left) := by
  have hleft : left ∈ m.kind.children := by simp [hk]
  have hlen : length ∈ m.kind.children := by simp [hk]
  have hne : length ≠ left := by
    have := hp.children_nodup hm
    simp only [hk, Expr.children, Operand.exprs, List.nodup_cons, List.mem_singleton] at this
    exact fun h => this.1 h.symm
  refine (hfit.next_part hp hm hlen hleft hne h.moves h.ready).put
    ((hfit.free mem_region_self hm).step h.moves.program)
    (hfit.loose.not_mem (child_mem_parts hm hleft))

theorem Works.takeBrackets {depth : Nat} {a : Resolve.Spelling} (hp : p.TreeShaped)
    (hw : Works p n) (hfit : Fit p s (.expr e))
    (run : Resolve.takeBrackets (Resolve.callsWithin n) depth e s = .ok a s') :
    Spelled p n s e a s' ∧ a.brackets.length < depth := by
  induction depth generalizing s e a with
  | zero => simp [Resolve.takeBrackets] at run
  | succ depth ih =>
    simp only [Resolve.takeBrackets, bind_eq_ok] at run
    obtain ⟨⟨base, writable⟩, _, hmark, last, _, hlast, run⟩ := run
    obtain ⟨hmark, rfl⟩ := Resolve.takeMark_eq_ok hfit hmark
    dsimp only at hmark hlast run
    have hbfit := hmark.fit hp hfit
    simp only [Resolve.lastBrackets?, bind_eq_ok, node_eq_ok] at hlast
    obtain ⟨m, _, ⟨hm, hs⟩, hlast⟩ := hlast
    rw [hs] at hlast
    generalize hk : m.kind = kind at hlast
    split at hlast
    · rename_i left
      obtain ⟨rfl, rfl⟩ := pure_eq_ok.1 hlast
      have hpm := hbfit.node_of_not_literal hm (by simp [hk])
      simp only [Resolve.readBrackets, bind_eq_ok, pure_eq_ok] at run
      obtain ⟨_, _, ⟨rfl, rfl⟩, rest, _, hrest, rfl, rfl⟩ := run
      obtain ⟨hspelled, hlt⟩ := ih (hbfit.part_expr hp hpm (by simp [hk])) hrest
      exact ⟨.pointer hmark hpm hk hspelled, by simpa using hlt⟩
    · rename_i left length
      obtain ⟨rfl, rfl⟩ := pure_eq_ok.1 hlast
      have hpm := hbfit.node_of_not_literal hm (by simp [hk])
      have hlen : length ∈ m.kind.children := by simp [hk]
      cases writable with
      | true => simp [Resolve.readBrackets, Resolve.strayMark] at run
      | false =>
        simp only [Resolve.readBrackets, Bool.false_eq_true, if_false, bind_eq_ok, replace_eq_ok,
          pure_eq_ok] at run
        obtain ⟨b, s1, ⟨c, s2, hcount, _, _, ⟨m1, hm1, rfl⟩, rfl, rfl⟩, run⟩ := run
        obtain ⟨rest, _, hrest, rfl, rfl⟩ := run
        obtain ⟨v, hran, hlow, hhigh, hv⟩ := hw.arrayLength (hbfit.part_expr hp hpm hlen) hcount
        have hstill := hbfit.still_part hpm hlen hran.moves
        obtain rfl := hstill.some_unique hm1
        obtain ⟨hspelled, hlt⟩ := ih (hran.toRan.fit_left hp hbfit hpm hk) hrest
        rw [hv]
        exact ⟨.storage hmark hpm hk hran hlow hhigh hstill hspelled, by simpa using hlt⟩
    · rename_i hempty hfilled
      obtain ⟨rfl, rfl⟩ := pure_eq_ok.1 hlast
      obtain ⟨rfl, rfl⟩ := pure_eq_ok.1 run
      exact ⟨.base hmark hm (fun left h => hempty left (hk.symm.trans h))
        fun left length h => hfilled left length (hk.symm.trans h), by simp⟩

/-! ## Whole types -/

/-- The state in which some expressions have a type. -/
def Pass.State.typeAll (s : State) (t : Ty) : List ExprId → State
  | [] => s
  | e :: es =>
    ((s.program.exprs.get? e).elim s fun n => s.put e { n with ty := some t }).typeAll t es

theorem forM_record_eq_ok {u : Unit}
    (run : (es.forM fun e => record e t) s = .ok u s') : s' = s.typeAll t es := by
  induction es generalizing s with
  | nil => exact forM_nil_eq_ok.1 run
  | cons _ _ ih =>
    obtain ⟨s1, he, hes⟩ := forM_cons_eq_ok.1 run
    obtain ⟨n, hn, rfl⟩ := record_eq_ok.1 he
    rw [State.typeAll, hn]
    exact ih hes

/-- What the rule for types has done. -/
inductive StepType (p : Program) (n : Nat) (s : State) (e : ExprId) : Ty → State → Prop
  | mk {spelling : Resolve.Spelling} {t : Ty} {m : ExprNode} {s1 s2 : State}
      (spelled : Spelled p n s e spelling s1)
      (plain : Plain p n s1 spelling.base spelling.writable t s2)
      (mark : spelling.writable = true → Resolve.takesMark t = true)
      (still : s2.program.exprs.get? spelling.base = some m)
      (short : spelling.brackets.length < s.program.exprDepth) :
      StepType p n s e (spelling.brackets.foldl Resolve.Brackets.array t)
        ((s2.put spelling.base { m with ty := some t }).typeAll
          (spelling.brackets.foldl Resolve.Brackets.array t)
          (spelling.nodes.filter (· != spelling.base)))

/-- An expression inside a type that stands around what comes before the brackets. -/
structure Program.Around (p : Program) (e base x : ExprId) : Prop where
  node : ∃ m, p.exprs.get? x = some m
  mem : .expr x ∈ p.region (.expr e)
  not_mem : .expr x ∉ p.region (.expr base)

namespace Spelled

variable {a : Resolve.Spelling}

section

variable (h : Spelled p n s e a s')

include h

theorem fit (hp : p.TreeShaped) (hfit : Fit p s (.expr e)) : Fit p s' (.expr a.base) := by
  induction h with
  | base mark => exact mark.fit hp hfit
  | pointer mark node kind _ ih =>
    exact ih ((mark.fit hp hfit).part_expr hp node (by simp [kind]))
  | storage mark node kind count _ _ _ _ ih =>
    exact ih (count.toRan.fit_left hp (mark.fit hp hfit) node kind)

theorem waiting_subset : p.waiting s'.program ⊆ p.waiting s.program := by
  induction h with
  | base => exact subset_rfl
  | pointer _ _ _ _ ih => exact ih
  | storage _ _ _ count _ _ _ _ ih =>
    rw [waiting_put] at ih
    exact ih.trans (Program.waiting_subset count.moves.program)

theorem base_mem : .expr a.base ∈ p.region (.expr e) := by
  induction h with
  | base mark => exact mark.mem
  | pointer mark node kind _ ih =>
    exact region_subset_of_mem (mark.left_mem node kind) ih
  | storage mark node kind _ _ _ _ _ ih =>
    exact region_subset_of_mem (mark.left_mem node kind) ih

/-- The nodes on the way to the part before the brackets stand around it. -/
theorem nodes (hp : p.TreeShaped) (hl : p.Loose (.expr e)) :
    ∀ x ∈ a.nodes, x ≠ a.base → p.Around e a.base x := by
  -- where there are brackets, two nodes come before those of the rest
  have hstep : ∀ {s e base left writable m right} {rest : Resolve.Spelling} {s1 s2},
      Marked p s e base writable → p.exprs.get? base = some m → m.kind = .binary .index left right →
      Spelled p n s1 left rest s2 → p.Loose (.expr e) →
      (p.Loose (.expr left) → ∀ x ∈ rest.nodes, x ≠ rest.base → p.Around left rest.base x) →
      ∀ x ∈ e :: base :: rest.nodes, x ≠ rest.base → p.Around e rest.base x := by
    intro s e base left writable m right rest s1 s2 mark node kind spelled hl ih x hx hne
    have hbl := mark.loose hp hl
    have hpart : .expr left ∈ p.parts (.expr base) := by
      simp [parts_expr node, kind]
    have hrest : p.region (.expr rest.base) ⊆ p.region (.expr left) :=
      region_subset_of_mem spelled.base_mem
    have hbase : p.Around e rest.base base :=
      ⟨⟨m, node⟩, mark.mem, fun hin => hbl.not_mem hpart (hrest hin)⟩
    simp only [List.mem_cons] at hx
    rcases hx with rfl | rfl | hx
    · cases mark with
      | bang mnode mkind =>
        have hin : Node.expr base ∈ p.parts (.expr x) := by
          simp [parts_expr mnode, mkind]
        exact ⟨⟨_, mnode⟩, mem_region_self, fun h =>
          hl.not_mem hin (region_subset hpart (hrest h))⟩
      | none => exact hbase
    · exact hbase
    · obtain ⟨hm, hin, hout⟩ := ih (hbl.part hp hpart) x hx hne
      exact ⟨hm, region_subset_of_mem (mark.left_mem node kind) hin, hout⟩
  induction h with
  | base mark =>
    intro x hx hne
    obtain rfl := List.mem_singleton.1 hx
    cases mark with
    | bang node kind =>
      refine ⟨⟨_, node⟩, mem_region_self, hl.not_mem ?_⟩
      simp [parts_expr node, kind]
    | none => exact absurd rfl hne
  | pointer mark node kind spelled ih => exact hstep mark node kind spelled hl ih
  | storage mark node kind _ _ _ _ spelled ih => exact hstep mark node kind spelled hl ih

end

end Spelled

theorem Plain.ready (h : Plain p n s e writable t s') (hfit : Fit p s (.expr e)) : Ready p s' := by
  have hfree : ∀ {m}, p.exprs.get? e = some m → Free p s e := hfit.free mem_region_self
  cases h with
  | name node => exact hfit.ready.put (hfree node)
  | string node kind lnode =>
    exact hfit.ready.put (hfit.child node (by simp [kind]) lnode)
  | storage node kind lnode =>
    exact hfit.ready.put (hfit.child node (by simp [kind]) lnode)
  | range node _ _ first second =>
    exact second.ready.put (((hfree node).step first.moves.program).step second.moves.program)
  | rangeFromZero node _ _ operand =>
    exact operand.ready.put ((hfree node).step operand.moves.program)

theorem Plain.waiting_subset (h : Plain p n s e writable t s') :
    p.waiting s'.program ⊆ p.waiting s.program := by
  cases h with
  | name => exact subset_rfl
  | string => exact subset_rfl
  | storage => exact subset_rfl
  | range _ _ _ first second =>
    rw [waiting_put]
    exact (Program.waiting_subset second.moves.program).trans
      (Program.waiting_subset first.moves.program)
  | rangeFromZero _ _ _ operand =>
    rw [waiting_put]
    exact Program.waiting_subset operand.moves.program

theorem Plain.node (h : Plain p n s e writable t s') : ∃ m, p.exprs.get? e = some m := by
  cases h with
  | name node => exact ⟨_, node⟩
  | string node => exact ⟨_, node⟩
  | storage node => exact ⟨_, node⟩
  | range node => exact ⟨_, node⟩
  | rangeFromZero node => exact ⟨_, node⟩

theorem Ready.typeAll (h : Ready p s) (hes : ∀ e ∈ es, Free p s e) : Ready p (s.typeAll t es) := by
  induction es generalizing s with
  | nil => exact h
  | cons e _ ih =>
    rw [State.typeAll]
    cases s.program.exprs.get? e with
    | none => exact ih h fun x hx => hes x (by simp [hx])
    | some => exact ih (h.put (hes e (by simp))) fun x hx => (hes x (by simp [hx])).put

theorem StepType.ready (h : StepType p n s e t s') (hp : p.TreeShaped) (hfit : Fit p s (.expr e)) :
    Ready p s' := by
  obtain ⟨spelled, plain, mark, still⟩ := h
  have hsub := plain.waiting_subset.trans spelled.waiting_subset
  have hfree : ∀ {x}, (∃ m, p.exprs.get? x = some m) → .expr x ∈ p.region (.expr e) →
      Free p _ x := fun hx hin => ⟨hx, fun hw => hfit.not_waiting hin (hsub hw)⟩
  refine ((plain.ready (spelled.fit hp hfit)).put (hfree plain.node spelled.base_mem)).typeAll ?_
  intro x hx
  simp only [List.mem_filter, bne_iff_ne] at hx
  obtain ⟨hnode, hin, -⟩ := spelled.nodes hp hfit.loose x hx.1 hx.2
  exact (hfree hnode hin).put

theorem Works.readType (hp : p.TreeShaped) (hf : Fresh p) (hw : Works p n)
    (hfit : Fit p s (.expr e)) (run : Resolve.readType (Resolve.callsWithin n) e s = .ok t s') :
    StepType p n s e t s' := by
  simp only [Resolve.readType, Resolve.baseType, bind_eq_ok, get_eq_ok, node_eq_ok] at run
  obtain ⟨_, _, ⟨rfl, rfl⟩, a, s1, hbrackets, b, s2, ⟨m, _, ⟨hm, hs⟩, b', s3, hplain, hbase⟩, _, _,
    hall, hpure⟩ := run
  rw [hs] at hplain
  obtain ⟨hspelled, hshort⟩ := hw.takeBrackets hp hfit hbrackets
  have hplain := hw.plainType hp hf (hspelled.fit hp hfit) hm hplain
  split at hbase
  · simp [Resolve.strayMark] at hbase
  · rename_i hmark
    simp only [bind_eq_ok, record_eq_ok, pure_eq_ok] at hbase
    obtain ⟨_, _, ⟨m1, hm1, rfl⟩, rfl, rfl⟩ := hbase
    obtain ⟨rfl, rfl⟩ := pure_eq_ok.1 hpure
    rw [forM_record_eq_ok hall]
    refine .mk hspelled hplain (fun hw => ?_) hm1 hshort
    by_contra hne
    exact hmark (by simp [hw, hne])

end Ci
