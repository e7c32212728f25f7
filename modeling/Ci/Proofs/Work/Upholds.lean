-- What the work on a node keeps. The pass edits the node, visits its parts, and resolves
-- the constants that names stand for. What all of these keep, the work as a whole keeps.
import Ci.Proofs.Work.Run

namespace Ci

open Pass Program

variable {p : Program} {n : Nat} {s s1 s2 s' : State} {e e' r : ExprId} {x : Node}
  {m m' mm : ExprNode} {t : Ty} {text : String} {member left : ExprId} {look : Resolve.Look}
  {scope : ScopeId} {C : Node → Prop} {P : State → Prop}

/-! ## Edits -/

/-- The pass changes the form of a node, or gives types and names. It stays where it is and leaves
the constants alone. -/
structure Edits (x : Node) (s s' : State) : Prop where
  place : SamePlace s s'
  lasts : Lasts s.program s'.program
  consts : s'.program.consts = s.program.consts
  binds : s'.table = s.table ∨ ∃ name v, x = .var v ∧
    s.table.define? s.table.current name (.var v) = .ok (some s'.table)

theorem Edits.put (hm : s.program.exprs.get? e = some m) (ht : m.ty = none)
    (ho : m'.kind.outline = m.kind.outline) (hl : m'.line = m.line) :
    Edits (.expr e) s (s.put e m') :=
  ⟨⟨rfl, rfl, rfl, rfl, rfl, rfl⟩, .put hm ht ho hl, rfl, .inl rfl⟩

theorem Edits.grow {line : UInt32} {v : Literal} : Edits x s (s.grow line v) :=
  ⟨⟨rfl, rfl, rfl, rfl, rfl, rfl⟩, .grow, rfl, .inl rfl⟩

/-! ## What is upheld -/

/-- Inside some nodes, something is kept by all that the rules down to a depth do there. -/
structure Upholds (p : Program) (n : Nat) (C : Node → Prop) (P : State → Prop) : Prop where
  part : ∀ {x y}, C x → y ∈ p.parts x → C y
  edit : ∀ {x s s'}, C x → Edits x s s' → P s → P s'
  const : ∀ {s k s'}, RanConst p n s k s' → P s → P s'
  value : ∀ {s e e' s'}, C (.expr e) → Ran p n s e e' s' → P s → P s'
  type : ∀ {s e t s'}, C (.expr e) → RanType p n s e t s' → P s → P s'

namespace Upholds

variable (hC : Upholds p n C P) (hf : Fresh p)

include hC

theorem child (hx : C (.expr e)) (node : p.exprs.get? e = some m) {c : ExprId}
    (hc : c ∈ m.kind.children) : C (.expr c) :=
  hC.part hx (child_mem_parts node hc)

/-- A name is resolved. -/
theorem named (h : Named p n s look scope e m text e' s') (hx : C (.expr e))
    (hm : s.program.exprs.get? e = some m) (ht : m.ty = none) (hk : m.kind = .name text none)
    (hs : P s) : P s' := by
  have hbind : ∀ found, P (s.put e { m with kind := .name text (some found) }) :=
    fun found => hC.edit hx (.put hm ht (by simp [hk]) rfl) hs
  cases h with
  | @kept found _ _ _ reached still =>
    refine hC.edit hx (.put still ht rfl rfl) ?_
    cases reached with
    | const run => exact hC.const run (hbind _)
    | other => exact hbind found
  | inlined _ run => exact hC.edit hx .grow (hC.const run (hbind _))

/-- A list of expressions is resolved. -/
theorem list {ι : Type} {exprOf : ι → ExprId} {K : ι → ExprId → State → Prop} {is : List ι}
    {es : List ExprId} (h : RanList p (fun _ => n) exprOf K s is es s')
    (hx : ∀ i ∈ is, C (.expr (exprOf i))) (hs : P s) : P s' := by
  induction h with
  | nil => exact hs
  | cons first _ _ ih =>
    exact ih (fun i hi => hx i (List.mem_cons_of_mem _ hi))
      (hC.value (hx _ List.mem_cons_self) first hs)

include hf

/-- An expression is put back. -/
theorem put (hx : C (.expr e)) (node : p.exprs.get? e = some m)
    (still : s.program.exprs.get? e = some m) (ho : m'.kind.outline = m.kind.outline)
    (hl : m'.line = m.line) (hs : P s) : P (s.put e m') :=
  hC.edit hx (.put still (hf.untyped node) ho hl) hs

/-- An operator is put back with its operands, and then ends. -/
theorem ending {V : Program → Prop} {parts : List ExprId} {f : Pass ExprId}
    (hx : C (.expr e)) (node : p.exprs.get? e = some m)
    (still : s.program.exprs.get? e = some m)
    (hend : Ending V e parts (s.put e m') f e' s') (ho : m'.kind.outline = m.kind.outline)
    (hl : m'.line = m.line) (ht : m'.ty = m.ty) (hs : P s) : P s' := by
  have hback : P (s.put e m') := hC.put hf hx node still ho hl hs
  have hput := get?_put_self (m := m') still
  cases hend with
  | typed _ _ found =>
    obtain rfl := hput.some_unique found
    exact hC.edit hx (.put hput (ht.trans (hf.untyped node)) rfl rfl) hback
  | folded => exact hC.edit hx .grow hback
  | part => exact hback

omit hf in
theorem accessed (h : Accessed e m member s r e' s') (hx : C (.expr e)) (ht : m.ty = none)
    (hs : P s) : P s' := by
  cases h with
  | kept _ still => exact hC.edit hx (.put still ht rfl rfl) hs
  | folded => exact hs

/-- A member of a value is resolved. -/
theorem ofValue {ty : Ty} (h : OfValue p n e m left member mm text s ty e' s')
    (hx : C (.expr e)) (hmx : C (.expr member)) (hne : member ≠ e)
    (hm : s.program.exprs.get? e = some m) (ht : m.ty = none)
    (mnode : p.exprs.get? member = some mm) (mstill : s.program.exprs.get? member = some mm)
    (mkind : mm.kind = .name text none) (hs : P s) : P s' := by
  cases h with
  | literalLength => exact hC.edit hx .grow hs
  | arrayLength => exact hC.edit hx .grow hs
  | stringLength =>
    exact hC.edit hx (.put ((get?_put_of_ne hne).trans hm) ht rfl rfl)
      (hC.put hf hmx mnode mstill (by simp [mkind]) rfl hs)
  | ofClass _ _ named accessed =>
    exact hC.accessed accessed hx ht (hC.named named hmx mstill (hf.untyped mnode) mkind hs)

end Upholds

/-- A value is still there if there was one. -/
theorem Started.outline {value value' : Option ExprId} (h : Started p n t s value value' s') :
    value'.map (fun _ => (.any : ExprId)) = value.map fun _ => .any := by
  cases h <;> rfl

section

variable (hC : Upholds p n C P) (hp : p.TreeShaped) (hf : Fresh p)

include hC hp hf

/-- What is upheld is kept by the work on an expression. -/
theorem Step.keeps (h : Step p n s e e' s') (hfit : Fit p s (.expr e)) (hx : C (.expr e))
    (hs : P s) : P s' := by
  cases h with
  | literal node kind =>
    rcases hfit.expr_cases node with hm | ⟨w, line, hw⟩
    · exact hC.put hf hx hm node rfl rfl hs
    · obtain rfl := hw.some_unique node
      obtain rfl : w = _ := by simpa using kind
      rwa [put_get? node]
  | name node kind named => exact hC.named named hx (hfit.node node) (hf.untyped node) kind hs
  | before node kind operand still ends =>
    exact hC.ending hf hx node still (Resolve.settles_beforeEnd _ _ ends) (by simp [kind]) rfl rfl
      (hC.value (hC.child hx node (by simp [kind])) operand hs)
  | @newArray _ _ inner _ _ _ _ _ _ _ node kind inode ikind element count still istill =>
    have hinner := hC.child hx node (c := inner) (by simp [kind])
    have h1 := hC.type (hC.child hinner inode (by simp [ikind])) element hs
    have h2 := hC.value (hC.child hinner inode (by simp [ikind])) count h1
    exact hC.put hf hx node ((get?_put_of_ne (hfit.ne_part node (by simp [kind]))).trans still)
      rfl rfl (hC.put hf hinner inode istill (by simp [ikind]) rfl h2)
  | newObject node kind _ _ object still =>
    exact hC.put hf hx node still rfl rfl (hC.type (hC.child hx node (by simp [kind])) object hs)
  | after node kind _ operand still ends =>
    exact hC.ending hf hx node still (Resolve.settles_afterEnd _ _ ends) (by simp [kind]) rfl rfl
      (hC.value (hC.child hx node (by simp [kind])) operand hs)
  | @ownerMember m _ ml left member _ _ _ owner found _ ty _ _ node kind mnode mkind lnode lkind
      _ _ named accessed =>
    have hne : left ≠ member := by
      have := hp.children_nodup node
      simpa [kind] using this
    have hmember := hC.child hx node (c := member) (by simp [kind])
    have hleft : P (s.put left { ml with kind := .name owner (some found), ty := some ty }) :=
      hC.put hf (hC.child hx node (by simp [kind])) lnode
        (hfit.node_child node (by simp [kind]) lnode) (by simp [lkind]) rfl hs
    exact hC.accessed accessed hx (hf.untyped node) (hC.named named hmember
      ((get?_put_of_ne hne).trans (hfit.node_child node (by simp [kind]) mnode))
      (hf.untyped mnode) mkind hleft)
  | @valueMember m _ left left' member _ _ _ s1 _ node kind mnode mkind value still
    mstill _ ofValue =>
    have hne := hfit.ne_part node (c := member) (by simp [kind])
    have hmember := hC.child hx node (c := member) (by simp [kind])
    have h1 := hC.value (hC.child hx node (by simp [kind])) value hs
    have h2 : P (s1.put e { m with kind := .binary .dot left' (.expr member) }) :=
      hC.put hf hx node still (by simp [kind]) rfl h1
    have ht := hf.untyped node
    exact hC.ofValue hf ofValue hx hmember hne (get?_put_self still) ht mnode
      ((get?_put_of_ne hne.symm).trans mstill) mkind h2
  | @call _ _ _ args args' _ _ _ _ node kind function _ _ count arguments still =>
    have hlen : args'.length = args.length := by
      rw [arguments.length, List.length_zip, count, Nat.min_self]
    have h1 := hC.value (hC.child hx node (by simp [kind])) function hs
    refine hC.put hf hx node still ?_ rfl (hC.list arguments (fun i hi => ?_) h1)
    · simp [kind, List.map_const', hlen]
    · exact hC.child hx node (by simp [kind, (List.of_mem_zip hi).1])
  | binary node kind _ _ first second still ends =>
    exact hC.ending hf hx node still (Settles.operation _ _ ends) (by simp [kind]) rfl rfl
      (hC.value (hC.child hx node (by simp [kind])) second
        (hC.value (hC.child hx node (by simp [kind])) first hs))
  | conditional node kind condition _ first second still ends =>
    exact hC.ending hf hx node still (Settles.choice _ _ ends) (by simp [kind]) rfl rfl
      (hC.value (hC.child hx node (by simp [kind])) second
        (hC.value (hC.child hx node (by simp [kind])) first
          (hC.value (hC.child hx node (by simp [kind])) condition hs)))
  | collection node kind list _ _ _ still =>
    refine hC.put hf hx node still ?_ rfl (hC.list list (fun i hi => ?_) hs)
    · simp only [kind, Expr.outline, List.map_const', list.length]
    · exact hC.child hx node (by simpa [kind] using hi)
  | @var m v d t value' table _ s2 node kind vnode type started still vstill binds =>
    have hv : C (.var v) := hC.part hx (by simp [parts_expr node, kind])
    have h1 := hC.type (hC.part hv (by simp [parts_var vnode])) type hs
    have h2 : P s2 := by
      generalize hval : d.value = value at started
      cases started with
      | none => exact h1
      | some run => exact hC.value (hC.part hv (by simp [parts_var vnode, hval])) run h1
    have hdefine : Edits (.var v) s2
        { s2.setVar v { d with value := value', ty := some t } with table := table } := by
      refine ⟨⟨?_, rfl, rfl, rfl, rfl, rfl⟩, .setVar vstill ?_ ?_, rfl,
        .inr ⟨d.name, v, rfl, binds⟩⟩
      · obtain ⟨c, -, -, rfl⟩ := ScopeTable.define?_ok binds
        rfl
      · exact hf.vars d (Arena.mem_toList_of_get? vnode)
      · simp [Var.outline, started.outline]
    exact hC.put hf hx node still rfl rfl (hC.edit hv hdefine h2)

/-! ## Types -/

omit hC hp hf in
/-- Types are all that is given. -/
theorem typeAll_eq (es : List ExprId) :
    ∃ exprs, s.typeAll t es = { s with program := { s.program with exprs } } := by
  induction es generalizing s with
  | nil => exact ⟨s.program.exprs, rfl⟩
  | cons e _ ih =>
    rw [State.typeAll]
    cases s.program.exprs.get? e with
    | none => exact ih
    | some m =>
      obtain ⟨exprs, h⟩ := ih (s := s.put e { m with ty := some t })
      exact ⟨exprs, h⟩

omit hp in
theorem Plain.keeps {writable : Bool} (h : Plain p n s e writable t s') (hfit : Fit p s (.expr e))
    (hx : C (.expr e)) (hs : P s) : P s' := by
  cases h with
  | name node kind => exact hC.put hf hx node (hfit.node node) (by simp [kind]) rfl hs
  | string node kind lnode =>
    exact hC.put hf (hC.child hx node (by simp [kind])) lnode
      (hfit.node_child node (by simp [kind]) lnode) rfl rfl hs
  | storage node kind lnode lkind =>
    exact hC.put hf (hC.child hx node (by simp [kind])) lnode
      (hfit.node_child node (by simp [kind]) lnode) (by simp [lkind]) rfl hs
  | range node kind _ first second _ still =>
    exact hC.put hf hx node still (by simp [kind]) rfl
      (hC.value (hC.child hx node (by simp [kind])) second.toRan
        (hC.value (hC.child hx node (by simp [kind])) first.toRan hs))
  | rangeFromZero node kind _ operand _ still =>
    exact hC.put hf hx node still (by simp [kind]) rfl
      (hC.value (hC.child hx node (by simp [kind])) operand.toRan hs)

omit hp hf in
theorem Marked.upheld {base : ExprId} {writable : Bool} (h : Marked p s e base writable)
    (hx : C (.expr e)) : C (.expr base) := by
  cases h with
  | bang node kind => exact hC.child hx node (by simp [kind])
  | none => exact hx

/-- The brackets are taken off. -/
theorem Spelled.keeps {a : Resolve.Spelling} (h : Spelled p n s e a s') (hfit : Fit p s (.expr e))
    (hx : C (.expr e)) (hs : P s) : C (.expr a.base) ∧ P s' := by
  induction h with
  | base mark => exact ⟨mark.upheld hC hx, hs⟩
  | pointer mark node kind _ ih =>
    exact ih ((mark.fit hp hfit).part_expr hp node (by simp [kind]))
      (hC.child (mark.upheld hC hx) node (by simp [kind])) hs
  | storage mark node kind count _ _ still _ ih =>
    have hb := mark.upheld hC hx
    exact ih (count.toRan.fit_left hp (mark.fit hp hfit) node kind)
      (hC.child hb node (by simp [kind])) (hC.put hf hb node still (by simp [kind]) rfl
        (hC.value (hC.child hb node (by simp [kind])) count.toRan hs))

/-- What is upheld is kept when a type is read. -/
theorem StepType.keeps (h : StepType p n s e t s') (hfit : Fit p s (.expr e)) (hx : C (.expr e))
    (hs : P s) : P s' := by
  obtain @⟨a, t, m, s1, s2, spelled, plain, -, still, -⟩ := h
  have hbfit := spelled.fit hp hfit
  obtain ⟨hb, h1⟩ := spelled.keeps hC hp hf hfit hx hs
  obtain ⟨-, hlasts, -⟩ := spelled.readAs hp hf hfit (fun h => h.settled hp hf) plain still rfl
  set s3 := s2.put a.base { m with ty := some t }
  obtain ⟨exprs, heq⟩ := typeAll_eq (s := s3) (t := a.brackets.foldl Resolve.Brackets.array t)
    (a.nodes.filter (· != a.base))
  refine hC.edit hb ⟨?_, hlasts, ?_, .inl ?_⟩ (plain.keeps hC hf hbfit hb h1) <;> rw [heq]
  · exact ⟨rfl, rfl, rfl, rfl, rfl, rfl⟩
  · rfl
  · rfl

end

end Ci
