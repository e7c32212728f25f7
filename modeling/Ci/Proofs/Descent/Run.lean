-- The rules follow the descent: each single change that a rule makes leaves the
-- state grown from the program at the start. With them does the whole pass.
import Ci.Proofs.Descent.Basic

namespace Ci

open Pass Program Arena

variable {p : Program} {Λ : Locale p} {G : Interval → Prop} {v : Growth} {s : State} {e : ExprId}
  {k : ConstId} {π π' : Spot} {d : Const} {n : ExprNode} {t : Ty}

/-! ## The rules -/

/-- The node may be visited from the place: it is below one that belongs to the file, and a
statement stands in the loops and choices around. -/
structure Locale.At (Λ : Locale p) (v : Growth) (π : Spot) (x : Node) : Prop where
  below : ∃ y, Λ.Here π.file y ∧ ComesTo p v.added y x
  occurs : ∀ z, x = .stmt z → Λ.Occurs π.around z

theorem Locale.At.comesTo {x y : Node} (h : Λ.At v π x) (hxy : ComesTo p v.added x y)
    (hy : ∀ z, y ≠ .stmt z) : Λ.At v π y := by
  obtain ⟨⟨z, hz, hzx⟩, -⟩ := h
  exact ⟨⟨z, hz, hzx.trans hxy⟩, fun z hz => absurd hz (hy z)⟩

theorem Locale.at_const (h : Λ.Here π.file (.const k)) : Λ.At v π (.const k) :=
  ⟨⟨_, h, .refl⟩, by simp⟩

/-- The pass may stop at the fault. -/
def Locale.Blames (Λ : Locale p) (d : Diagnostic) : Prop :=
  (∃ f, d.file = p.path f ∧ Λ.Lines f d.line) ∧ (d.fault.isJump = true →
    ∃ around x n, Λ.Occurs around x ∧ p.stmts.get? x = some n ∧ ¬ n.kind.Lands around)

namespace Grown

section

variable (h : Grown Λ G v s)

include h

theorem path (f : FileId) : s.program.path f = p.path f := by
  simp only [Program.path, h.files]

theorem line {x : Node} {l : UInt32} (hx : Λ.At v π x) (hl : l ∈ s.program.lines x) :
    Λ.Lines π.file l := by
  obtain ⟨y, hy, hyx⟩ := hx.below
  exact Λ.line h.lines hy hyx hl

theorem blame {l : UInt32} {fault : Fault} (hl : Λ.Lines s.file l)
    (hj : fault.isJump = false) : Λ.Blames ⟨s.program.path s.file, l, fault⟩ :=
  ⟨⟨_, h.path _, hl⟩, fun h => by simp [hj] at h⟩

theorem homes {o : Owner} (hh : s.program.Homes π o π') : p.Homes π o π' := by
  cases hh with
  | program file => exact .program file
  | classDecl hd =>
    obtain ⟨d0, hd0, ho⟩ := h.classes _ _ hd
    have hf : _ = d0.file := (congrArg ClassDecl.file ho :)
    exact hf ▸ .classDecl hd0
  | enumDecl hd => exact .enumDecl (h.enums ▸ hd)
  | body => exact .body

/-- A constant that is named, or may be visited, is visited from where it is declared. -/
theorem home {s' : State} (hk : Λ.Means G v (.const k) ∨ Λ.At v π (.const k))
    (hd : s.program.consts.get? k = some d) (h' : Grown Λ G v s')
    (hh : s'.program.Homes π d.owner π') :
    Λ.At v π' (.const k) ∨ k ∈ v.done := by
  obtain ⟨d0, hd0, -, ho⟩ := h.consts k d hd
  have hh := h'.homes hh
  by_cases hb : d.owner = .body
  · rw [hb] at hh
    cases hh
    rcases hk with (hk | hk) | hk
    · exact .inl (Λ.at_const (Λ.free hk hd0 (ho ▸ hb)))
    · exact .inr hk
    · exact .inl hk
  · exact .inl (Λ.at_const (Λ.home hd0 (ho ▸ hb) (ho ▸ hh)))

/-- A constant that is resolved is one more of those that are. -/
theorem settle (hd : s.program.consts.get? k = some d)
    (hs : d.status = .resolved) : Grown Λ G ⟨v.added, insert k v.done⟩ s :=
  { h with
    done := fun k' hk' d' hd' => by
      rcases hk' with rfl | hk'
      · exact hd.some_unique hd' ▸ hs
      · exact h.done k' hk' d' hd'
    named := fun n hn text k' hk' => (h.named n hn text k' hk').imp_right (Set.mem_insert_of_mem _)
    bound := fun i c name symbol hc hb =>
      Locale.Means.mono (v := v) ⟨List.prefix_rfl, Set.subset_insert _ _⟩
      (h.bound i c name symbol hc hb) }

/-- A constant keeps its status, and changes otherwise as its slots allow. -/
theorem setConstHere {d' : Const} (hd : s.program.consts.get? k = some d)
    (hk : Slots (Under p v.added) (p.parts (.const k)) d'.parts) (hw : d'.typeExpr = d.typeExpr)
    (ho : d'.owner = d.owner) (hl : d'.line = d.line) (hs : d'.status = d.status)
    (ht : ∀ t, d'.ty = some t → t.Within G) : Grown Λ G v (s.setConst k d') := by
  refine h.setConst hd hk hw ho hl ht le_rfl rfl fun k' hk' => ?_
  by_cases hkk : k = k'
  · exact .inl ⟨hkk, hs.trans (h.done k' hk' d (hkk ▸ hd))⟩
  · exact .inr ⟨hkk, hk'⟩

theorem slotsExpr (hn : s.program.exprs.get? e = some n) :
    Slots (Under p v.added) (p.parts (.expr e)) n.kind.parts := by
  have := h.slots (.expr e)
  rwa [parts_expr hn] at this

theorem slotsStmt {x : StmtId} {n : StmtNode} (hn : s.program.stmts.get? x = some n) :
    Slots (Under p v.added) (p.parts (.stmt x)) n.kind.parts := by
  have := h.slots (.stmt x)
  rwa [parts_stmt hn] at this

theorem slotsConst (hd : s.program.consts.get? k = some d) :
    Slots (Under p v.added) (p.parts (.const k)) d.parts := by
  have := h.slots (.const k)
  rwa [parts_const hd] at this

theorem slotsVar {u : VarId} {d : Var} (hd : s.program.vars.get? u = some d) :
    Slots (Under p v.added) (p.parts (.var u)) d.parts := by
  have := h.slots (.var u)
  rwa [parts_var hd] at this

theorem names (hn : s.program.exprs.get? e = some n) (text : String)
    (symbol : Symbol) (hk : n.kind = .name text (some symbol)) : Λ.Means G v symbol := by
  have hmem := mem_toList_of_get? hn
  cases symbol with
  | type t => exact h.types.names n hmem text t hk
  | const k => exact h.named n hmem text k hk
  | _ => trivial

/-- An expression keeps its kind and gets a type. -/
theorem record (hn : s.program.exprs.get? e = some n)
    (ht : t.Within G) : Grown Λ G v (s.put e { n with ty := some t }) :=
  h.put hn (h.slotsExpr hn :) rfl (fun _ heq => Option.some.inj heq ▸ ht) (h.names hn :)

/-! ### The laws -/

theorem at_parts (he : Λ.At v π (.expr e)) (hn : s.program.exprs.get? e = some n) :
    ∀ y ∈ n.kind.parts, Λ.At v π y := by
  refine fun y hy => he.comesTo ((h.slotsExpr hn).comesTo hy) ?_
  rintro z rfl
  cases hk : n.kind <;> simp [hk] at hy

theorem at_parts_var {u : VarId} {d : Var} (hv : Λ.At v π (.var u))
    (hd : s.program.vars.get? u = some d) : ∀ y ∈ d.parts, Λ.At v π y := by
  refine fun y hy => hv.comesTo ((h.slotsVar hd).comesTo hy) ?_
  rintro z rfl
  simp [Var.parts] at hy

theorem at_parts_const (hk : Λ.At v π (.const k)) (hd : s.program.consts.get? k = some d) :
    ∀ y ∈ d.parts, Λ.At v π y := by
  refine fun y hy => hk.comesTo ((h.slotsConst hd).comesTo hy) ?_
  rintro z rfl
  simp [Const.parts] at hy

theorem fitsConst (hd : s.program.consts.get? k = some d) :
    Slots (Under p v.added) (p.parts (.const k)) d.parts ∧
      ∃ d0, p.consts.get? k = some d0 ∧ d.typeExpr = d0.typeExpr := by
  obtain ⟨d0, hd0, hw, -⟩ := h.consts _ _ hd
  exact ⟨h.slotsConst hd, d0, hd0, hw⟩

/-- A statement inside another stands in the loops and choices that the other puts around it. -/
theorem at_inner {x : StmtId} {m : StmtNode} {b : List Breakable × StmtId}
    (hx : Λ.At v π (.stmt x)) (hn : s.program.stmts.get? x = some m)
    (hb : b ∈ m.kind.inner π.around) : Λ.At v { π with around := b.1 } (.stmt b.2) := by
  obtain ⟨n0, hn0, ho⟩ := h.stmts x m hn
  obtain ⟨z, hz, hzx⟩ := hx.below
  refine ⟨⟨z, hz, hzx.trans ((h.slotsStmt hn).comesTo (Stmt.mem_parts_of_inner hb))⟩, ?_⟩
  rintro _ ⟨⟩
  rw [← Stmt.inner_outline, ho, Stmt.inner_outline] at hb
  exact Λ.inner (hx.occurs x rfl) hn0 hb

theorem fold {u : Literal} (hG : Interval.Family G) (hn : s.program.exprs.get? e = some n)
    (room : s.program.exprs.size < UInt32.size) :
    ∃ v', v ≤ v' ∧ Grown Λ G v' (s.grow n.line u) ∧ Under p v'.added e s.program.exprs.next := by
  have hpre : v.added <+: v.added ++ [e] := List.prefix_append _ _
  refine ⟨⟨v.added ++ [e], v.done⟩, ⟨hpre, subset_rfl⟩, h.grow hn room (Ty.Within.literal hG _),
    .single (.literal v.added.length ?_ ?_)⟩
  · exact List.getElem?_concat_length
  · rw [slot_next room, h.size]

theorem varValue {u : VarId} {d d' : Var} {a b : ExprId}
    (hf : Slots (Under p v.added) (p.parts (.var u)) d.parts) (ha : d.value = some a)
    (hb : Under p v.added a b) (hd : s.program.vars.get? u = some d') :
    Grown Λ G v (s.setVar u { d' with value := some b }) := by
  refine h.setVar hd ?_ rfl (h.types.vars _ (mem_toList_of_get? hd) :)
  -- the type is the one that is there, the value comes from the one that was
  have hnow := h.slotsVar hd
  simp only [Var.parts, ha, Option.toList, List.map] at hf hnow ⊢
  generalize p.parts (.var u) = xs at hf hnow
  rcases hf with _ | ⟨-, hf⟩
  rcases hnow with _ | ⟨htype, -⟩
  exact .cons htype (Slots.trans hf (.cons (.expr hb) .nil))

theorem visit (hd : s.program.consts.get? k = some d) (hs : d.status = .unvisited) :
    Grown Λ G v (s.setConst k { d with status := .inProgress }) := by
  refine h.setConst hd (h.slotsConst hd :) rfl rfl rfl
    (h.types.consts _ (mem_toList_of_get? hd) :) le_rfl rfl fun k' hk' => .inr ⟨?_, hk'⟩
  rintro rfl
  have := h.done _ hk' _ hd
  simp [hs] at this

theorem constValue {d' : Const} {a b : ExprId}
    (hf : Slots (Under p v.added) (p.parts (.const k)) d.parts ∧
      ∃ d0, p.consts.get? k = some d0 ∧ d.typeExpr = d0.typeExpr)
    (ha : d.value = some a) (hb : Under p v.added a b) (hd : s.program.consts.get? k = some d') :
    Grown Λ G v (s.setConst k { d' with value := some b }) := by
  refine h.setConstHere hd (hf.1.trans ?_) rfl rfl rfl rfl
    (h.types.consts _ (mem_toList_of_get? hd) :)
  obtain ⟨-, d0, hd0, hw⟩ := hf
  obtain ⟨d1, hd1, hw', -⟩ := h.consts k d' hd
  obtain rfl := hd0.some_unique hd1
  simp only [Const.parts, List.map_append, hw, hw', ha]
  exact List.rel_append (Slots.refl _) (.cons (.expr hb) .nil)

theorem finishConst (hd : s.program.consts.get? k = some d) :
    Grown Λ G ⟨v.added, insert k v.done⟩ (s.setConst k { d with status := .resolved }) := by
  refine h.setConst hd (h.slotsConst hd :) rfl rfl rfl
    (h.types.consts _ (mem_toList_of_get? hd) :) ⟨List.prefix_rfl, Set.subset_insert _ _⟩ rfl
    fun k' hk' => ?_
  by_cases hkk : k = k'
  · exact .inl ⟨hkk, rfl⟩
  · exact .inr ⟨hkk, hk'.resolve_left fun h => hkk h.symm⟩

/-- A statement whose inner jumps land, and which lands itself if it is a jump, is done. -/
theorem replaceStmt {x : StmtId} {m : StmtNode} {kind kind' : Stmt}
    (hf : Slots (Under p v.added) (p.parts (.stmt x)) kind.parts ∧
      ∃ n0, p.stmts.get? x = some n0 ∧ kind.outline = n0.kind.outline)
    (hs : Slots (Under p v.added) kind.parts kind'.parts) (ho : kind'.outline = kind.outline)
    (hl : kind.Lands π.around) (hin : ∀ b ∈ kind.inner π.around, p.JumpsLand b.1 b.2)
    (hn : s.program.stmts.get? x = some m) :
    Grown Λ G v (s.setStmt x { m with kind := kind' }) ∧ p.JumpsLand π.around x := by
  obtain ⟨hf, n0, hn0, ho0⟩ := hf
  refine ⟨h.setStmt hn rfl (hf.trans hs) ⟨n0, hn0, ho.trans ho0⟩,
    .intro hn0 ?_ fun b hb => hin b ?_⟩
  · rwa [← Stmt.lands_outline, ← ho0, Stmt.lands_outline]
  · rwa [← Stmt.inner_outline, ho0, Stmt.inner_outline]

/-- A jump that does not land may be blamed. -/
theorem jump {s' : State} {x : StmtId} {m : StmtNode} {fault : Fault} (hx : Λ.At v π (.stmt x))
    (hn : s.program.stmts.get? x = some m) (hl : ¬ m.kind.Lands π.around) (h' : Grown Λ G v s')
    (hp : s'.place = π) : Λ.Blames ⟨s'.program.path s'.file, m.line, fault⟩ := by
  obtain ⟨n0, hn0, ho⟩ := h.stmts x m hn
  have hline : Λ.Lines π.file m.line := h.line hx (by simp [Program.lines, hn])
  refine ⟨⟨_, h'.path _, by rwa [← hp] at hline⟩, fun _ => ⟨_, x, n0, hx.occurs x rfl, hn0, ?_⟩⟩
  rwa [← Stmt.lands_outline, ← ho, Stmt.lands_outline]

end

end Grown

/-- The rules of a pass that starts at a program. -/
def Locale.descent (Λ : Locale p) {G : Interval → Prop} (hG : Interval.Family G) :
    Discipline Growth where
  Holds _ := Grown Λ G
  At := Λ.At
  Gives v := Under p v.added
  Covers _ _ := True
  Held _ _ := True
  Means := Λ.Means G
  Settled v k := k ∈ v.done
  Fits v e kind := Slots (Under p v.added) (p.parts (.expr e)) kind.parts
  FitsStmt v x kind := Slots (Under p v.added) (p.parts (.stmt x)) kind.parts ∧
    ∃ n0, p.stmts.get? x = some n0 ∧ kind.outline = n0.kind.outline
  FitsVar v u d := Slots (Under p v.added) (p.parts (.var u)) d.parts
  FitsConst v k d := Slots (Under p v.added) (p.parts (.const k)) d.parts ∧
    ∃ d0, p.consts.get? k = some d0 ∧ d.typeExpr = d0.typeExpr
  Family := G
  Lines π := Λ.Lines π.file
  Blames := Λ.Blames
  Done _ π x := p.JumpsLand π.around x
  family := hG
  at_mono hv h := by
    obtain ⟨⟨y, hy, hyx⟩, ho⟩ := h
    exact ⟨⟨y, hy, hyx.mono hv.1⟩, ho⟩
  gives_mono hv := Under.mono hv.1
  covers_mono _ h := h
  held_mono _ h := h
  means_mono hv := Locale.Means.mono hv
  fits_mono hv := Slots.mono fun _ _ => Under.mono hv.1
  fitsStmt_mono hv := And.imp_left (Slots.mono fun _ _ => Under.mono hv.1)
  fitsVar_mono hv := Slots.mono fun _ _ => Under.mono hv.1
  fitsConst_mono hv := And.imp_left (Slots.mono fun _ _ => Under.mono hv.1)
  done_mono _ h := h
  place hp ht h := h.place hp ht
  at_around hx h := ⟨h.below, fun z hz => absurd hz (hx z)⟩
  owe _ h := h
  pay h _ := h
  gives_covers _ := trivial
  settled_covers _ := trivial
  done_covers _ := trivial
  hold h _ _ := ⟨_, le_rfl, h, trivial⟩
  held_name _ := trivial
  types h := h.types
  line h hx hl := h.line hx hl
  blame h hl hj := h.blame hl hj
  bound h hc hb := h.bound _ _ _ _ hc hb
  means_type h := h
  means_other {_ symbol} ht hk := by
    cases symbol with
    | type t => exact absurd rfl (ht t)
    | const k => exact absurd rfl (hk k)
    | _ => trivial
  node h he hn := ⟨h.slotsExpr hn, h.at_parts he hn, h.names hn⟩
  var h hv hd := ⟨h.slotsVar hd, h.at_parts_var hv hd⟩
  const h hk _ hd := ⟨h.fitsConst hd, h.at_parts_const hk hd⟩
  stmt h hx hn := ⟨⟨h.slotsStmt hn, h.stmts _ _ hn⟩,
    fun _ hy => hx.comesTo ((h.slotsStmt hn).comesTo hy), fun _ => h.at_inner hx hn⟩
  gives_child h hc hg := (h.under hc).trans hg
  gives_at h hg := h.comesTo hg.comesTo (by simp)
  replace h hf _ hs _ _ hm hn := ⟨_, le_rfl, h.put hn (hf.trans hs.slots) rfl
    (fun t heq => h.types.exprs _ (mem_toList_of_get? hn) t heq) hm, trivial⟩
  record h _ _ _ _ ht hn := ⟨_, le_rfl, h.record hn ht, .refl⟩
  recordLiteral h _ _ hn := ⟨_, le_rfl, h.record hn (Ty.Within.literal hG _), .refl⟩
  fold h _ hn room := h.fold hG hn room
  varValue h hf hv hg _ hd := ⟨_, le_rfl, h.varValue hf hv hg hd, trivial⟩
  varTy h _ ht _ _ hd :=
    ⟨_, le_rfl, h.setVar hd (h.slotsVar hd :) rfl fun _ heq => Option.some.inj heq ▸ ht, trivial⟩
  bindVar {_ v s π u i name t} h _ ht := h.define (show Λ.Means G v (.var u) from trivial) ht
  home h hk hd h' hh := h.home hk hd h' hh
  settle {_ v s k d} h hd hs :=
    ⟨⟨v.added, insert k v.done⟩, ⟨List.prefix_rfl, Set.subset_insert _ _⟩, h.settle hd hs,
      Set.mem_insert _ _⟩
  resolved h hk hd := h.done _ hk _ hd
  means_settled _ hk := .inr hk
  visit h _ hd hs := ⟨_, le_rfl, h.visit hd hs, h.fitsConst hd⟩
  constValue h hf hv hg _ hd := ⟨_, le_rfl, h.constValue hf hv hg hd, trivial⟩
  constTy h _ ht _ hd := h.setConstHere hd (h.slotsConst hd :) rfl rfl rfl rfl
    fun _ heq => Option.some.inj heq ▸ ht
  finishConst {_ v s k d d'} h _ _ _ hd :=
    ⟨⟨v.added, insert k v.done⟩, ⟨List.prefix_rfl, Set.subset_insert _ _⟩, h.finishConst hd,
      Set.mem_insert _ _⟩
  bindConst h _ hk ht := h.define hk ht
  setStmt h hf hs ho hl hin hn := ⟨_, le_rfl, h.replaceStmt hf hs.slots ho hl hin hn⟩
  addScope h _ := h.addScope
  jump h hx hn hl h' hp := h.jump hx hn hl h' hp

/-! ## The whole pass -/

namespace Grown

/-- In a program that tells no files apart, all but types may be named. -/
theorem means_everywhere {symbol : Symbol} (h : ∀ t, symbol = .type t → t.Within G) :
    (Locale.everywhere p).Means G v symbol := by
  cases symbol with
  | type t => exact h t rfl
  | const => exact .inl trivial
  | _ => trivial

/-- What follows the descent keeps the state grown. -/
theorem keeps {α : Type} {x : Pass α} {P : α → Prop} (hG : Interval.Family G)
    (h : ∀ π v, Obeys ((Locale.everywhere p).descent hG) π v x fun _ a => P a) (s : State) :
    Keeps (fun s => ∃ v, Grown (.everywhere p) G v s) x s fun a _ => P a := by
  refine ⟨?_⟩
  rintro ⟨v, hs⟩
  obtain ⟨v', -, hx⟩ := h s.place v (Δ := ∅) s hs rfl
  split <;> rename_i heq <;> rw [heq] at hx
  · exact ⟨⟨v', hx.1⟩, hx.2.2⟩
  · obtain ⟨⟨_, hs'⟩, -⟩ := hx
    exact ⟨v', hs'⟩

/-- Every node may be visited, if no files are told apart. -/
theorem at_everywhere (x : Node) : (Locale.everywhere p).At v π x :=
  ⟨⟨x, trivial, .refl⟩, fun _ _ => trivial⟩

section

variable (h : Grown Λ G v s)

include h

theorem setField {f : FieldId} {d : Field}
    (hd : s.program.fields.get? f = some d) (ht : t.Within G) :
    Grown Λ G v { s with program :=
      { s.program with fields := s.program.fields.set f { d with ty := some t } } } := by
  refine h.change rfl (fun x => ?_) rfl { h.types with
    fields := forall_set h.types.fields fun _ heq => Option.some.inj heq ▸ ht } (fun x => ?_)
      ⟨rfl, rfl, rfl, rfl⟩ fun _ d hd => ⟨d, hd, rfl⟩ <;>
  · cases x with
    | field => exact elim_set hd rfl
    | _ => rfl

theorem setMethod {m : MethodId} {d : Method}
    (hd : s.program.methods.get? m = some d) (ht : t.Within G) :
    Grown Λ G v { s with program :=
      { s.program with methods := s.program.methods.set m { d with ty := some t } } } := by
  refine h.change rfl (fun x => ?_) rfl { h.types with
    methods := forall_set h.types.methods fun _ heq => Option.some.inj heq ▸ ht } (fun x => ?_)
      ⟨rfl, rfl, rfl, rfl⟩ fun _ d hd => ⟨d, hd, rfl⟩ <;>
  · cases x with
    | method => exact elim_set hd rfl
    | _ => rfl

theorem setClass {c : ClassId} {d d' : ClassDecl}
    (hd : s.program.classes.get? c = some d) (ho : d'.outline = d.outline) :
    Grown Λ G v { s with program := { s.program with classes := s.program.classes.set c d' } } := by
  refine h.change rfl (fun x => ?_) rfl { h.types with } (fun x => ?_) ⟨rfl, rfl, rfl,
    rfl⟩ fun c' => ?_
  · cases x with
    | classDecl => exact elim_set hd (congrArg ClassDecl.parts ho :)
    | _ => rfl
  · cases x with
    | classDecl => exact elim_set hd (congrArg (fun d : ClassDecl => [d.line]) ho :)
    | _ => rfl
  · refine Arena.get?_set_of (P := fun o => ∀ d, o = some d → ∃ d0,
      s.program.classes.get? c' = some d0 ∧
      d.outline = d0.outline) hd (fun hc _ heq => ?_) fun d hd => ⟨d, hd, rfl⟩
    cases heq
    exact ⟨d, hc ▸ hd, ho⟩

theorem addOrdered {c : ClassId} :
    Grown Λ G v { s with program := s.program.addOrdered c } :=
  h.change rfl (fun _ => rfl) rfl { h.types with } (fun _ => rfl) ⟨rfl, rfl, rfl, rfl⟩ fun _ d hd =>
    ⟨d, hd, rfl⟩

theorem setParent {i j : ScopeId} {t : ScopeTable}
    (ht : s.table.setParent i j = .ok t) : Grown Λ G v { s with table := t } := by
  simp only [ScopeTable.setParent, Query.bind_ok, Query.pure_ok, ScopeTable.fetch_ok] at ht
  obtain ⟨c, hc, rfl⟩ := ht
  exact h.setScope hc fun _ hb => .inl hb

end

theorem lawful (p : Program) (hG : Interval.Family G) :
    Lawful (Ty.Within G) fun s => ∃ v, Grown (.everywhere p) G v s where
  place hp ht := by
    rintro ⟨v, h⟩
    exact ⟨v, h.place hp ht⟩
  addScope kind parent := by
    rintro ⟨v, h⟩
    exact ⟨v, h.addScope⟩
  bindVar ht := by
    rintro ⟨v, h⟩
    exact ⟨v, h.define (means_everywhere (by simp)) ht⟩
  void := trivial
  field ht hd := by
    rintro ⟨v, h⟩
    exact ⟨v, h.setField hd ht⟩
  method ht hd := by
    rintro ⟨v, h⟩
    exact ⟨v, h.setMethod hd ht⟩
  var ht hd := by
    rintro ⟨v, h⟩
    exact ⟨v, h.setVar hd (h.slotsVar hd :) rfl fun _ heq => Option.some.inj heq ▸ ht⟩
  type e := keeps hG fun _ _ => (Obeys.resolveType (at_everywhere _)).imp fun _ _ _ h => h.1
  const k := keeps hG fun _ _ => (Obeys.resolveConst (.inr (at_everywhere _))).imp
    fun _ _ _ _ => trivial
  stmt x := keeps hG fun _ _ => (Obeys.resolveStmt (at_everywhere _)).imp fun _ _ _ _ => trivial
  define hs ht := by
    rintro ⟨v, h⟩
    exact ⟨v, h.define (means_everywhere hs.family) ht⟩
  builtin := Ty.Within.builtin hG
  setParent ht := by
    rintro ⟨v, h⟩
    exact ⟨v, h.setParent ht⟩
  setClass hd ho _ := by
    rintro ⟨v, h⟩
    exact ⟨v, h.setClass hd ho⟩
  addOrdered _ := by
    rintro ⟨v, h⟩
    exact ⟨v, h.addOrdered⟩

/-- A program has grown from itself, if what names stand for at its start is known. -/
theorem refl (ht : s.program.Within G) (hn : ∀ n ∈ s.program.exprs.toList, ∀ text k,
      n.kind = .name text (some (.const k)) → Λ.Free k)
    (hb : ∀ (i : Nat) c name symbol, s.table.scopes[i]? = some c → (name, symbol) ∈ c.bindings →
      Λ.Means G ⟨[], ∅⟩ symbol) (hp : s.program = p) : Grown Λ G ⟨[], ∅⟩ s where
  size := by simp [hp]
  slots x := hp ▸ Slots.refl _
  consts k d hd := ⟨d, hp ▸ hd, rfl, rfl⟩
  done _ hk := absurd hk (Set.notMem_empty _)
  types := ht
  named n hn' text k hk := .inl (hn n hn' text k hk)
  bound := hb
  lines := ⟨fun _ _ => by rw [hp], by simp⟩
  stmts x n hn := ⟨n, hp ▸ hn, rfl⟩
  classes c d hd := ⟨d, hp ▸ hd, rfl⟩
  files := by rw [hp]
  globals := by rw [hp]
  enums := by rw [hp]

theorem start (ht : p.Within G) (hn : ∀ n ∈ p.exprs.toList, ∀ text k,
      n.kind = .name text (some (.const k)) → Λ.Free k) : Grown Λ G ⟨[], ∅⟩ (.start p) := by
  refine .refl ht hn (fun i c name symbol hc hb => ?_) rfl
  have : c = ⟨.program, none, []⟩ := by
    simp only [State.start, ScopeTable.initial] at hc
    cases i with
    | zero => simpa using hc.symm
    | succ => simp at hc
  simp [this] at hb

end Grown

/-- The program that comes out has grown from the one at the start. -/
theorem resolve_grown (hG : Interval.Family G) (ht : p.Within G) :
    ∃ s v, s.program = p.resolve.program ∧ Grown (.everywhere p) G v s := by
  refine (Grown.lawful p hG).resolve (P := fun q => ∃ s v,
    s.program = q ∧ Grown (.everywhere p) G v s)
    (fun s hs => ?_) ⟨_, .start ht fun _ _ _ _ _ => trivial⟩
  obtain ⟨v, h⟩ := hs
  exact ⟨s, v, rfl, h⟩

end Ci
