-- The order of classes. A class is added to the order once, after its base, and it
-- is resolved then. Nothing that follows changes the classes or their order.
import Ci.Proofs.Frame.Rules
import Ci.Proofs.Hierarchy.Circles
import Ci.Proofs.Pass.Abiding

namespace Ci

open Pass Arena

/-! ## What the order has to be -/

/-- The base of a class is the one class with the name that it gives, if it gives one. -/
def NamedBase (p : Program) : Option String → Option ClassId → Prop
  | none, base => base = none
  | some name, base => ∃ b d, base = some b ∧ p.classes.get? b = some d ∧ d.name = name ∧
    ∀ c d', p.classes.get? c = some d' → d'.name = name → c = b

/-- The classes of a program that has been resolved, as compared with those it started with. -/
structure Linearized (p q : Program) : Prop where
  /-- Every class is in the order, and none is twice. -/
  ordered : q.ordered.Perm q.classes.handles ∧ q.ordered.Nodup
  /-- There are no other classes. -/
  size : q.classes.size = p.classes.size
  /-- Every class is resolved and linked to the base it names, and is otherwise as it was. -/
  linked : ∀ c d, p.classes.get? c = some d → ∃ base,
    q.classes.get? c = some { d with status := .resolved, base } ∧ NamedBase p d.baseName base
  /-- A class comes after its base. -/
  later : ∀ c d b, q.classes.get? c = some d → d.base = some b →
    q.ordered.idxOf b < q.ordered.idxOf c

variable {p : Program} {s : State} {c : ClassId} {d : ClassDecl}

/-- No class has been visited. -/
structure FreshClasses (p : Program) : Prop where
  unvisited : ∀ d ∈ p.classes.toList, d.status = .unvisited ∧ d.base = none
  ordered : p.ordered = []

namespace Nesting

/-- The base that a class is linked to is the one that it names. -/
theorem namedBase {base : Option ClassId} {parent : ScopeId} (h : Nesting p [] s)
    (hf : FreshClasses p) (hd : p.classes.get? c = some d) (hb : Based p s c base parent) :
    NamedBase p d.baseName base ∧ ∀ b, base = some b → p.NamesBase c b := by
  rcases hb with ⟨-, d', hd', hname, rfl⟩ | ⟨b, rfl, hnames, -⟩
  · obtain rfl := hd.some_unique hd'
    rw [hname, (hf.unvisited d (mem_toList_of_get? hd)).2]
    exact ⟨rfl, by simp⟩
  · obtain ⟨d', e, hd', he, hname⟩ := id hnames
    obtain rfl := hd.some_unique hd'
    rw [hname]
    exact ⟨⟨b, e, rfl, he, rfl, fun c' e' he' => h.eq_of_name he' he⟩,
      fun b' hb' => Option.some.inj hb' ▸ hnames⟩

/-- The classes when all of them have been resolved. -/
theorem linearized {new : List ClassId} (h : Nesting p [] s) (hf : FreshClasses p)
    (ho : InOrder p new s) (hall : ∀ c ∈ p.classes.handles, ClassResolved c s) :
    Linearized p s.program := by
  have hordered : s.program.ordered = new := by rw [ho.ordered, hf.ordered, List.nil_append]
  have hlinked : ∀ c d, p.classes.get? c = some d → ∃ base,
      s.program.classes.get? c = some { d with status := .resolved, base } ∧
        NamedBase p d.baseName base ∧ ∀ b, base = some b → p.NamesBase c b := by
    intro c d hd
    obtain ⟨base, parent, ha, -, hb, -⟩ := h.linked hd (hall c (mem_handles.2 (lt_size hd)))
    exact ⟨base, ha.decl, h.namedBase hf hd hb⟩
  refine ⟨by rw [hordered, h.handles]; exact ⟨h.ordered_perm ho hall, ho.nodup⟩, h.size,
    fun c d hd => (hlinked c d hd).imp fun _ hb => ⟨hb.1, hb.2.1⟩, fun c d b hd hb => ?_⟩
  have hc : c ∈ p.classes.handles := h.handles ▸ mem_handles.2 (lt_size_of_get? hd)
  obtain ⟨d0, hd0⟩ := exists_get? (mem_handles.1 hc)
  obtain ⟨base, hd', -, hnames⟩ := hlinked c d0 hd0
  obtain rfl := hd.some_unique hd'
  rw [hordered]
  exact ho.later c b (hnames b hb) (hall c hc)

end Nesting

/-! ## What follows -/

/-- The classes and their order are the given ones. -/
def HasOrder (classes : Arena .classDecl ClassDecl) (ordered : List ClassId) (s : State) : Prop :=
  s.program.classes = classes ∧ s.program.ordered = ordered

namespace HasOrder

variable {classes : Arena .classDecl ClassDecl} {ordered : List ClassId}

theorem of_moves {α : Type} {x : Pass α} {R : State → α → State → Prop}
    (h : ∀ s, Keeps (Moves Set.univ s) x s (R s)) :
    Preserves (HasOrder classes ordered) x := fun s =>
  Preserves.of_keeps (Moves.weaken .univ (h s) fun _ hm hi =>
    ⟨hm.program.classes.trans hi.1, hm.program.ordered.trans hi.2⟩)

/-- From the constants on, nothing changes the classes or their order. -/
theorem abiding : Abiding (fun _ => True) (HasOrder classes ordered) where
  place hp _ h := by rwa [HasOrder, hp]
  addScope _ _ h := h
  bindVar _ h := h
  void := trivial
  field _ _ h := h
  method _ _ h := h
  var _ _ h := h
  type e := of_moves fun _ => Moves.resolveType (.inl trivial)
  const k := of_moves fun _ => Moves.resolveConst (.inl trivial)
  stmt x := of_moves fun _ => Moves.resolveStmt trivial

theorem resolveMembers : Preserves (HasOrder classes ordered) Resolve.resolveMembers :=
  abiding.resolveConsts.bind fun _ => Preserves.get.bind fun _ =>
    (Preserves.forM fun c _ => abiding.resolveTypes c).bind fun _ =>
      Preserves.forM fun c _ => abiding.resolveCode c

end HasOrder

/-! ## The whole pass -/

/-- Classes come out in order: each of them once, resolved, linked to the base that it names and
after that base. -/
theorem resolve_linearizes_classes (p : Program) (hf : FreshClasses p)
    (h : p.resolve.abort = none) : Linearized p p.resolve.program := by
  obtain ⟨s', run, hprogram⟩ := run_of_resolve h
  rw [Resolve.run_eq] at run
  obtain ⟨_, s0, hregister, run⟩ := bind_eq_ok.1 run
  obtain ⟨_, s1, hclasses, hmembers⟩ := bind_eq_ok.1 run
  have hdeclared := declared_of_register hregister
  have hunvisited := fun d hd => (hf.unvisited d hd).1
  obtain ⟨hnest, -, -, hall, ho⟩ :=
    (Nesting.start hunvisited hdeclared).resolveClasses.ok _ _ hclasses
  obtain ⟨new, hnew⟩ := ho [] (.start hdeclared.program hunvisited)
  have hlin := hnest.linearized hf hnew hall
  obtain ⟨hc, ho⟩ := ((HasOrder.resolveMembers s1).of_ok ⟨rfl, rfl⟩ hmembers).1
  rw [hprogram]
  exact ⟨hc ▸ ho ▸ hlin.ordered, hc ▸ hlin.size, hc ▸ hlin.linked, hc ▸ ho ▸ hlin.later⟩

/-- Three classes, each of which stands before its base. -/
def threeFloors : Program :=
  let p := (Program.empty.addClass ⟨0⟩ 1 "Attic" (some "Hall")).2
  let p := (p.addClass ⟨0⟩ 2 "Hall" (some "Cellar")).2
  (p.addClass ⟨0⟩ 3 "Cellar" none).2

theorem resolve_linearizes_three_floors :
    FreshClasses threeFloors ∧ threeFloors.resolve.abort = none ∧
      threeFloors.resolve.program.ordered = [⟨2⟩, ⟨1⟩, ⟨0⟩] ∧
      Linearized threeFloors threeFloors.resolve.program := by
  have hf : FreshClasses threeFloors := ⟨by decide +kernel, by decide +kernel⟩
  have h : threeFloors.resolve.abort = none := by decide +kernel
  exact ⟨hf, h, by decide +kernel, resolve_linearizes_classes threeFloors hf h⟩

end Ci
