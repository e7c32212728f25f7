-- The scopes of classes. A class is visited once. On the way its scope is put inside
-- that of its base, and its members are bound there. The classes that are being
-- visited form a path along the names of bases, and a visit that comes back to the
-- path has found a circle. A class is listed when it comes back from its base, so that
-- the list has each class once and after its base.
import Ci.Proofs.Naming.Declarations
import Ci.Proofs.Pass.Ends
import Mathlib.Logic.Relation

namespace Ci

open Pass Resolve Arena Query

variable {p : Program} {c : ClassId} {name : String} {members : List (String × UInt32 × Symbol)}
  {kind : ScopeKind} {names : Bindings} {t : ScopeTable} {base : Option ClassId} {status : Status}
  {d' : ClassDecl} {parent : ScopeId} {E : Abort → Prop} {s0 : State} {n : Nat}
  {recur : ClassId → Pass Unit}

/-! ## Bases by name -/

namespace Program

/-- A class names another one as its base. -/
def NamesBase (p : Program) (c b : ClassId) : Prop :=
  ∃ d d', p.classes.get? c = some d ∧ p.classes.get? b = some d' ∧ d.baseName = some d'.name

theorem not_namesBase {d : ClassDecl} (hd : p.classes.get? c = some d)
    (hname : d.baseName = none) (b : ClassId) : ¬ p.NamesBase c b := by
  rintro ⟨d', e, hd', -, hname'⟩
  rw [← hd.some_unique hd', hname] at hname'
  cases hname'

/-- The bases of a class come to an end. -/
def Grounded (p : Program) (c : ClassId) : Prop := Acc (fun b c => p.NamesBase c b) c

theorem Grounded.not_circular (h : p.Grounded c) : ¬ Relation.TransGen p.NamesBase c c := by
  induction h with
  | intro _ _ ih =>
    intro hc
    obtain ⟨b, hcb, hbc⟩ := Relation.TransGen.head'_iff.1 hc
    exact ih b hcb (.tail' hbc hcb)

/-- Every base that is named is a class. -/
def BasesNamed (p : Program) : Prop :=
  ∀ c d name, p.classes.get? c = some d → d.baseName = some name →
    ∃ b d', p.classes.get? b = some d' ∧ d'.name = name

/-- The members of each class are there, and no two of them have one name. -/
def MembersDistinct (p : Program) : Prop :=
  ∀ c d, p.classes.get? c = some d →
    ∃ members, membersOf p d = .ok members ∧ (members.map Prod.fst).Nodup

theorem mem_globalNames_classDecl :
    (name, .classDecl c) ∈ p.globalNames ↔ ∃ d, p.classes.get? c = some d ∧ d.name = name := by
  simp only [globalNames, builtinNames, classNames, enumNames, constNames, List.mem_append,
    List.mem_map, mem_named, Prod.mk.injEq, Symbol.classDecl.injEq, reduceCtorEq, and_false,
    exists_false, or_false, false_or]
  constructor
  · rintro ⟨_, -, d, hd, hname, rfl⟩
    exact ⟨d, hd, hname⟩
  · rintro ⟨d, hd, hname⟩
    exact ⟨c, mem_handles.2 (lt_size_of_get? hd), d, hd, hname, rfl⟩

end Program

/-! ## Members -/

/-- The members that are bound are those of the class, in order. -/
theorem membersOf_ok {d : ClassDecl} (h : membersOf p d = .ok members) :
    members.map (fun m => (m.1, m.2.2)) = p.memberNames d := by
  simp only [membersOf, Query.bind_ok, pure_ok] at h
  obtain ⟨consts, hc, fields, hf, methods, hm, rfl⟩ := h
  rw [mapM_fetch_ok hc, mapM_fetch_ok hf, mapM_fetch_ok hm]
  simp [Program.memberNames, Program.constNames, Program.named, List.map_filterMap,
    Function.comp_def]

/-! ## One name after another -/

variable {p : Program} {s s' s'' : State} {c b : ClassId} {d : ClassDecl} {path : List ClassId}

/-- A loop that binds names which are all different comes to its end. -/
theorem exists_forM_defineIn {i : ScopeId} {parent : Option ScopeId}
    (hc : s.table.scopes[i.slot]? = some ⟨kind, parent, names.reverse⟩)
    (hd : Distinct (names ++ members.map fun m => (m.1, m.2.2))) :
    ∃ s', (members.forM fun (name, line, symbol) => defineIn i line name symbol : Pass Unit) s
      = .ok () s' := by
  induction members generalizing s names with
  | nil => exact ⟨s, rfl⟩
  | cons m _ ih =>
    obtain ⟨name, line, symbol⟩ := m
    have hnew : (⟨kind, parent, names.reverse⟩ : Scope).find? name = none := by
      refine List.lookup_eq_none_iff.2 fun x hx => ?_
      have := (List.nodup_append.1 (by simpa [Distinct] using hd)).2.2 x.1
        (List.mem_map_of_mem (by simpa using hx)) name (by simp)
      simpa using Ne.symm this
    have hdef : s.table.define? i name symbol = .ok (some (s.table.set i
        ⟨kind, parent, (name, symbol) :: names.reverse⟩)) := by
      simp only [ScopeTable.define?, Query.bind_ok, ScopeTable.fetch_ok]
      exact ⟨_, hc, by rw [hnew]; rfl⟩
    have hset : (s.table.set i ⟨kind, parent, (name, symbol) :: names.reverse⟩).scopes[i.slot]?
        = some ⟨kind, parent, (names ++ [(name, symbol)]).reverse⟩ := by
      rw [List.reverse_append]
      exact ScopeTable.getElem?_set_self hc
    obtain ⟨s', hs'⟩ := ih (s := { s with table := _ }) hset (by simpa using hd)
    exact ⟨s', forM_cons_eq_ok.2 ⟨_, defineIn_eq_ok.2 ⟨_, hdef, rfl⟩, hs'⟩⟩

theorem ScopeTable.lookup_root (h : t.scopes[0]? = some ⟨kind, none, names⟩) :
    t.lookup .program name = .ok (names.lookup name) := by
  obtain ⟨hi, -⟩ := Array.getElem?_eq_some_iff.1 h
  obtain ⟨n, hn⟩ := Nat.exists_eq_succ_of_ne_zero (Nat.ne_of_gt hi)
  have hf : t.fetch .program = .ok ⟨kind, none, names⟩ := ScopeTable.fetch_ok.2 h
  simp only [ScopeTable.lookup, hn, ScopeTable.search, hf]
  cases hl : Scope.find? ⟨kind, none, names⟩ name with
  | some =>
    refine Eq.trans ?_ (congrArg Except.ok hl.symm)
    simp only [bind, Except.bind, hl]
    rfl
  | none =>
    refine Eq.trans ?_ (congrArg Except.ok hl.symm)
    simp only [bind, Except.bind, hl, if_true]
    cases n <;> rfl

/-- The state with another class in a slot. -/
def Pass.State.setClass (s : State) (c : ClassId) (d : ClassDecl) : State :=
  { s with program := { s.program with classes := s.program.classes.set c d } }

theorem setBase_ok (hd : s.program.classes.get? c = some d) :
    change (·.setBase c base) s = .ok () (s.setClass c { d with base }) :=
  change_eq_ok.2 ⟨_, Program.updateClass_ok.2 ⟨d, hd, rfl⟩, rfl⟩

theorem markClass_ok (hd : s.program.classes.get? c = some d) :
    change ((Visited.classDecl c).mark status) s = .ok () (s.setClass c { d with status }) :=
  change_eq_ok.2 ⟨_, Program.updateClass_ok.2 ⟨d, hd, rfl⟩, rfl⟩

/-! ## The order -/

/-- The class is resolved. -/
def ClassResolved (c : ClassId) (s : State) : Prop :=
  ∃ d, s.program.classes.get? c = some d ∧ d.status = .resolved

/-- What has been visited is left alone. -/
def LeavesVisited (s s' : State) : Prop :=
  ∀ c d, s.program.classes.get? c = some d → d.status ≠ .unvisited →
    s'.program.classes.get? c = some d

theorem LeavesVisited.trans (h : LeavesVisited s s') (h' : LeavesVisited s' s'') :
    LeavesVisited s s'' := fun c d hd hs => h' c d (h c d hd hs) hs

theorem classResolved_setClass (hc : c ≠ b) :
    ClassResolved b (s.setClass c d) ↔ ClassResolved b s := by
  simp only [ClassResolved, State.setClass, Arena.get?_set_of_ne hc]

/-- The classes that are resolved have been listed, each of them once and after its base. -/
structure InOrder (p : Program) (new : List ClassId) (s : State) : Prop where
  ordered : s.program.ordered = p.ordered ++ new
  nodup : new.Nodup
  mem : ∀ c, c ∈ new ↔ ClassResolved c s
  later : ∀ c b, p.NamesBase c b → ClassResolved c s → new.idxOf b < new.idxOf c

/-- The order goes on from one state to another. -/
def KeepsOrder (p : Program) (s s' : State) : Prop :=
  ∀ new, InOrder p new s → ∃ new', InOrder p new' s'

namespace InOrder

variable {new : List ClassId}

theorem start (hp : s.program = p) (hu : ∀ d ∈ p.classes.toList, d.status = .unvisited) :
    InOrder p [] s := by
  have hnone : ∀ c, ¬ ClassResolved c s := by
    rintro c ⟨d, hd, hs⟩
    rw [hu d (mem_toList_of_get? (hp ▸ hd))] at hs
    cases hs
  exact ⟨by simp [hp], List.nodup_nil, by simpa using hnone, fun c _ _ hc => absurd hc (hnone c)⟩

theorem of_program (h : InOrder p new s) (hp : s'.program = s.program) : InOrder p new s' := by
  obtain ⟨ho, hn, hm, hl⟩ := h
  exact ⟨hp ▸ ho, hn, by simpa only [ClassResolved, hp] using hm,
    by simpa only [ClassResolved, hp] using hl⟩

/-- A class that is not resolved changes. -/
theorem setClass (h : InOrder p new s) (hd : s.program.classes.get? c = some d)
    (hr : d.status ≠ .resolved) (hr' : d'.status ≠ .resolved) :
    InOrder p new (s.setClass c d') := by
  have hres : ∀ b, ClassResolved b (s.setClass c d') ↔ ClassResolved b s := by
    intro b
    by_cases hc : c = b
    · subst hc
      constructor
      · rintro ⟨e, he, hs⟩
        exact absurd ((Arena.get?_set_self hd).some_unique he ▸ hs) hr'
      · rintro ⟨e, he, hs⟩
        exact absurd (hd.some_unique he ▸ hs) hr
    · exact classResolved_setClass hc
  exact ⟨h.ordered, h.nodup, fun b => (h.mem b).trans (hres b).symm,
    fun b b' hb hs => h.later b b' hb ((hres b).1 hs)⟩

/-- A class whose base is listed comes behind it, and is resolved then. -/
theorem finish (h : InOrder p new s) (hp : s'.program = s.program.addOrdered c)
    (hd : s'.program.classes.get? c = some d) (hr : d.status ≠ .resolved)
    (hr' : d'.status = .resolved) (hb : ∀ b, p.NamesBase c b → ClassResolved b s') :
    InOrder p (new ++ [c]) (s'.setClass c d') := by
  have hres : ∀ b, ClassResolved b s' ↔ b ∈ new := fun b => by
    rw [h.mem, ClassResolved, hp, ClassResolved]
    rfl
  have hnew : c ∉ new := by
    rw [← hres]
    rintro ⟨e, he, hs⟩
    exact hr (hd.some_unique he ▸ hs)
  have hmem : ∀ b, b ∈ new ++ [c] ↔ ClassResolved b (s'.setClass c d') := by
    intro b
    rw [List.mem_append, List.mem_singleton]
    by_cases hc : c = b
    · subst hc
      exact ⟨fun _ => ⟨d', Arena.get?_set_self hd, hr'⟩, fun _ => .inr rfl⟩
    · rw [classResolved_setClass hc, hres, or_iff_left (Ne.symm hc)]
  refine ⟨?_, List.concat_eq_append ▸ h.nodup.concat hnew, hmem, fun b b' hbb' hb' => ?_⟩
  · rw [← List.append_assoc, ← h.ordered]
    exact congrArg Program.ordered hp
  · rcases List.mem_append.1 ((hmem b).2 hb') with hin | hin
    · have hlt := h.later b b' hbb' ((h.mem b).1 hin)
      have hin' := List.idxOf_lt_length_iff.1 (hlt.trans_le List.idxOf_le_length)
      rwa [List.idxOf_append_of_mem hin', List.idxOf_append_of_mem hin]
    · obtain rfl := List.mem_singleton.1 hin
      have hin' := (hres b').1 (hb b' hbb')
      rw [List.idxOf_append_of_mem hin', List.idxOf_append_of_notMem hnew]
      exact (List.idxOf_lt_length_iff.2 hin').trans_le (Nat.le_add_right _ _)

end InOrder

/-! ## On the way -/

/-- The number of the scope of a class. These scopes come right after that of the program. -/
def classSlot (c : ClassId) : ScopeId := ⟨c.slot + 1⟩

/-- The number of the scope of an enumeration. -/
def Program.enumSlot (p : Program) (e : EnumId) : ScopeId := ⟨p.classes.size + e.slot + 1⟩

/-- A class and its scope on the way. -/
structure ClassAt (s : State) (c : ClassId) (d : ClassDecl) (status : Status)
    (base : Option ClassId) (parent : ScopeId) (names : Bindings) : Prop where
  decl : s.program.classes.get? c = some { d with status, base }
  scope : s.table.scopes[(classSlot c).slot]? = some ⟨.classDecl c, some parent, names⟩

/-- The base of a class is the one that it names, and its scope stands inside that of the base. -/
def Based (p : Program) (s : State) (c : ClassId) (base : Option ClassId) (parent : ScopeId) :
    Prop :=
  (parent = .program ∧ ∃ d, p.classes.get? c = some d ∧ d.baseName = none ∧ base = d.base) ∨
    ∃ b, base = some b ∧ p.NamesBase c b ∧ parent = classSlot b ∧ ClassResolved b s

/-- How far a class has come. The classes of the path are being visited. -/
inductive Stage (p : Program) (path : List ClassId) (s : State) (c : ClassId) (d : ClassDecl) : Prop
  | unvisited (h : ClassAt s c d .unvisited d.base .program []) (hc : c ∉ path)
  | inProgress {base : Option ClassId} {parent : ScopeId} {names : Bindings}
    (h : ClassAt s c d .inProgress base parent names) (hc : c ∈ path)
  | resolved {base : Option ClassId} {parent : ScopeId}
    (h : ClassAt s c d .resolved base parent (p.memberNames d).reverse)
    (hd : Distinct (p.memberNames d)) (hb : Based p s c base parent) (hg : p.Grounded c)
    (hc : c ∉ path)

/-- The classes and the scopes of a program while the classes are visited. -/
structure Nesting (p : Program) (path : List ClassId) (s : State) : Prop where
  program : ∃ classes ordered, s.program = { p with classes, ordered }
  size : s.program.classes.size = p.classes.size
  distinct : Distinct p.globalNames
  root : s.table.scopes[0]? = some ⟨.program, none, p.globalNames.reverse⟩
  slots : s.table.scopes.size = p.classes.size + p.enums.size + 1
  enums : ∀ e : EnumId, e.slot < p.enums.size →
    s.table.scopes[(p.enumSlot e).slot]? = some (p.enumScope e)
  classScopes : ∀ c : ClassId, c.slot < p.classes.size → s.classScopes.get? c = some (classSlot c)
  enumScopes : ∀ e : EnumId, e.slot < p.enums.size → s.enumScopes.get? e = some (p.enumSlot e)
  classScopes_size : s.classScopes.size = p.classes.size
  enumScopes_size : s.enumScopes.size = p.enums.size
  stage : ∀ c d, p.classes.get? c = some d → Stage p path s c d
  nodup : path.Nodup
  known : ∀ c ∈ path, c.slot < p.classes.size

/-- A step that changes one class and its scope. -/
structure Touches (c : ClassId) (s s' : State) : Prop where
  program : ∃ classes ordered, s'.program = { s.program with classes, ordered }
  size : s'.program.classes.size = s.program.classes.size
  classes : ∀ c', c ≠ c' → s'.program.classes.get? c' = s.program.classes.get? c'
  slots : s'.table.scopes.size = s.table.scopes.size
  scopes : ∀ i, i ≠ (classSlot c).slot → s'.table.scopes[i]? = s.table.scopes[i]?
  classScopes : s'.classScopes = s.classScopes
  enumScopes : s'.enumScopes = s.enumScopes
  method : s'.method = s.method
  breakables : s'.breakables = s.breakables

namespace Touches

theorem trans (h : Touches c s s') (h' : Touches c s' s'') : Touches c s s'' := by
  refine ⟨?_, h'.size.trans h.size, fun c' hc => (h'.classes c' hc).trans (h.classes c' hc),
    h'.slots.trans h.slots, fun i hi => (h'.scopes i hi).trans (h.scopes i hi),
    h'.classScopes.trans h.classScopes, h'.enumScopes.trans h.enumScopes,
    h'.method.trans h.method, h'.breakables.trans h.breakables⟩
  obtain ⟨classes, ordered, hp⟩ := h.program
  obtain ⟨classes', ordered', hp'⟩ := h'.program
  exact ⟨classes', ordered', by rw [hp', hp]⟩

theorem setClass : Touches c s (s.setClass c d) :=
  ⟨⟨_, _, rfl⟩, size_set, fun _ hc => Arena.get?_set_of_ne hc, rfl, fun _ _ => rfl, rfl, rfl, rfl,
    rfl⟩

theorem addOrdered : Touches c s { s with program := s.program.addOrdered c } :=
  ⟨⟨_, _, rfl⟩, rfl, fun _ _ => rfl, rfl, fun _ _ => rfl, rfl, rfl, rfl, rfl⟩

theorem setScope {scope : Scope} : Touches c s { s with
    table := s.table.set (classSlot c) scope } :=
  ⟨⟨_, _, rfl⟩, rfl, fun _ _ => rfl, by simp [ScopeTable.set],
    fun _ hi => ScopeTable.getElem?_set_of_ne hi.symm, rfl, rfl, rfl, rfl⟩

theorem move {f : FileId} {i : ScopeId} : Touches c s { s with
    file := f
    table := s.table.enter i } :=
  ⟨⟨_, _, rfl⟩, rfl, fun _ _ => rfl, rfl, fun _ _ => rfl, rfl, rfl, rfl, rfl⟩

theorem classResolved (h : Touches c s s') (hc : c ≠ b) (hb : ClassResolved b s) :
    ClassResolved b s' := by
  obtain ⟨d, hd, hr⟩ := hb
  exact ⟨d, (h.classes b hc).trans hd, hr⟩

/-- Another class stays where it is. -/
theorem classAt (h : Touches c s s') (hc : c ≠ b) (ha : ClassAt s b d status base parent names) :
    ClassAt s' b d status base parent names := by
  refine ⟨(h.classes b hc).trans ha.decl, (h.scopes _ fun e => hc ?_).trans ha.scope⟩
  have : b.slot = c.slot := by simpa [classSlot] using e
  exact (Handle.slot_inj.1 this).symm

end Touches

/-- A base that is resolved stays so when another class goes on. -/
theorem Based.touch {c' : ClassId}
    (h : Based p s c' base parent) (ht : Touches c s s') (hr : ¬ ClassResolved c s) :
    Based p s' c' base parent := by
  rcases h with h | ⟨b, hb, hnames, hpar, hres⟩
  · exact .inl h
  · refine .inr ⟨b, hb, hnames, hpar, ht.classResolved ?_ hres⟩
    rintro rfl
    exact hr hres

/-- The classes that have been visited are left alone, and so is the place. -/
structure Leaves (s s' : State) : Prop where
  visited : ∀ c d, s.program.classes.get? c = some d → d.status ≠ .unvisited →
    s'.program.classes.get? c = some d ∧
      s'.table.scopes[(classSlot c).slot]? = s.table.scopes[(classSlot c).slot]?
  method : s'.method = s.method
  breakables : s'.breakables = s.breakables

namespace Leaves

theorem refl (s : State) : Leaves s s := ⟨fun _ _ h _ => ⟨h, rfl⟩, rfl, rfl⟩

theorem trans (h : Leaves s s') (h' : Leaves s' s'') : Leaves s s'' := by
  refine ⟨fun c d hd hs => ?_, h'.method.trans h.method, h'.breakables.trans h.breakables⟩
  obtain ⟨hd1, hc1⟩ := h.visited c d hd hs
  obtain ⟨hd2, hc2⟩ := h'.visited c d hd1 hs
  exact ⟨hd2, hc2.trans hc1⟩

theorem classAt
    (h : Leaves s s') (hs : status ≠ .unvisited) (ha : ClassAt s c d status base parent names) :
    ClassAt s' c d status base parent names := by
  obtain ⟨hd, hc⟩ := h.visited c _ ha.decl hs
  exact ⟨hd, hc.trans ha.scope⟩

theorem classResolved (h : Leaves s s') (hb : ClassResolved b s) : ClassResolved b s' := by
  obtain ⟨d, hd, hr⟩ := hb
  exact ⟨d, (h.visited b d hd (by simp [hr])).1, hr⟩

/-- A class that had not been visited goes on. -/
theorem touch (h : Leaves s s') (ht : Touches c s' s'')
    (hu : ∀ d, s.program.classes.get? c = some d → d.status = .unvisited) : Leaves s s'' := by
  refine ⟨fun c' d' hd' hs' => ?_, ht.method.trans h.method, ht.breakables.trans h.breakables⟩
  have hc : c ≠ c' := by
    rintro rfl
    exact hs' (hu d' hd')
  obtain ⟨hd1, hc1⟩ := h.visited c' d' hd' hs'
  refine ⟨(ht.classes c' hc).trans hd1, (ht.scopes _ fun e => hc ?_).trans hc1⟩
  have : c'.slot = c.slot := by simpa [classSlot] using e
  exact (Handle.slot_inj.1 this).symm

end Leaves

theorem ClassAt.set_table {file : FileId} (h : ClassAt s c d status base parent names)
    (ht : t.scopes = s.table.scopes) :
    ClassAt { s with table := t, file := file } c d status base parent names :=
  ⟨h.decl, by rw [ht]; exact h.scope⟩

theorem ClassAt.setClass (h : ClassAt s c d status base parent names) (status' : Status)
    (base' : Option ClassId) :
    ClassAt (s.setClass c { d with status := status', base := base' }) c d status' base' parent
      names :=
  ⟨Arena.get?_set_self h.decl, h.scope⟩

namespace Nesting

/-- The class is one of the program. -/
theorem lt_size (hd : p.classes.get? c = some d) : c.slot < p.classes.size :=
  lt_size_of_get? hd

section

variable (h : Nesting p path s)

include h

theorem handles : s.program.classes.handles = p.classes.handles := by
  rw [Arena.handles, h.size, Arena.handles]

theorem classes_nodup : p.classes.handles.Nodup := by
  have hsub : (p.classNames p.classes.handles).Sublist p.globalNames :=
    ((List.sublist_append_right _ _).trans (List.sublist_append_left _ _)).trans
      (List.sublist_append_left _ _)
  exact Program.handles_nodup (h.distinct.sublist hsub)

/-- Once all classes are resolved, all of them are listed. -/
theorem ordered_perm {new : List ClassId} (ho : InOrder p new s)
    (hall : ∀ c ∈ p.classes.handles, ClassResolved c s) : new.Perm p.classes.handles := by
  refine (List.perm_ext_iff_of_nodup ho.nodup h.classes_nodup).2 fun c => ?_
  refine ⟨fun hc => ?_, fun hc => (ho.mem c).2 (hall c hc)⟩
  obtain ⟨d, hd, -⟩ := (ho.mem c).1 hc
  exact h.handles ▸ mem_handles.2 (lt_size_of_get? hd)

/-- One class goes on, and the path with it. -/
theorem touch {path' : List ClassId} (ht : Touches c s s')
    (hd : p.classes.get? c = some d) (hr : ¬ ClassResolved c s) (hs : Stage p path' s' c d)
    (hpath : ∀ c', c ≠ c' → (c' ∈ path' ↔ c' ∈ path)) (hn : path'.Nodup) : Nesting p path' s' := by
  have hslot : ∀ i, i < (classSlot c).slot ∨ (classSlot c).slot < i →
      s'.table.scopes[i]? = s.table.scopes[i]? := fun i hi => ht.scopes i (by omega)
  have hc := lt_size hd
  refine ⟨?_, ht.size.trans h.size, h.distinct, ?_, ht.slots.trans h.slots, fun e he => ?_,
    fun c' hc' => ?_, fun e he => ?_, ht.classScopes ▸ h.classScopes_size,
    ht.enumScopes ▸ h.enumScopes_size, fun c' d' hd' => ?_, hn, fun c' hc' => ?_⟩
  · obtain ⟨classes, ordered, hp⟩ := h.program
    obtain ⟨classes', ordered', hp'⟩ := ht.program
    exact ⟨classes', ordered', by rw [hp', hp]⟩
  · exact (hslot 0 (.inl (by simp [classSlot]))).trans h.root
  · refine (hslot _ (.inr ?_)).trans (h.enums e he)
    simp only [classSlot, Program.enumSlot]
    omega
  · rw [ht.classScopes]
    exact h.classScopes c' hc'
  · rw [ht.enumScopes]
    exact h.enumScopes e he
  · by_cases hcc : c = c'
    · subst hcc
      obtain rfl := hd.some_unique hd'
      exact hs
    · cases h.stage c' d' hd' with
      | unvisited ha hp => exact .unvisited (ht.classAt hcc ha) fun hm => hp ((hpath c' hcc).1 hm)
      | inProgress ha hp => exact .inProgress (ht.classAt hcc ha) ((hpath c' hcc).2 hp)
      | resolved ha hdist hb hg hp =>
        exact .resolved (ht.classAt hcc ha) hdist (hb.touch ht hr) hg fun hm =>
          hp ((hpath c' hcc).1 hm)
  · by_cases hcc : c = c'
    · exact hcc ▸ hc
    · exact h.known c' ((hpath c' hcc).1 hc')

/-- The place does not matter. -/
theorem move {file : FileId}
    (ht : t.scopes = s.table.scopes) : Nesting p path { s with table := t, file := file } := by
  refine ⟨h.program, h.size, h.distinct, ht ▸ h.root, ht ▸ h.slots, fun e he => ht ▸ h.enums e he,
    h.classScopes, h.enumScopes, h.classScopes_size, h.enumScopes_size, fun c d hd => ?_, h.nodup,
    h.known⟩
  cases h.stage c d hd with
  | unvisited ha hp => exact .unvisited (ha.set_table ht) hp
  | inProgress ha hp => exact .inProgress (ha.set_table ht) hp
  | resolved ha hdist hb hg hp => exact .resolved (ha.set_table ht) hdist hb hg hp

/-- A path that meets no class twice is no longer than the list of classes. -/
theorem length_path : path.length ≤ p.classes.size := by
  have hn : (path.map Handle.slot).Nodup :=
    h.nodup.map fun _ _ e => Handle.slot_inj.1 e
  have hsub : path.map Handle.slot ⊆ List.range p.classes.size := by
    intro i hi
    obtain ⟨c, hc, rfl⟩ := List.mem_map.1 hi
    exact List.mem_range.2 (h.known c hc)
  simpa using (hn.subperm hsub).length_le

end

theorem not_resolved (h : ClassAt s c d status base parent names) (hs : status ≠ .resolved) :
    ¬ ClassResolved c s := by
  rintro ⟨d', hd', hr⟩
  obtain rfl := h.decl.some_unique hd'
  exact hs hr

section

variable (h : Nesting p path s)

include h

/-- A class is known by its name. -/
theorem eq_of_name {b' : ClassId}
    (hd : p.classes.get? b = some d) (hd' : p.classes.get? b' = some d')
    (hname : d.name = d'.name) :
    b = b' := by
  have := h.distinct.eq_of_mem (Program.mem_globalNames_classDecl.2 ⟨d, hd, rfl⟩)
    (Program.mem_globalNames_classDecl.2 ⟨d', hd', hname.symm⟩)
  simpa using this

theorem eq_of_namesBase {b' : ClassId} (hb : p.NamesBase c b) (hb' : p.NamesBase c b') :
    b = b' := by
  obtain ⟨d, e, hd, he, hname⟩ := hb
  obtain ⟨d', e', hd', he', hname'⟩ := hb'
  obtain rfl := hd.some_unique hd'
  exact h.eq_of_name he he' (hname.some_unique hname')

/-- A class that is resolved has its members and its base. -/
theorem linked (hd : p.classes.get? c = some d) (hr : ClassResolved c s) :
    ∃ base parent, ClassAt s c d .resolved base parent (p.memberNames d).reverse ∧
      Distinct (p.memberNames d) ∧ Based p s c base parent ∧ p.Grounded c := by
  cases h.stage c d hd with
  | resolved ha hm hb hg => exact ⟨_, _, ha, hm, hb, hg⟩
  | unvisited ha => exact absurd hr (not_resolved ha (by simp))
  | inProgress ha => exact absurd hr (not_resolved ha (by simp))

theorem grounded_of_resolved (hb : ClassResolved b s)
    (hd : p.classes.get? b = some d) : p.Grounded b := by
  obtain ⟨-, -, -, -, -, hg⟩ := h.linked hd hb
  exact hg

/-- The bases of a class come to an end when those of its base do. -/
theorem grounded (hb : Based p s c base parent) : p.Grounded c := by
  refine ⟨c, fun b hcb => ?_⟩
  rcases hb with ⟨-, d, hd, hname, -⟩ | ⟨b', -, hcb', -, hres⟩
  · exact absurd hcb (Program.not_namesBase hd hname b)
  · obtain rfl := h.eq_of_namesBase hcb hcb'
    obtain ⟨-, d', -, hd', -⟩ := hcb
    exact h.grounded_of_resolved hres hd'

end

/-! ## Faults -/

/-- The program is fit for a class hierarchy, apart from circles. -/
structure Sane (p : Program) : Prop where
  bases : p.BasesNamed
  members : p.MembersDistinct

/-- A class is named that leads back to itself, or to which the path leads. -/
def Blames (p : Program) (path : List ClassId) (c : ClassId) (a : Abort) : Prop :=
  ∃ file line c' d, a = .fault ⟨file, line, .circularInheritance d.name⟩ ∧
    p.classes.get? c' = some d ∧ (Relation.TransGen p.NamesBase c' c' ∨
      c' ∈ path ∧ Relation.ReflTransGen p.NamesBase c c')

/-- Why the visit of a class stops. The depth has to be enough. -/
def Stops (p : Program) (n : Nat) (path : List ClassId) (c : ClassId) (a : Abort) : Prop :=
  Sane p → p.classes.size < n + path.length → Blames p path c a

/-- What stops the visit of a base stops that of the class. -/
theorem Blames.derived {a : Abort} (h : Blames p (c :: path) b a) (hb : p.NamesBase c b) :
    Blames p path c a := by
  obtain ⟨file, line, c', d, ha, hd, hcirc | ⟨hmem, hreach⟩⟩ := h
  · exact ⟨file, line, c', d, ha, hd, .inl hcirc⟩
  · rcases List.mem_cons.1 hmem with rfl | hmem
    · exact ⟨file, line, c', d, ha, hd, .inl (.head' hb hreach)⟩
    · exact ⟨file, line, c', d, ha, hd, .inr ⟨hmem, .head hb hreach⟩⟩

/-! ## One class -/

/-- The classes that are visited first. -/
def Visits (p : Program) (n : Nat) (recur : ClassId → Pass Unit) : Prop :=
  ∀ path s c d, Nesting p path s → p.classes.get? c = some d →
    Ends (Stops p n path c) (recur c) s fun _ s' => Nesting p path s' ∧ Leaves s s' ∧
      ClassResolved c s' ∧ s'.table.current = s.table.current ∧ KeepsOrder p s s'

theorem lookupGlobal (h : Nesting p path s) (name : String) :
    s.table.lookup .program name = .ok (p.globalNames.lookup name) := by
  rw [ScopeTable.lookup_root h.root, h.distinct.lookup_reverse]

theorem findBase {line : UInt32} (hE : ∀ a, ¬ Sane p → E a)
    (h : Nesting p path s) (hd : p.classes.get? c = some d) (hname : d.baseName = some name) :
    Ends E (Resolve.findBase line name) s fun b s' =>
      s' = s ∧ p.NamesBase c b ∧ ∃ d', p.classes.get? b = some d' := by
  refine Ends.bind_of_ok (lookupGlobal_eq_ok.2 ⟨h.lookupGlobal name, rfl⟩) ?_
  split
  · rename_i b hl
    obtain ⟨d', hd', hn⟩ := Program.mem_globalNames_classDecl.1 (h.distinct.lookup_eq_some.1 hl)
    exact .pure ⟨rfl, ⟨d, d', hd, hd', by rw [hname, hn]⟩, d', hd'⟩
  · rename_i hl
    refine .fail (hE _ fun hsane => ?_)
    obtain ⟨b, d', hd', hn⟩ := hsane.bases c d name hd hname
    exact absurd (h.distinct.lookup_eq_some.2
      (Program.mem_globalNames_classDecl.2 ⟨d', hd', hn⟩)) (hl b)

theorem fetch (h : Nesting p path s) (hd : p.classes.get? c = some d) :
    ∃ status base, s.program.classes.get? c = some { d with status, base } := by
  cases h.stage c d hd with
  | unvisited ha => exact ⟨_, _, ha.decl⟩
  | inProgress ha => exact ⟨_, _, ha.decl⟩
  | resolved ha => exact ⟨_, _, ha.decl⟩

/-- The scope of a class is put inside that of its base. -/
theorem nestScope (h : Nesting p path s) (hd : p.classes.get? c = some d)
    (hb : b.slot < p.classes.size)
    (ha : ClassAt s c d .inProgress base .program []) : Ends E (Resolve.nestScope c b) s fun _ s' =>
      Touches c s s' ∧ ClassAt s' c d .inProgress base (classSlot b) [] ∧
      s'.program = s.program := by
  have hset : s.table.setParent (classSlot c) (classSlot b) = .ok (s.table.set (classSlot c)
      ⟨.classDecl c, some (classSlot b), []⟩) := by
    simp only [ScopeTable.setParent, Query.bind_ok, pure_ok, ScopeTable.fetch_ok]
    exact ⟨_, ha.scope, rfl⟩
  have hrun : Resolve.nestScope c b s = .ok () { s with
      table := s.table.set (classSlot c) ⟨.classDecl c, some (classSlot b), []⟩ } := by
    simp only [Resolve.nestScope, bind_eq_ok, classScope_eq_ok, askTable_eq_ok, modify_eq_ok]
    exact ⟨_, _, ⟨h.classScopes c (lt_size hd), rfl⟩, _, _, ⟨h.classScopes b hb, rfl⟩, _, _,
      ⟨hset, rfl⟩, rfl⟩
  exact .of_ok hrun ⟨.setScope, ⟨ha.decl, ScopeTable.getElem?_set_self ha.scope⟩, rfl⟩

/-- What is known while a class goes on: what had been visited before is left alone. -/
structure Going (p : Program) (path : List ClassId) (c : ClassId) (d : ClassDecl)
    (base : Option ClassId) (parent : ScopeId) (names : Bindings) (s0 s : State) : Prop where
  nesting : Nesting p (c :: path) s
  here : ClassAt s c d .inProgress base parent names
  leaves : Leaves s0 s
  fresh : ∀ d, s0.program.classes.get? c = some d → d.status = .unvisited

theorem Going.touch {base' : Option ClassId} {parent' : ScopeId} {names' : Bindings}
    (h : Going p path c d base parent names s0 s) (hd : p.classes.get? c = some d)
    (ht : Touches c s s') (ha : ClassAt s' c d .inProgress base' parent' names') :
    Going p path c d base' parent' names' s0 s' := by
  refine ⟨h.nesting.touch ht hd (not_resolved h.here (by simp)) (.inProgress ha (by simp))
    (fun _ _ => Iff.rfl) h.nesting.nodup, ha, h.leaves.touch ht h.fresh, h.fresh⟩

theorem linkBase (hrec : Visits p n recur)
    (hd : p.classes.get? c = some d) (h : Going p path c d d.base .program [] s0 s) :
    Ends (Stops p (n + 1) path c) (Resolve.linkBase recur c) s fun _ s' =>
      ∃ base parent, Going p path c d base parent [] s0 s' ∧ Based p s' c base parent ∧
        KeepsOrder p s s' := by
  refine .bind_of_ok (ask_eq_ok.2 ⟨Arena.fetch_ok.2 h.here.decl, rfl⟩) ?_
  dsimp only
  split
  · rename_i hname
    exact .pure ⟨d.base, .program, h, .inl ⟨rfl, d, hd, hname, rfl⟩, fun new ho => ⟨new, ho⟩⟩
  · rename_i name hname
    refine (h.nesting.findBase (fun _ hs hsane => absurd hsane hs) hd hname).bind ?_
    rintro b _ ⟨rfl, hb, d', hd'⟩
    refine .bind_of_ok (setBase_ok h.here.decl) ?_
    have h1 := h.touch hd .setClass (h.here.setClass .inProgress (some b))
    refine ((hrec _ _ b d' h1.nesting hd').mono (fun _ _ hq => hq) fun a ha hsane hn =>
      (ha hsane (by simpa using by omega)).derived hb).bind ?_
    rintro _ s2 ⟨h2, hl2, hr2, -, ho2⟩
    have here2 := hl2.classAt (by simp) h1.here
    refine (h2.nestScope hd (lt_size hd') here2).mono ?_ fun _ ha => ha
    rintro _ s3 ⟨ht, here3, hprogram⟩
    have hcb : c ≠ b := by
      rintro rfl
      exact not_resolved here2 (by simp) hr2
    have h2' : Going p path c d (some b) .program [] s0 s2 :=
      ⟨h2, here2, h1.leaves.trans hl2, h.fresh⟩
    exact ⟨some b, classSlot b, h2'.touch hd ht here3,
      .inr ⟨b, rfl, hb, rfl, ht.classResolved hcb hr2⟩, fun new ho =>
        (ho2 new (ho.setClass h.here.decl (by simp) (by simp))).imp fun _ h =>
          h.of_program hprogram⟩

/-- The members of a class are bound in its scope, which has been empty. -/
theorem bindMembers (hE : ∀ a, ¬ Sane p → E a) (hd : p.classes.get? c = some d)
    (h : Going p path c d base parent [] s0 s) :
    Ends E (Resolve.bindMembers c) s fun _ s' => Distinct (p.memberNames d) ∧ Touches c s s' ∧
      Going p path c d base parent (p.memberNames d).reverse s0 s' ∧ s'.program = s.program := by
  refine .bind_of_ok (classScope_eq_ok.2 ⟨h.nesting.classScopes c (lt_size hd), rfl⟩) ?_
  obtain ⟨classes, ordered, hp⟩ := h.nesting.program
  have hmembers : (do membersOf s.program (← s.program.classes.fetch c))
      = membersOf p d := by
    rw [Arena.fetch_ok.2 h.here.decl, hp]
    rfl
  have hq : Ends E (ask fun p => do membersOf p (← p.classes.fetch c)) s fun members s' =>
      s' = s ∧ membersOf p d = .ok members := by
    refine ⟨fun members s' hm => ?_, fun a s' ha => hE a fun hsane => ?_⟩
    · obtain ⟨hm, rfl⟩ := ask_eq_ok.1 hm
      exact ⟨rfl, hmembers.symm.trans hm⟩
    · obtain ⟨members, hm, -⟩ := hsane.members c d hd
      rw [ask_eq_ok.2 ⟨hmembers.trans hm, rfl⟩] at ha
      cases ha
  refine hq.bind ?_
  rintro members s1 ⟨hs, hm⟩
  rw [hs]
  have hnames := membersOf_ok hm
  have hempty : s.table.scopes[(classSlot c).slot]?
      = some ⟨.classDecl c, some parent, ([] : Bindings).reverse⟩ := h.here.scope
  refine ⟨fun _ s' hrun => ?_, fun a s' herr => hE a fun hsane => ?_⟩
  · have hdef := forM_define (b := fun m : String × UInt32 × Symbol => some (m.1, m.2.2))
      hrun rfl hempty (by simp [Distinct]) fun m s s' _ hm => ?_
    · have hmap : ([] : Bindings) ++ members.filterMap (fun m => some (m.1, m.2.2))
          = p.memberNames d := by rw [← hnames]; simp
      rw [hmap] at hdef
      obtain ⟨hdist, file, rfl⟩ := hdef
      have ht : Touches c s { s with
          file := file
          table := s.table.set (classSlot c)
            ⟨.classDecl c, some parent, (p.memberNames d).reverse⟩ } :=
        Touches.setScope.trans (.move (i := s.table.current))
      exact ⟨hdist, ht, h.touch hd ht ⟨h.here.decl, ScopeTable.getElem?_set_self h.here.scope⟩, rfl⟩
    · obtain ⟨T, hT, rfl⟩ := defineIn_eq_ok.1 hm
      exact ⟨m.1, m.2.2, T, s.file, rfl, hT, rfl⟩
  · obtain ⟨members', hm', hdist⟩ := hsane.members c d hd
    obtain rfl := Except.ok.inj (hm.symm.trans hm')
    have hnew : Distinct (([] : Bindings) ++ members.map fun m => (m.1, m.2.2)) := by
      simpa [Distinct, Function.comp_def] using hdist
    obtain ⟨s2, hs2⟩ := exists_forM_defineIn hempty hnew
    rw [hs2] at herr
    cases herr

/-- A class is linked to its base and gets its members. -/
theorem linkClass (hrec : Visits p n recur)
    (hd : p.classes.get? c = some d) (h : Going p path c d d.base .program [] s0 s) :
    Ends (Stops p (n + 1) path c) (Resolve.linkClass recur c) s fun _ s' =>
      ∃ base parent s1, Distinct (p.memberNames d) ∧ Based p s' c base parent ∧
        Going p path c d base parent (p.memberNames d).reverse s0 s' ∧
        s'.program = s1.program.addOrdered c ∧ KeepsOrder p s s1 := by
  refine (linkBase hrec hd h).bind ?_
  rintro _ s1 ⟨base, parent, h1, hb1, ho1⟩
  refine .modify_bind ?_
  have h2 := h1.touch hd .addOrdered ⟨h1.here.decl, h1.here.scope⟩
  refine (bindMembers (fun _ hs hsane => absurd hsane hs) hd h2).mono ?_ fun _ ha => ha
  rintro _ s3 ⟨hdist, ht, h3, hprogram⟩
  have hb3 := hb1.touch (Touches.addOrdered.trans ht) (not_resolved h1.here (by simp))
  exact ⟨base, parent, s1, hdist, hb3, h3, hprogram, ho1⟩

theorem once (hrec : Visits p n recur) (h : Nesting p path s) (hd : p.classes.get? c = some d) :
    Ends (Stops p (n + 1) path c) (Pass.once (.classDecl c) (Resolve.linkClass recur c)) s
      fun _ s' => Nesting p path s' ∧ Leaves s s' ∧ ClassResolved c s' ∧ KeepsOrder p s s' := by
  have hstatus : ∀ {status : Status} {base : Option ClassId},
      s.program.classes.get? c = some { d with status, base } →
        ask (Visited.classDecl c).status s = .ok status s := by
    intro status base hd'
    refine ask_eq_ok.2 ⟨?_, rfl⟩
    simp only [Visited.classDecl, Query.bind_ok, Arena.fetch_ok, pure_ok]
    exact ⟨_, hd', rfl⟩
  cases h.stage c d hd with
  | resolved ha =>
    refine .bind_of_ok (hstatus ha.decl)
      (.pure ⟨h, .refl s, ⟨_, ha.decl, rfl⟩, fun new ho => ⟨new, ho⟩⟩)
  | inProgress ha hp =>
    -- the visit has come back to the path
    refine .bind_of_ok (hstatus ha.decl) (.bind_of_ok (a := (d.line, .circularInheritance d.name))
      (ask_eq_ok.2 ⟨?_, rfl⟩) (.fail fun _ _ => ?_))
    · simp only [Visited.classDecl, Query.bind_ok, Arena.fetch_ok, pure_ok]
      exact ⟨_, ha.decl, rfl⟩
    · exact ⟨_, _, c, d, rfl, hd, .inr ⟨hp, .refl⟩⟩
  | unvisited ha hp =>
    refine .bind_of_ok (hstatus ha.decl) (.bind_of_ok (markClass_ok ha.decl) ?_)
    have hfresh : ∀ d', s.program.classes.get? c = some d' → d'.status = .unvisited := by
      intro d' hd'
      rw [← ha.decl.some_unique hd']
    have here := ha.setClass .inProgress d.base
    have hpath : ∀ c', c ≠ c' → (c' ∈ c :: path ↔ c' ∈ path) := by
      intro c' hc
      simp [Ne.symm hc]
    have h1 : Going p path c d d.base .program [] s _ :=
      ⟨h.touch .setClass hd (not_resolved ha (by simp)) (.inProgress here (by simp)) hpath
        (List.nodup_cons.2 ⟨hp, h.nodup⟩), here, (Leaves.refl s).touch .setClass hfresh, hfresh⟩
    refine (linkClass hrec hd h1).bind ?_
    rintro _ s2 ⟨base, parent, s1, hdist, hb, h2, hprogram, ho1⟩
    refine .of_ok (markClass_ok h2.here.decl) ?_
    have here3 := h2.here.setClass .resolved base
    have hr2 := not_resolved h2.here (by simp)
    refine ⟨h2.nesting.touch .setClass hd hr2 (.resolved here3 hdist (hb.touch .setClass hr2)
      (h2.nesting.grounded hb) hp) (fun c' hc => (hpath c' hc).symm) h.nodup,
      h2.leaves.touch .setClass hfresh, ⟨_, here3.decl, rfl⟩, fun new ho => ?_⟩
    obtain ⟨new', ho'⟩ := ho1 new (ho.setClass ha.decl (by simp) (by simp))
    refine ⟨_, ho'.finish hprogram h2.here.decl (by simp) rfl fun b hcb => ?_⟩
    rcases hb with ⟨-, d', hd', hname, -⟩ | ⟨b', -, hcb', -, hres⟩
    · exact absurd hcb (Program.not_namesBase hd' hname b)
    · exact h.eq_of_namesBase hcb' hcb ▸ hres

theorem classRule (hrec : Visits p n recur) : Visits p (n + 1) (Resolve.classRule recur) := by
  intro path s c d h hd
  obtain ⟨status, base, hdecl⟩ := h.fetch hd
  refine .bind_of_ok (ask_eq_ok.2 ⟨Arena.fetch_ok.2 hdecl, rfl⟩) (.bind_of_ok
    (classScope_eq_ok.2 ⟨h.classScopes c (lt_size hd), rfl⟩) (.within ?_))
  have hmove : Nesting p path { s with
      table := s.table.enter (classSlot c)
      file := d.file } := h.move rfl
  refine (hmove.once hrec hd).mono ?_ fun _ ha => ha
  rintro _ s1 ⟨h1, hl, hr, ho⟩
  exact ⟨h1.move rfl, ⟨hl.visited, hl.method, hl.breakables⟩, hr, rfl, fun new h =>
    (ho new (h.of_program rfl)).imp fun _ h => h.of_program rfl⟩

theorem classWithin (n : Nat) : Visits p n (Resolve.classWithin n) := by
  induction n with
  | zero =>
    intro path s c d h hd
    refine .of_error rfl fun _ hn => ?_
    have := h.length_path
    omega
  | succ _ ih => exact classRule ih

/-- All the classes, one after the other. -/
theorem resolveClasses (h : Nesting p [] s) :
    Ends (fun a => Sane p → ∃ c, Blames p [] c a) Resolve.resolveClasses s fun _ s' =>
      Nesting p [] s' ∧ Leaves s s' ∧ s'.table.current = s.table.current ∧
        (∀ c ∈ p.classes.handles, ClassResolved c s') ∧ KeepsOrder p s s' := by
  refine .get_bind ?_
  rw [h.handles]
  refine .forM (P := fun seen s' => Nesting p [] s' ∧ Leaves s s' ∧
    s'.table.current = s.table.current ∧ (∀ c ∈ seen, ClassResolved c s') ∧ KeepsOrder p s s') ?_
      ⟨h, .refl s, rfl, by simp, fun new ho => ⟨new, ho⟩⟩
  rintro seen c hc s1 ⟨h1, hl1, hcur, hseen, ho1⟩
  obtain ⟨d, hd⟩ := exists_get? (mem_handles.1 hc)
  refine .get_bind ⟨fun _ s2 run => ?_, fun a s2 run hsane => ⟨c, ?_⟩⟩
  · obtain ⟨h2, hl2, hr2, hcur2, ho2⟩ := (classWithin _ [] s1 c d h1 hd).ok _ _ run
    refine ⟨h2, hl1.trans hl2, hcur2.trans hcur, fun c' hc' => ?_, fun new ho =>
      (ho1 new ho).elim ho2⟩
    rcases List.mem_append.1 hc' with hc' | hc'
    · exact hl2.classResolved (hseen c' hc')
    · obtain rfl : c' = c := by simpa using hc'
      exact hr2
  · exact (classWithin _ [] s1 c d h1 hd).error _ _ run hsane (by simp [h1.size])

/-- No class has been visited when the names have been registered. -/
theorem start (hf : ∀ d ∈ p.classes.toList, d.status = .unvisited) (h : Declared p s) :
    Nesting p [] s := by
  refine ⟨⟨p.classes, p.ordered, h.program⟩, by rw [h.program], h.distinct, h.root, ?_,
    fun e he => (h.enumScope he).2, fun c hc => (h.classScope hc).1, fun e he => (h.enumScope he).1,
    by simp [h.classScopes, Arena.size],
    by simp [h.enumScopes, Arena.size], fun c d hd => ?_, by simp,
    by simp⟩
  · simpa using h.size
  · refine .unvisited ⟨?_, (h.classScope (lt_size hd)).2⟩ (by simp)
    rw [h.program, hd, ← hf d (mem_toList_of_get? hd)]

end Nesting

end Ci
