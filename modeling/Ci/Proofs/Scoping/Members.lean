-- Members of classes. Once the classes are linked, a member is looked up along the
-- bases: it is the one of the nearest class that declares the name, and names of the
-- program are no members. Any other look-up goes the same way, and then on to the
-- names of the program.
import Ci.Proofs.Scoping.Chains

namespace Ci

open Pass Arena

variable {admits : ScopeKind → Bool}

/-! ## What a class inherits -/

/-- The symbols of a name, in order. -/
def Bindings.named (b : Bindings) (name : String) : List Symbol :=
  (b.filter (·.1 = name)).map Prod.snd

namespace Program

variable {p : Program} {name : String} {c b : ClassId} {d : ClassDecl}
  {found found' : Option Symbol}

/-- The constants, fields and methods of a name that a class itself declares. -/
def membersNamed (p : Program) (c : ClassId) (name : String) : List Symbol :=
  Bindings.named ((p.classes.get? c).elim [] p.memberNames) name

/-- What a name stands for as a member of a class: the member that the nearest class along the
bases declares, which declares it once, or nothing if none of them does. -/
inductive Inherits (p : Program) (name : String) : ClassId → Option Symbol → Prop
  | own {c : ClassId} {symbol : Symbol} (declared : p.membersNamed c name = [symbol]) :
      Inherits p name c (some symbol)
  | base {c b : ClassId} {found : Option Symbol} (declared : p.membersNamed c name = [])
      (base : p.HasBase c b) (inherited : Inherits p name b found) : Inherits p name c found
  | none {c : ClassId} (declared : p.membersNamed c name = []) (base : ∀ b, ¬ p.HasBase c b) :
      Inherits p name c none

theorem HasBase.unique {b' : ClassId} (h : p.HasBase c b) (h' : p.HasBase c b') : b = b' := by
  obtain ⟨d, hd, hb⟩ := h
  obtain ⟨d', hd', hb'⟩ := h'
  obtain rfl := hd.some_unique hd'
  exact hb.some_unique hb'

theorem Inherits.unique (h : p.Inherits name c found) (h' : p.Inherits name c found') :
    found = found' := by
  induction h generalizing found' with
  | own hd =>
    cases h' with
    | own hd' =>
      rw [hd] at hd'
      exact congrArg some (List.singleton_inj.1 hd')
    | base hd' | none hd' =>
      rw [hd] at hd'
      cases hd'
  | base hd hb _ ih =>
    cases h' with
    | own hd' =>
      rw [hd] at hd'
      cases hd'
    | base _ hb' hi' => exact ih (hb.unique hb' ▸ hi')
    | none _ hb' => exact absurd hb (hb' _)
  | none hd hb =>
    cases h' with
    | own hd' =>
      rw [hd] at hd'
      cases hd'
    | base _ hb' => exact absurd hb' (hb _)
    | none => rfl

end Program

/-- Where no name stands for two things, the symbol of a name is what a look-up finds. -/
theorem Distinct.named_eq {b : Bindings} {name : String} (h : Distinct b) :
    Bindings.named b name = (b.lookup name).toList := by
  induction b with
  | nil => rfl
  | cons x b ih =>
    obtain ⟨key, symbol⟩ := x
    have hrest := ih (h.sublist (List.sublist_cons_self _ _))
    simp only [Bindings.named] at hrest ⊢
    by_cases hk : key = name
    · subst hk
      have hnone : b.lookup key = none := by
        refine List.lookup_eq_none_iff.2 fun y hy => ?_
        have hout := (List.nodup_cons.1 h).1
        simp only [bne_iff_ne, ne_eq]
        rintro rfl
        exact hout (List.mem_map.2 ⟨y, hy, rfl⟩)
      rw [hnone] at hrest
      simp [hrest]
    · have hne : (name == key) = false := by simpa using Ne.symm hk
      simp [hk, List.lookup_cons, hne, hrest]

/-! ## Classes that are linked -/

variable {p : Program} {s : State} {name : String} {c b : ClassId} {d : ClassDecl}

namespace Nesting

/-- A class stands inside its base, or right inside the program if it had and names none. -/
theorem based (h : Nesting p [] s) (hf : ∀ d ∈ p.classes.toList, d.base = none)
    (hall : ∀ c ∈ p.classes.handles, ClassResolved c s) (hd : p.classes.get? c = some d) :
    ∃ base parent, ClassAt s c d .resolved base parent (p.memberNames d).reverse ∧
      Distinct (p.memberNames d) ∧ ((base = none ∧ (∀ b, ¬ p.NamesBase c b) ∧ parent = .program) ∨
        ∃ b, base = some b ∧ p.NamesBase c b ∧ parent = classSlot b) := by
  obtain ⟨base, parent, ha, hm, hb, -⟩ := h.linked hd (hall c (mem_handles.2 (lt_size hd)))
  refine ⟨base, parent, ha, hm, ?_⟩
  rcases hb with ⟨rfl, d', hd', hname, rfl⟩ | ⟨b, rfl, hnames, rfl, -⟩
  · exact .inl ⟨hf d' (mem_toList_of_get? hd'), Program.not_namesBase hd' hname, rfl⟩
  · exact .inr ⟨b, rfl, hnames, rfl⟩

/-- What a class declares has not changed. -/
theorem membersNamed_eq {status : Status} {base : Option ClassId} (h : Nesting p [] s)
    (hd : s.program.classes.get? c = some { d with status, base })
    (hm : Distinct (p.memberNames d)) :
    s.program.membersNamed c name = ((p.memberNames d).lookup name).toList := by
  have hnames : s.program.memberNames { d with status, base } = p.memberNames d := by
    obtain ⟨classes, ordered, hp⟩ := h.program
    rw [hp]
    rfl
  rw [Program.membersNamed, hd]
  exact hnames ▸ hm.named_eq

theorem hasBase_iff (h : Nesting p [] s) (hf : ∀ d ∈ p.classes.toList, d.base = none)
    (hall : ∀ c ∈ p.classes.handles, ClassResolved c s) :
    s.program.HasBase c b ↔ p.NamesBase c b := by
  constructor
  · rintro ⟨e, he, hb⟩
    obtain ⟨d, hd⟩ := exists_get? (h.size ▸ lt_size_of_get? he)
    obtain ⟨base, parent, ha, -, hbased⟩ := h.based hf hall hd
    obtain rfl := ha.decl.some_unique he
    rcases hbased with ⟨rfl, -, -⟩ | ⟨b', rfl, hnames, -⟩
    · cases hb
    · exact Option.some.inj hb ▸ hnames
  · intro hnames
    obtain ⟨d, -, hd, -⟩ := id hnames
    obtain ⟨base, parent, ha, -, hbased⟩ := h.based hf hall hd
    rcases hbased with ⟨-, hno, -⟩ | ⟨b', rfl, hnames', -⟩
    · exact absurd hnames (hno b)
    · exact ⟨_, ha.decl, by rw [h.eq_of_namesBase hnames hnames']⟩

/-- A search through the scopes of classes finds what the class inherits, and goes on in the program
scope if that is nothing. -/
theorem inherits_of_search {n : Nat} {found top : Option Symbol}
    (h : Nesting p [] s) (hf : ∀ d ∈ p.classes.toList, d.base = none)
    (hall : ∀ c ∈ p.classes.handles, ClassResolved c s) (hclass : ∀ c, admits (.classDecl c) = true)
    (htop : ∀ n r, s.table.search admits name n (some .program) = .ok r → r = top)
    (hd : p.classes.get? c = some d)
    (hs : s.table.search admits name n (some (classSlot c)) = .ok found) :
    ∃ inherited, s.program.Inherits name c inherited ∧ found = inherited.or top := by
  induction n generalizing c d with
  | zero => cases hs
  | succ n ih =>
    obtain ⟨base, parent, ha, hdistinct, hbased⟩ := h.based hf hall hd
    have hnamed : s.program.membersNamed c name = ((p.memberNames d).lookup name).toList :=
      h.membersNamed_eq ha.decl hdistinct
    simp only [ScopeTable.search, Query.bind_ok, ScopeTable.fetch_ok, ha.scope, Option.some.injEq,
      exists_eq_left', hclass, if_true, Scope.find?, hdistinct.lookup_reverse] at hs
    cases hlookup : (p.memberNames d).lookup name with
    | some symbol =>
      rw [hlookup] at hs hnamed
      cases hs
      exact ⟨some symbol, .own hnamed, rfl⟩
    | none =>
      rw [hlookup] at hs hnamed
      rcases hbased with ⟨rfl, -, rfl⟩ | ⟨b, rfl, ⟨_, db, -, hdb, -⟩, rfl⟩
      · refine ⟨none, .none hnamed ?_, htop n _ hs⟩
        rintro b ⟨e, he, hb⟩
        obtain rfl := ha.decl.some_unique he
        cases hb
      · obtain ⟨inherited, hi, rfl⟩ := ih hdb hs
        exact ⟨inherited, .base hnamed ⟨_, ha.decl, rfl⟩ hi, rfl⟩

end Nesting

theorem Pass.eq_ok_of_stop {x : Pass Unit} (h : x.stop s = none) : x s = .ok () (x.after s) := by
  unfold Pass.stop at h
  unfold Pass.after
  cases hx : x s with
  | ok => rfl
  | error =>
    rw [hx] at h
    cases h

/-- The phases up to that in which the classes are linked. -/
def Resolve.link : Pass Unit := do
  register
  resolveClasses

theorem ScopeTable.search_program {t : ScopeTable} {names : Bindings}
    {n : Nat} {r : Option Symbol} (h : t.scopes[0]? = some ⟨.program, none, names⟩)
    (hs : t.search admits name n (some .program) = .ok r) :
    r = if admits .program then names.lookup name else none := by
  cases n with
  | zero => cases hs
  | succ n =>
    simp only [search, Query.bind_ok, fetch_ok, ScopeId.program, h, Option.some.injEq,
      exists_eq_left', Scope.find?] at hs
    split
    · rename_i hp
      rw [if_pos hp] at hs
      cases hl : names.lookup name <;> rw [hl] at hs <;> cases hs <;> rfl
    · rename_i hp
      rw [if_neg hp] at hs
      cases hs
      rfl

/-- Once the classes of a program are linked, a member that is looked up from the scope of a class
is the one that the class inherits, also if the name is one of the program. Any other look-up finds
that member too, or else what the program scope binds. -/
theorem lookupMember_follows_bases (p : Program) (s : State)
    (hfresh : ∀ d ∈ p.classes.toList, d.status = .unvisited ∧ d.base = none)
    (hrun : Resolve.link (.start p) = .ok () s) :
    (∀ c b, s.program.HasBase c b ↔ p.NamesBase c b) ∧
      ∀ c d, p.classes.get? c = some d → ∃ i, s.classScopes.get? c = some i ∧ ∀ name,
      ∃ found global,
        (∀ found', s.program.Inherits name c found' ↔ found' = found) ∧
          s.table.lookupMember i name = .ok found ∧
          s.table.lookup .program name = .ok global ∧ global = p.globalNames.lookup name ∧
          s.table.lookup i name = .ok (found.or global) := by
  have hlink : KeepsChains Resolve.link := KeepsChains.register.bind fun _ => .resolveClasses
  have hchained : Chained s := ((hlink.preserves _).of_ok (.start p) hrun).1
  obtain ⟨_, s1, hregister, hclasses⟩ := bind_eq_ok.1 hrun
  have hstart : Nesting p [] s1 :=
    .start (fun d hd => (hfresh d hd).1) (declared_of_register hregister)
  obtain ⟨h, -, -, hall, -⟩ := hstart.resolveClasses.ok _ _ hclasses
  have hbase := fun d hd => (hfresh d hd).2
  refine ⟨fun c b => h.hasBase_iff hbase hall, fun c d hd => ?_⟩
  have hscope := h.classScopes c (Nesting.lt_size hd)
  have hslot := (hchained.classes c _ hscope).1
  refine ⟨classSlot c, hscope, fun name => ?_⟩
  obtain ⟨member, hmember⟩ := hchained.rooted.search hslot ScopeKind.hasMembers name
  obtain ⟨any, hany⟩ := hchained.rooted.search hslot (fun _ => true) name
  obtain ⟨found, hfound, hm⟩ := h.inherits_of_search hbase hall (fun _ => rfl)
    (fun _ _ => ScopeTable.search_program h.root) hd hmember
  obtain ⟨found', hfound', ha⟩ := h.inherits_of_search hbase hall (fun _ => rfl)
    (fun _ _ => ScopeTable.search_program h.root) hd hany
  obtain rfl := hfound.unique hfound'
  refine ⟨found, p.globalNames.lookup name,
    fun f => ⟨fun hf => hf.unique hfound, fun hf => hf ▸ hfound⟩, ?_, h.lookupGlobal name, rfl, ?_⟩
  · rw [ScopeTable.lookupMember, hmember, hm]
    simp [ScopeKind.hasMembers]
  · rw [ScopeTable.lookup, hany, ha, if_pos rfl, h.distinct.lookup_reverse]

/-- A class that is declared before its base, which is declared before its own. The name of a
built-in type is a member, and a member is declared again. -/
def family : Program :=
  let decl (name : String) (baseName : Option String) (consts : List ConstId)
    (fields : List FieldId) :
      ClassDecl := ⟨name, ⟨0⟩, 1, false, .normal, baseName, none, consts, fields, [], .unvisited⟩
  let const (name : String) (c : ClassId) : Const :=
    ⟨name, 1, .classDecl c, .hidden, none, none, .unvisited, none⟩
  { Program.empty with
    files := .ofList ["family.ci"]
    classes := .ofList [decl "Child" (some "Parent") [⟨0⟩] [],
      decl "Parent" (some "Elder") [] [⟨0⟩], decl "Elder" none [⟨1⟩, ⟨2⟩] []]
    consts := .ofList [const "Age" ⟨0⟩, const "Age" ⟨2⟩, const "int" ⟨2⟩]
    fields := .ofList [⟨"name", 1, .hidden, ⟨0⟩, none⟩] }

theorem family_lookupMember :
    (∀ d ∈ family.classes.toList, d.status = .unvisited ∧ d.base = none) ∧
      ∃ s, Resolve.link (.start family) = .ok () s ∧ s.program.HasBase ⟨0⟩ ⟨1⟩ ∧
        s.program.Inherits "Age" ⟨0⟩ (some (.const ⟨0⟩)) ∧
        s.program.Inherits "name" ⟨0⟩ (some (.field ⟨0⟩)) ∧
        s.program.Inherits "int" ⟨0⟩ (some (.const ⟨2⟩)) ∧ s.program.Inherits "Child" ⟨0⟩ none ∧
        s.table.lookup ⟨1⟩ "Child" = .ok (some (.classDecl ⟨0⟩)) := by
  have hfresh : ∀ d ∈ family.classes.toList, d.status = .unvisited ∧ d.base = none := by decide
  have hstop : Resolve.link.stop (.start family) = none := by decide +kernel
  have hscope : (Resolve.link.after (.start family)).classScopes.get? ⟨0⟩ = some ⟨1⟩ := by
    decide +kernel
  have hfound : ["Age", "name", "int", "Child"].map
      (fun name => ((Resolve.link.after (.start family)).table.lookupMember ⟨1⟩ name).toOption)
        = [some (some (.const ⟨0⟩)), some (some (.field ⟨0⟩)), some (some (.const ⟨2⟩)),
          some none] := by
    decide +kernel
  have hrun : Resolve.link (.start family) = .ok () (Resolve.link.after (.start family)) :=
    Pass.eq_ok_of_stop hstop
  generalize Resolve.link.after (.start family) = s at hscope hfound hrun
  obtain ⟨hbases, hclasses⟩ := lookupMember_follows_bases family s hfresh hrun
  obtain ⟨i, hi, hnames⟩ := hclasses ⟨0⟩ _ rfl
  obtain rfl := Option.some.inj (hscope.symm.trans hi)
  have hinherits : ∀ name found, (s.table.lookupMember ⟨1⟩ name).toOption = some found →
      s.program.Inherits name ⟨0⟩ found := by
    intro name found hf
    obtain ⟨found', _, hiff, hmember, -⟩ := hnames name
    rw [hmember] at hf
    exact (hiff found).2 (Option.some.inj hf).symm
  simp only [List.map_cons, List.map_nil, List.cons.injEq, and_true] at hfound
  obtain ⟨hage, hname, hint, hchild⟩ := hfound
  refine ⟨hfresh, s, hrun, (hbases _ _).2 ⟨_, _, rfl, rfl, rfl⟩, hinherits _ _ hage,
    hinherits _ _ hname, hinherits _ _ hint, hinherits _ _ hchild, ?_⟩
  obtain ⟨found, global, hiff, -, -, hglobal, hlookup⟩ := hnames "Child"
  obtain rfl := (hiff none).1 (hinherits _ _ hchild)
  rw [hlookup, hglobal]
  rfl

end Ci
