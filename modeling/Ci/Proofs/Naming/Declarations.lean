-- The names of a program. Registration binds the built-in types, the classes, the
-- enumerations and the global constants in the program scope, and the values of each
-- enumeration in a scope of its own. Each class gets a scope that is empty at first.
import Ci.Proofs.Frame.Moves
import Ci.Proofs.Pass.Endings

namespace Ci

open Pass

variable {k : Kind} {α : Type} {kind : ScopeKind} {c : ClassId} {a : Arena k α} {name : α → String}
  {symbol : Handle k → Symbol} {hs : List (Handle k)}

/-! ## Names -/

/-- Names and what they stand for, in the order in which they are declared. -/
abbrev Bindings := List (String × Symbol)

/-- No name stands for two things. -/
def Distinct (b : Bindings) : Prop := (b.map Prod.fst).Nodup

namespace Distinct

variable {b b' : Bindings} {name : String} {symbol : Symbol}

section

variable (h : Distinct b)

include h

theorem eq_of_mem {other : Symbol} (hs : (name, symbol) ∈ b)
    (ho : (name, other) ∈ b) : symbol = other :=
  (Prod.ext_iff.1 (List.inj_on_of_nodup_map h hs ho rfl)).2

theorem lookup_eq_some : b.lookup name = some symbol ↔ (name, symbol) ∈ b := by
  constructor
  · intro hl
    obtain ⟨before, after, rfl, -⟩ := List.lookup_eq_some_iff.1 hl
    simp
  · intro hm
    cases hl : b.lookup name with
    | none =>
      have := List.lookup_eq_none_iff.1 hl _ hm
      simp at this
    | some other =>
      obtain ⟨before, after, rfl, -⟩ := List.lookup_eq_some_iff.1 hl
      rw [h.eq_of_mem hm (by simp : (name, other) ∈ _)]

theorem sublist (hs : b'.Sublist b) : Distinct b' := List.Nodup.sublist (hs.map _) h

theorem reverse : Distinct b.reverse := by
  simpa [Distinct, List.map_reverse] using List.nodup_reverse.2 h

/-- Where no name stands for two things, the order does not matter. -/
theorem lookup_reverse : b.reverse.lookup name = b.lookup name := by
  refine Option.ext fun symbol => ?_
  rw [h.reverse.lookup_eq_some, h.lookup_eq_some, List.mem_reverse]

theorem snoc (hn : b.reverse.lookup name = none) : Distinct (b ++ [(name, symbol)]) := by
  have hout : name ∉ b.map Prod.fst := by
    intro hm
    obtain ⟨x, hx, rfl⟩ := List.mem_map.1 hm
    simpa using List.lookup_eq_none_iff.1 hn x (by simpa using hx)
  simp only [Distinct, List.map_append, List.map_cons, List.map_nil]
  exact List.nodup_append.2 ⟨h, by simp, fun a ha c hc hac => hout (by
    rw [List.mem_singleton.1 hc] at hac
    exact hac ▸ ha)⟩

end

end Distinct

namespace Program

/-- The names of some parts of one kind. -/
def named {k : Kind} {α : Type} (a : Arena k α) (name : α → String) (symbol : Handle k → Symbol)
    (hs : List (Handle k)) : Bindings :=
  hs.filterMap fun h => (a.get? h).map fun d => (name d, symbol h)

theorem named_append {hs' : List (Handle k)} :
    named a name symbol (hs ++ hs') = named a name symbol hs ++ named a name symbol hs' := by
  simp [named]

theorem named_singleton {h : Handle k} {d : α} (hd : a.get? h = some d) :
    named a name symbol [h] = [(name d, symbol h)] := by simp [named, hd]

theorem mem_named {b : String × Symbol} :
    b ∈ named a name symbol hs ↔ ∃ h ∈ hs, ∃ d, a.get? h = some d ∧ (name d, symbol h) = b := by
  simp [named, List.mem_filterMap]

/-- The names of the classes. -/
def classNames (p : Program) (cs : List ClassId) : Bindings :=
  named p.classes (·.name) .classDecl cs

/-- The names of the enumerations. -/
def enumNames (p : Program) (es : List EnumId) : Bindings := named p.enums (·.name) .enumDecl es

/-- The names of constants. -/
def constNames (p : Program) (ks : List ConstId) : Bindings := named p.consts (·.name) .const ks

/-- The names of the built-in types. -/
def builtinNames : Bindings := Resolve.builtins.map fun b => (b.1, .type b.2)

/-- The names of the program scope. -/
def globalNames (p : Program) : Bindings :=
  builtinNames ++ p.classNames p.classes.handles ++ p.enumNames p.enums.handles
    ++ p.constNames p.globals

/-- The names of the values of an enumeration. -/
def valueNames (p : Program) (d : EnumDecl) : Bindings := p.constNames d.values

/-- The names of the members of a class. -/
def memberNames (p : Program) (d : ClassDecl) : Bindings :=
  p.constNames d.consts ++ named p.fields (·.name) .field d.fields
    ++ named p.methods (·.name) .method d.methods

/-- The scope of a class before its members are bound. -/
def emptyScope (c : ClassId) : Scope := ⟨.classDecl c, some .program, []⟩

/-- The scope of an enumeration. -/
def enumScope (p : Program) (e : EnumId) : Scope :=
  ⟨.enumDecl e, some .program, ((p.enums.get? e).elim [] p.valueNames).reverse⟩

end Program

@[simp] theorem Arena.length_handles : a.handles.length = a.size := by simp [handles]

theorem Arena.getElem?_handles {h : Handle k} (hs : h.slot < a.size) :
    a.handles[h.slot]? = some h := by
  simp [handles, hs, Handle.ofSlot_slot]

/-- Where no name stands for two things, no handle comes twice. -/
theorem Program.handles_nodup (h : Distinct (named a name symbol a.handles)) : a.handles.Nodup := by
  refine List.nodup_iff_sublist.2 fun x hx => ?_
  obtain ⟨d, hd⟩ := Arena.exists_get? (Arena.mem_handles.1 (hx.subset (by simp : x ∈ [x, x])))
  have hsub : [name d, name d].Sublist ((named a name symbol a.handles).map Prod.fst) := by
    simpa [named, hd] using (hx.filterMap fun h => (a.get? h).map fun d => (name d, symbol h)).map
      Prod.fst
  exact List.nodup_iff_sublist.1 h _ hsub

/-- There are no more parts than handles. -/
theorem Arena.size_le_of_nodup (h : a.handles.Nodup) : a.size ≤ UInt32.size := by
  have hn : (a.handles.map Handle.slot).Nodup := h.map fun _ _ e => Handle.slot_inj.1 e
  have hsub : a.handles.map Handle.slot ⊆ List.range UInt32.size := by
    intro i hi
    obtain ⟨x, -, rfl⟩ := List.mem_map.1 hi
    exact List.mem_range.2 x.index.toNat_lt
  simpa using (hn.subperm hsub).length_le

/-- Every slot has a handle. -/
theorem Arena.exists_handle (h : a.handles.Nodup) {i : Nat}
    (hi : i < a.size) : ∃ x : Handle k, x.slot = i :=
  ⟨.ofSlot i, Handle.slot_ofSlot (hi.trans_le (size_le_of_nodup h))⟩

/-! ## Scopes that bind names -/

namespace ScopeTable

variable {t : ScopeTable} {i : ScopeId} {c c' : Scope}

@[simp] theorem set_set : (t.set i c).set i c' = t.set i c' := by simp [set]

theorem set_get? (h : t.scopes[i.slot]? = some c) : t.set i c = t := by
  have hset : t.scopes.setIfInBounds i.slot c = t.scopes := by
    refine Array.ext_getElem? fun j => ?_
    by_cases hj : i.slot = j
    · subst hj
      rw [h, Array.getElem?_setIfInBounds_self_of_lt (Array.getElem?_eq_some_iff.1 h).1]
    · rw [Array.getElem?_setIfInBounds_ne hj]
  simp [set, hset]

/-- A scope that has just been added is filled. -/
theorem set_next {parent : ScopeId} :
    (t.add kind parent).set t.next c = { t with scopes := t.scopes.push c } := by
  have hset : (t.scopes.push ⟨kind, some parent, []⟩).setIfInBounds t.scopes.size c
      = t.scopes.push c := by
    refine Array.toList_inj.1 ?_
    simp [← Array.length_toList]
  simp [set, add, next, hset]

end ScopeTable

variable {p : Program} {s s' : State} {names : Bindings} {cs : List ClassId} {es : List EnumId}

/-- A loop that binds names in one scope. It may go on in other files. -/
theorem forM_define {ι : Type} {g : ι → Pass Unit} {b : ι → Option (String × Symbol)} {xs : List ι}
    {i : ScopeId} {parent : Option ScopeId} {u : Unit}
    (run : xs.forM g s = .ok u s') (hp : s.program = p)
    (hc : s.table.scopes[i.slot]? = some ⟨kind, parent, names.reverse⟩) (hd : Distinct names)
    (hg : ∀ x s s', s.program = p → g x s = .ok () s' → ∃ name symbol T file,
      b x = some (name, symbol) ∧ s.table.define? i name symbol = .ok (some T) ∧
        s' = { s with file := file, table := T }) :
    Distinct (names ++ xs.filterMap b) ∧ ∃ file, s' = { s with
      file := file
      table := s.table.set i ⟨kind, parent, (names ++ xs.filterMap b).reverse⟩ } := by
  refine forM_prefix (P := fun seen s' => Distinct (names ++ seen.filterMap b) ∧
    ∃ file, s' = { s with
      file := file
      table := s.table.set i ⟨kind, parent, (names ++ seen.filterMap b).reverse⟩ }) ?_ ?_ run
  · refine ⟨by simpa using hd, s.file, ?_⟩
    simp [ScopeTable.set_get? hc]
  · rintro seen x _ s2 ⟨hd, file, rfl⟩ hx
    obtain ⟨name, symbol, T, file', hb, hT, rfl⟩ := hg x _ s2 (by simpa using hp) hx
    obtain ⟨c, hc', hf, rfl⟩ := ScopeTable.define?_ok hT
    obtain rfl := (ScopeTable.getElem?_set_self hc).some_unique hc'
    have hnames : names ++ (seen ++ [x]).filterMap b
        = names ++ seen.filterMap b ++ [(name, symbol)] := by simp [hb]
    rw [hnames]
    refine ⟨hd.snoc hf, file', ?_⟩
    simp

/-! ## Registration -/

/-- Some declarations have been registered. -/
structure Declaring (p : Program) (names : Bindings) (cs : List ClassId) (es : List EnumId)
    (s : State) : Prop where
  program : s.program = p
  scopes : s.table.scopes = (⟨.program, none, names.reverse⟩ ::
    (cs.map Program.emptyScope ++ es.map p.enumScope)).toArray
  distinct : Distinct names
  current : s.table.current = .program
  classScopes : s.classScopes = ⟨((List.range cs.length).map fun i => ⟨i + 1⟩).toArray⟩
  enumScopes : s.enumScopes = ⟨((List.range es.length).map fun i => ⟨cs.length + i + 1⟩).toArray⟩
  method : s.method = none
  breakables : s.breakables = []

namespace Declaring

theorem start (p : Program) : Declaring p [] [] [] (.start p) :=
  ⟨rfl, rfl, by simp [Distinct], rfl, rfl, rfl, rfl, rfl⟩

section

variable (h : Declaring p names cs es s)

include h

theorem root : s.table.scopes[ScopeId.program.slot]? = some ⟨.program, none, names.reverse⟩ := by
  rw [h.scopes]
  rfl

theorem set_root {names' : Bindings} {f : FileId}
    (hd : Distinct names') : Declaring p names' cs es { s with
      file := f
      table := s.table.set .program ⟨.program, none, names'.reverse⟩ } := by
  refine ⟨h.program, ?_, hd, h.current, h.classScopes, h.enumScopes, h.method, h.breakables⟩
  simp [ScopeTable.set, h.scopes, ScopeId.program]

theorem size : s.table.scopes.size = cs.length + es.length + 1 := by
  rw [h.scopes]
  simp

theorem registerBuiltins (run : Resolve.registerBuiltins s = .ok () s') :
    Declaring p (names ++ Program.builtinNames) cs es s' := by
  have hrun := forM_define (b := fun b : String × Ty => some (b.1, .type b.2)) run h.program h.root
    h.distinct fun x s s' _ hx => ?_
  · obtain ⟨hd, file, rfl⟩ := hrun
    have hnames : Resolve.builtins.filterMap (fun b : String × Ty => some (b.1, Symbol.type b.2))
        = Program.builtinNames := by simp [Program.builtinNames]
    rw [hnames] at hd ⊢
    exact h.set_root hd
  · obtain ⟨T, hT, rfl⟩ := defineIn_eq_ok.1 hx
    exact ⟨x.1, .type x.2, T, s.file, rfl, hT, rfl⟩

/-- A global name is bound. -/
theorem define {name : String} {symbol : Symbol} {T : ScopeTable} {f : FileId}
    (hT : s.table.define? .program name symbol = .ok (some T)) :
    Declaring p (names ++ [(name, symbol)]) cs es { s with file := f, table := T } := by
  obtain ⟨c, hc, hf, rfl⟩ := ScopeTable.define?_ok hT
  obtain rfl := h.root.some_unique hc
  have hd : Distinct (names ++ [(name, symbol)]) := h.distinct.snoc hf
  simpa using h.set_root (f := f) hd

end

theorem addClass (h : Declaring p names cs [] s) : Declaring p names (cs ++ [c]) [] { s with
      table := s.table.add (.classDecl c) .program
      classScopes := s.classScopes.push s.table.next } := by
  refine ⟨h.program, ?_, h.distinct, h.current, ?_, by simpa using h.enumScopes, h.method,
    h.breakables⟩
  · simp [ScopeTable.add, h.scopes, Program.emptyScope]
  · simp [Arena.push, h.classScopes, ScopeTable.next, h.size, List.range_succ]

theorem registerClass (h : Declaring p names cs [] s)
    (run : Resolve.registerClass c s = .ok () s') :
    Declaring p (names ++ p.classNames [c]) (cs ++ [c]) [] s' := by
  simp only [Resolve.registerClass, Resolve.enterFile, Resolve.defineGlobal, bind_eq_ok, ask_eq_ok,
    Arena.fetch_ok, modify_eq_ok, defineIn_eq_ok, addScope_eq_ok] at run
  obtain ⟨d, _, ⟨hd, rfl⟩, _, _, rfl, _, _, ⟨T, hT, rfl⟩, i, _, ⟨rfl, rfl⟩, rfl⟩ := run
  rw [h.program] at hd
  rw [Program.classNames, Program.named_singleton hd]
  exact (h.define (f := d.file) hT).addClass

theorem registerEnum {e : EnumId} (h : Declaring p names cs es s)
    (run : Resolve.registerEnum e s = .ok () s') :
    Declaring p (names ++ p.enumNames [e]) cs (es ++ [e]) s' := by
  simp only [Resolve.registerEnum, Resolve.enterFile, Resolve.defineGlobal, bind_eq_ok, ask_eq_ok,
    Arena.fetch_ok, modify_eq_ok, defineIn_eq_ok, addScope_eq_ok] at run
  obtain ⟨d, _, ⟨hd, hs⟩, _, _, rfl, _, _, ⟨T, hT, rfl⟩, i, _, ⟨rfl, rfl⟩, _, _, rfl, run⟩ := run
  rw [hs] at hT run
  dsimp only at hT run
  rw [h.program] at hd
  rw [Program.enumNames, Program.named_singleton hd]
  have h1 := h.define (f := d.file) hT
  -- the values are bound in the scope that has just been added
  have hnew : (T.add (.enumDecl e) .program).scopes[T.next.slot]?
      = some ⟨.enumDecl e, some .program, ([] : Bindings).reverse⟩ := by
    simp [ScopeTable.add, ScopeTable.next]
  have hempty : Distinct [] := by simp [Distinct]
  have hrun := forM_define (b := fun k => (p.consts.get? k).map fun v => (v.name, .const k)) run
    h.program hnew hempty fun k s s' hp hk => ?_
  · obtain ⟨-, file, rfl⟩ := hrun
    have hscopes := h1.scopes
    have hsize := h1.size
    dsimp only at hscopes hsize ⊢
    rw [ScopeTable.set_next]
    refine ⟨h1.program, ?_, h1.distinct, h1.current, h1.classScopes, ?_, h1.method, h1.breakables⟩
    · simp [hscopes, Program.enumScope, hd, Program.valueNames, Program.constNames, Program.named]
    · simp [Arena.push, h.enumScopes, ScopeTable.next, hsize, List.range_succ]
  · simp only [ask_eq_ok, Arena.fetch_ok, defineIn_eq_ok, bind_eq_ok] at hk
    obtain ⟨v, _, ⟨hv, rfl⟩, T, hT, rfl⟩ := hk
    rw [hp] at hv
    exact ⟨v.name, .const k, T, _, by simp [hv], hT, rfl⟩

theorem registerGlobals {ks : List ConstId} (h : Declaring p names cs es s)
    (run : ks.forM Resolve.registerGlobal s = .ok () s') :
    Declaring p (names ++ p.constNames ks) cs es s' := by
  have hrun := forM_define (b := fun k => (p.consts.get? k).map fun d => (d.name, .const k)) run
    h.program h.root h.distinct fun k s s' hp hk => ?_
  · obtain ⟨hd, file, rfl⟩ := hrun
    exact h.set_root hd
  · simp only [Resolve.registerGlobal, Resolve.defineGlobal, bind_eq_ok, ask_eq_ok, Arena.fetch_ok,
      defineIn_eq_ok] at hk
    obtain ⟨d, _, ⟨hd, hs⟩, _, s1, howner, T, hT, rfl⟩ := hk
    rw [hs] at howner
    rw [hp] at hd
    obtain ⟨file, rfl⟩ : ∃ file, s1 = { s with file := file } := by
      generalize d.owner = owner at howner
      cases owner with
      | program file => exact ⟨file, modify_eq_ok.1 howner⟩
      | _ => exact ⟨s.file, (pure_eq_ok.1 howner).2⟩
    exact ⟨d.name, .const k, T, file, by simp [hd], hT, rfl⟩

end Declaring

/-- All declarations have been registered. -/
abbrev Declared (p : Program) (s : State) : Prop :=
  Declaring p p.globalNames p.classes.handles p.enums.handles s

/-- Binds the names of the program before anything else is done. -/
def Resolve.register : Pass Unit := do
  registerBuiltins
  registerDeclarations

namespace Declaring

theorem classScope (h : Declared p s) (hc : c.slot < p.classes.size) :
    s.classScopes.get? c = some ⟨c.slot + 1⟩ ∧ s.table.scopes[c.slot + 1]? = some
    (Program.emptyScope c) := by
  have hlt : c.slot < (p.classes.handles.map Program.emptyScope).length := by simpa using hc
  refine ⟨by simp [h.classScopes, Arena.get?, hc], ?_⟩
  rw [h.scopes, List.getElem?_toArray, List.getElem?_cons_succ, List.getElem?_append_left hlt,
    List.getElem?_map, Arena.getElem?_handles hc, Option.map_some]

theorem enumScope (h : Declared p s) {e : EnumId} (he : e.slot < p.enums.size) :
    s.enumScopes.get? e = some ⟨p.classes.size + e.slot + 1⟩ ∧
      s.table.scopes[p.classes.size + e.slot + 1]? = some (p.enumScope e) := by
  have hle : (p.classes.handles.map Program.emptyScope).length ≤ p.classes.size + e.slot := by simp
  refine ⟨by simp [h.enumScopes, Arena.get?, he], ?_⟩
  rw [h.scopes, List.getElem?_toArray, List.getElem?_cons_succ, List.getElem?_append_right hle]
  simp [Arena.getElem?_handles he]

end Declaring

theorem declared_of_register (run : Resolve.register (.start p) = .ok () s) : Declared p s := by
  simp only [Resolve.register, Resolve.registerDeclarations, bind_eq_ok, get_eq_ok] at run
  obtain ⟨_, s1, hbuiltins, _, _, ⟨rfl, hs1⟩, _, s2, hclasses, _, _,
    ⟨rfl, hs2⟩, _, s3, henums, _, _, ⟨rfl, hs3⟩, hglobals⟩ := run
  rw [hs1] at hclasses
  rw [hs2] at henums
  rw [hs3] at hglobals
  have h1 := (Declaring.start p).registerBuiltins hbuiltins
  rw [List.nil_append] at h1
  rw [h1.program] at hclasses
  have h2 := forM_prefix
    (P := fun seen => Declaring p (Program.builtinNames ++ p.classNames seen) seen [])
    (by simpa [Program.classNames, Program.named] using h1) (fun seen c s s' h hc => by
      simpa [Program.classNames, Program.named_append] using h.registerClass hc) hclasses
  rw [h2.program] at henums
  have h3 := forM_prefix (P := fun seen => Declaring p (Program.builtinNames
    ++ p.classNames p.classes.handles ++ p.enumNames seen) p.classes.handles seen)
    (by simpa [Program.enumNames, Program.named] using h2) (fun seen c s s' h hc => by
      simpa [Program.enumNames, Program.named_append] using h.registerEnum hc) henums
  rw [h3.program] at hglobals
  exact h3.registerGlobals hglobals

end Ci
