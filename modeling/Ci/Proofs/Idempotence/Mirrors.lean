-- Two runs of a pass side by side. The second finds the same scopes, in which it
-- has bound no more names than the first, and the same types, classes and
-- enumerations in the program scope.
import Ci.Proofs.Work.Settled

namespace Ci

open Pass ScopeTable

variable {s s' t t' : State} {name : String} {symbol : Symbol}

/-! ## One run -/

/-- A run that goes on in the same place with the same scopes, which may bind more local names. -/
structure Grows (s s' : State) : Prop where
  place : SamePlace s s'
  table : s.table.Extends s'.table
  size : s'.table.scopes.size = s.table.scopes.size

namespace Grows

theorem refl (s : State) : Grows s s := ⟨.refl s, .refl _, rfl⟩

theorem trans {s'' : State} (h : Grows s s') (h' : Grows s' s'') : Grows s s'' :=
  ⟨h.place.trans h'.place, h.table.trans h'.table, h'.size.trans h.size⟩

theorem set_program (s : State) (q : Program) : Grows s { s with program := q } :=
  ⟨(SamePlace.refl s).set_program, .refl _, rfl⟩

theorem of_moves {D : Set Node} (h : Moves D s s') (hD : ∀ x, .stmt x ∉ D) : Grows s s' :=
  ⟨h.place, h.table, h.scopes hD⟩

end Grows

/-! ## Two runs -/

/-- A scope of the second run binds no more names than that of the first. -/
structure ScopeMirrors (c c' : Scope) : Prop where
  kind : c'.kind = c.kind
  names : ∀ name, c.find? name = none → c'.find? name = none

/-- The second of two runs is where the first one was. -/
structure Mirrors (s t : State) : Prop where
  current : t.table.current = s.table.current
  size : t.table.scopes.size = s.table.scopes.size
  scopes : ∀ (i : Nat) c, s.table.scopes[i]? = some c →
    ∃ c', t.table.scopes[i]? = some c' ∧ ScopeMirrors c c'
  root : ∃ c c', s.table.scopes[0]? = some c ∧ t.table.scopes[0]? = some c' ∧ c.parent = none ∧
    ∀ name symbol, c.find? name = some symbol → symbol.isLocal = false → c'.find? name = some symbol
  classScopes : t.classScopes = s.classScopes
  enumScopes : t.enumScopes = s.enumScopes
  method : t.method = s.method
  breakables : t.breakables = s.breakables

theorem ScopeStep.find?_none {c c' : Scope} (h : ScopeStep c c') (hn : c'.find? name = none) :
    c.find? name = none := by
  obtain ⟨new, hb, -⟩ := h.bindings
  simp only [Scope.find?, hb, List.lookup_append, Option.or_eq_none_iff] at hn
  exact hn.2

theorem ScopeStep.find?_some {c c' : Scope} (h : ScopeStep c c')
    (hf : c'.find? name = some symbol) (hl : symbol.isLocal = false) :
    c.find? name = some symbol := by
  obtain ⟨new, hb, hloc⟩ := h.bindings
  simp only [Scope.find?, hb, List.lookup_append, Option.or_eq_some_iff] at hf
  rcases hf with hf | ⟨-, hf⟩
  · have := hloc _ (Scope.mem_of_find? (c := { c with bindings := new }) hf)
    simp [hl] at this
  · exact hf

namespace Mirrors

section

variable (h : Mirrors s t)

include h

/-- The first run may go on alone, as long as it opens no scopes. -/
theorem grows (hg : Grows s s') : Mirrors s' t := by
  -- each scope of the first run has been there before
  have back : ∀ (i : Nat) c', s'.table.scopes[i]? = some c' →
      ∃ c, s.table.scopes[i]? = some c ∧ ScopeStep c c' := by
    intro i c' hc'
    obtain ⟨hi, -⟩ := Array.getElem?_eq_some_iff.1 hc'
    rw [hg.size] at hi
    obtain ⟨d, hd, hs⟩ := hg.table i _ (Array.getElem?_eq_getElem hi)
    obtain rfl := hd.some_unique hc'
    exact ⟨_, Array.getElem?_eq_getElem hi, hs⟩
  refine ⟨h.current.trans hg.place.current.symm, h.size.trans hg.size.symm, fun i c' hc' => ?_, ?_,
    h.classScopes.trans hg.place.classScopes.symm, h.enumScopes.trans hg.place.enumScopes.symm,
    h.method.trans hg.place.method.symm, h.breakables.trans hg.place.breakables.symm⟩
  · obtain ⟨c, hc, hs⟩ := back i c' hc'
    obtain ⟨d, hd, hm⟩ := h.scopes i c hc
    exact ⟨d, hd, hm.kind.trans hs.kind.symm, fun name hn => hm.names name (hs.find?_none hn)⟩
  · obtain ⟨c, d, hc, hd, hp, hn⟩ := h.root
    obtain ⟨c', hc', hs⟩ := hg.table 0 c hc
    exact ⟨c', d, hc', hd, hs.parent.trans hp,
      fun name symbol hf hl => hn name symbol (hs.find?_some hf hl) hl⟩

/-- A type that the first run finds is found by the second. -/
theorem lookupGlobal (hl : symbol.isLocal = false)
    (hf : s.table.lookup .program name = .ok (some symbol)) :
    t.table.lookup .program name = .ok (some symbol) := by
  obtain ⟨c, c', hc, hc', hp, hn⟩ := h.root
  obtain ⟨hi, -⟩ := Array.getElem?_eq_some_iff.1 hc
  obtain ⟨n, hsize⟩ := Nat.exists_eq_succ_of_ne_zero (Nat.ne_of_gt hi)
  simp only [ScopeTable.lookup, h.size, hsize, search, Query.bind_ok,
    fetch_ok] at hf ⊢
  obtain ⟨d, hd, hf⟩ := hf
  obtain rfl := hc.some_unique hd
  refine ⟨c', hc', ?_⟩
  simp only [↓reduceIte] at hf ⊢
  split at hf
  · rename_i found hfound
    simp only [Query.pure_ok, Option.some.injEq] at hf
    subst hf
    rw [hn name found hfound hl]
    rfl
  · cases n <;> simp [hp, search] at hf

/-- Both runs bind a name that the first run binds. -/
theorem define {i : ScopeId} {T : ScopeTable}
    (hd : s.table.define? i name symbol = .ok (some T)) (hl : symbol.isLocal) :
    ∃ T', t.table.define? i name symbol = .ok (some T') ∧
      Mirrors { s with table := T } { t with table := T' } := by
  obtain ⟨c, hc, hf, rfl⟩ := ScopeTable.define?_ok hd
  obtain ⟨c', hc', hm⟩ := h.scopes i.slot c hc
  have hf' := hm.names name hf
  refine ⟨t.table.set i { c' with bindings := (name, symbol) :: c'.bindings }, ?_, ?_⟩
  · simp [define?, Query.bind_ok, fetch_ok, hc', hf']
  · have hboth : ∀ d d' : Scope, ScopeMirrors d d' →
        ScopeMirrors { d with bindings := (name, symbol) :: d.bindings }
          { d' with bindings := (name, symbol) :: d'.bindings } := by
      refine fun d d' hdd => ⟨hdd.kind, fun name' hn => ?_⟩
      simp only [Scope.find?, List.lookup_cons] at hn ⊢
      split at hn
      · cases hn
      · exact hdd.names name' hn
    refine ⟨h.current, by simpa [ScopeTable.set] using h.size, fun j d hj => ?_, ?_, h.classScopes,
      h.enumScopes, h.method, h.breakables⟩
    · by_cases hij : i.slot = j
      · subst hij
        obtain rfl := (ScopeTable.getElem?_set_self hc).some_unique hj
        exact ⟨_, ScopeTable.getElem?_set_self hc', hboth c c' hm⟩
      · obtain ⟨d', hd', hdd⟩ := h.scopes j d ((ScopeTable.getElem?_set_of_ne hij).symm.trans hj)
        exact ⟨d', (ScopeTable.getElem?_set_of_ne hij).trans hd', hdd⟩
    · obtain ⟨d, d', hd, hd', hp, hn⟩ := h.root
      by_cases hi : i.slot = 0
      · rw [← hi] at hd hd' ⊢
        obtain rfl := hc.some_unique hd
        obtain rfl := hc'.some_unique hd'
        refine ⟨_, _, ScopeTable.getElem?_set_self hc, ScopeTable.getElem?_set_self hc', hp,
          fun name' symbol' hf hl' => ?_⟩
        simp only [Scope.find?, List.lookup_cons] at hf ⊢
        split at hf
        · obtain rfl := Option.some.inj hf
          simp [hl] at hl'
        · exact hn name' symbol' hf hl'
      · exact ⟨d, d', (ScopeTable.getElem?_set_of_ne hi).trans hd,
          (ScopeTable.getElem?_set_of_ne hi).trans hd', hp, hn⟩

/-- Both runs go on in a scope. -/
theorem enter {f g : FileId} (i : ScopeId) :
    Mirrors { s with file := f, table := s.table.enter i }
      { t with file := g, table := t.table.enter i } :=
  ⟨rfl, h.size, h.scopes, h.root, h.classScopes, h.enumScopes, h.method, h.breakables⟩

/-- Both runs come back from where they have been. -/
theorem backTo {s1 t1 : State} (h1 : Mirrors s1 t1) : Mirrors (s1.backTo s) (t1.backTo t) :=
  ⟨h.current, h1.size, h1.scopes, h1.root, h1.classScopes, h1.enumScopes, h1.method, h1.breakables⟩

/-- Both runs open a scope. -/
theorem add (kind : ScopeKind) (parent : ScopeId) :
    Mirrors { s with table := s.table.add kind parent }
      { t with table := t.table.add kind parent } := by
  refine ⟨h.current, by simpa [ScopeTable.add] using h.size, fun i c hc => ?_, ?_, h.classScopes,
    h.enumScopes, h.method, h.breakables⟩
  · simp only [ScopeTable.add, Array.getElem?_push, h.size] at hc ⊢
    by_cases hi : i = s.table.scopes.size
    · rw [if_pos hi] at hc ⊢
      obtain rfl := Option.some.inj hc
      exact ⟨_, rfl, rfl, fun _ _ => rfl⟩
    · rw [if_neg hi] at hc ⊢
      exact h.scopes i c hc
  · obtain ⟨c, c', hc, hc', hp⟩ := h.root
    obtain ⟨hi, -⟩ := Array.getElem?_eq_some_iff.1 hc
    refine ⟨c, c', ?_, ?_, hp⟩
    · rw [ScopeTable.add, Array.getElem?_push, if_neg hi.ne, hc]
    · rw [ScopeTable.add, Array.getElem?_push, h.size, if_neg hi.ne, hc']

end

end Mirrors

end Ci
