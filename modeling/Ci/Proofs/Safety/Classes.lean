-- The part of a pass before the constants. Names are registered and classes are
-- linked without a step along a handle that leads nowhere, unless handles may do
-- that, and the visits of classes have depth enough whatever has been visited before.
import Ci.Proofs.Safety.Sound
import Ci.Proofs.Scoping.Chains

namespace Ci

open Pass Arena

variable {α β ι : Type} {p q : Program} {ρ : Ranking} {m : Nat} {s s' : State} {x : Pass α}
  {f : α → Pass β} {Q : α → State → Prop} {R : β → State → Prop} {b c : ClassId} {d : ClassDecl}
  {line : UInt32} {i : ScopeId} {name : String} {symbol : Symbol} {n : Nat}
  {recur : ClassId → Pass Unit}

/-! ## Handles that lead nowhere -/

/-- A handle stops a pass only if handles may lead nowhere. -/
def Strays (ρ : Ranking) (a : Abort) : Prop := ∀ w, a = .broken w → ρ.loose ∧ w = .dangling

/-- A question has no answer only if handles may lead nowhere. -/
def Query.Strays (ρ : Ranking) (r : Query α) : Prop := ∀ w, r = .error w → ρ.loose ∧ w = .dangling

namespace Query.Strays

theorem bind {r : Query α} {g : α → Query β} (h : r.Strays ρ) (hg : ∀ a,
    r = .ok a → (g a).Strays ρ) :
    Query.Strays ρ (r >>= g) := by
  cases r with
  | ok a => exact hg a rfl
  | error w =>
    intro w' hw
    cases hw
    exact h w rfl

theorem pure {a : α} : Query.Strays ρ (Pure.pure a) := fun _ h => by cases h

theorem fetch {k : Kind} {a : Arena k α} {i : Handle k} (hi : ρ.loose ∨ i.slot < a.size) :
    Query.Strays ρ (a.fetch i) := by
  intro w hw
  rcases hi with hi | hi
  · unfold Arena.fetch at hw
    cases h : a.get? i <;> rw [h] at hw <;> cases hw
    exact ⟨hi, rfl⟩
  · obtain ⟨d, hd⟩ := exists_get? hi
    rw [fetch_ok.2 hd] at hw
    cases hw

theorem mapM {g : ι → Query α} {xs : List ι} (h : ∀ i ∈ xs, (g i).Strays ρ) :
    Query.Strays ρ (xs.mapM g) := by
  induction xs with
  | nil => exact pure
  | cons i _ ih =>
    rw [List.mapM_cons]
    exact (h i (by simp)).bind fun _ _ => (ih fun j hj => h j (by simp [hj])).bind fun _ _ => pure

theorem membersOf (hd : ρ.SeesAll p d.parts) : Query.Strays ρ (Resolve.membersOf p d) := by
  refine (mapM fun k hk => ?_).bind fun _ _ => (mapM fun k hk => ?_).bind fun _ _ =>
    (mapM fun k hk => ?_).bind fun _ _ => pure
  · exact (fetch (hd (.const k) (by simp [ClassDecl.parts, hk]))).bind fun _ _ => pure
  · exact (fetch (hd (.field k) (by simp [ClassDecl.parts, hk]))).bind fun _ _ => pure
  · exact (fetch (hd (.method k) (by simp [ClassDecl.parts, hk]))).bind fun _ _ => pure

end Query.Strays

namespace Pass.Ends

theorem answer_bind {r : Query α} (h : r.Strays ρ)
    (hf : ∀ a, r = .ok a → Ends (Strays ρ) (f a) s R) : Ends (Strays ρ) (answer r >>= f) s R := by
  cases r with
  | ok a => exact bind_of_ok rfl (hf a rfl)
  | error => exact of_error rfl fun w' hw => h w' (by cases hw; rfl)

theorem ask_bind {r : Program → Query α} (h : (r s.program).Strays ρ)
    (hf : ∀ a, r s.program = .ok a → Ends (Strays ρ) (f a) s R) :
    Ends (Strays ρ) (ask r >>= f) s R :=
  ⟨(answer_bind h hf).ok, (answer_bind h hf).error⟩

theorem classScope_bind {f : ScopeId → Pass β} (h : ρ.loose ∨ c.slot < s.classScopes.size)
    (hf : ∀ i, s.classScopes.get? c = some i → Ends (Strays ρ) (f i) s R) :
    Ends (Strays ρ) (classScope c >>= f) s R := by
  have hscope := answer_bind (.fetch h) fun i hi => hf i (fetch_ok.1 hi)
  exact ⟨hscope.ok, hscope.error⟩

theorem stray_fail {fault : Fault} : Ends (Strays ρ) (Pass.fail line fault : Pass α) s Q :=
  .fail fun _ h => by cases h

theorem defineIn (hi : i.slot < s.table.scopes.size) :
    Ends (Strays ρ) (Pass.defineIn i line name symbol) s fun _ s' =>
      ∃ t, s.table.define? i name symbol = .ok (some t) ∧ s' = { s with table := t } := by
  have hc : s.table.scopes[i.slot]? = some s.table.scopes[i.slot] := Array.getElem?_eq_getElem hi
  refine ⟨fun _ s' run => defineIn_eq_ok.1 run, fun b s' run => ?_⟩
  unfold Pass.defineIn Pass.askTable Pass.answer at run
  simp only [Bind.bind, EStateM.bind, ScopeTable.define?, ScopeTable.fetch, hc, Except.bind] at run
  cases hfind : s.table.scopes[i.slot].find? name with
  | some _ =>
    simp only [hfind] at run
    cases run
    exact fun _ h => by cases h
  | none =>
    simp only [hfind] at run
    cases run

/-- What is kept on the way holds at the end. -/
theorem and_keeps {E : Abort → Prop} {I : State → Prop} {P : α → State → Prop} (h : Ends E x s Q)
    (hk : Keeps I x s P) (hi : I s) : Ends E x s fun a s' => Q a s' ∧ I s' ∧ P a s' :=
  ⟨fun a s' hx => ⟨h.ok a s' hx, hk.of_ok hi hx⟩, h.error⟩

end Pass.Ends

/-! ## Registration -/

/-- Names are being registered: the program is as it was, and it has a scope. -/
def Registering (p : Program) (s : State) : Prop := s.program = p ∧ 0 < s.table.scopes.size

namespace Registering

section

variable (h : Registering p s)

include h

theorem defineIn (hi : i.slot < s.table.scopes.size) :
    Ends (Strays ρ) (Pass.defineIn i line name symbol) s fun _ s' =>
      Registering p s' ∧ i.slot < s'.table.scopes.size := by
  refine (Ends.defineIn hi).mono ?_ fun _ h => h
  rintro _ _ ⟨t, ht, rfl⟩
  obtain ⟨c, -, -, rfl⟩ := ScopeTable.define?_ok ht
  exact ⟨⟨h.1, by simpa [ScopeTable.set] using h.2⟩, by simpa [ScopeTable.set] using hi⟩

theorem defineGlobal :
    Ends (Strays ρ) (Resolve.defineGlobal line name symbol) s fun _ s' => Registering p s' :=
  (h.defineIn h.2).mono (fun _ _ h => h.1) fun _ h => h

theorem registerClass (hc : c.slot < p.classes.size) :
    Ends (Strays ρ) (Resolve.registerClass c) s fun _ s' => Registering p s' := by
  refine .ask_bind (.fetch (.inr (h.1 ▸ hc))) fun d _ => .modify_bind ?_
  refine (defineGlobal (s := { s with file := d.file }) h).bind fun _ s1 h1 => ?_
  refine .bind_of_ok (addScope_eq_ok.2 ⟨rfl, rfl⟩) (.of_ok rfl ⟨h1.1, ?_⟩)
  simp [ScopeTable.add]

theorem registerEnum {e : EnumId} (hp : ρ.Covers p) (he : e.slot < p.enums.size) :
    Ends (Strays ρ) (Resolve.registerEnum e) s fun _ s' => Registering p s' := by
  refine .ask_bind (.fetch (.inr (h.1 ▸ he))) fun d hd => .modify_bind ?_
  have hd : p.enums.get? e = some d := h.1 ▸ fetch_ok.1 hd
  refine (defineGlobal (s := { s with file := d.file }) h).bind fun _ s1 h1 => ?_
  refine .bind_of_ok (addScope_eq_ok.2 ⟨rfl, rfl⟩) (.modify_bind ?_)
  refine Ends.mono (Ends.forM (P := fun _ s' => Registering p s' ∧
    s1.table.next.slot < s'.table.scopes.size) (fun _ k hk s2 h2 => ?_) ⟨⟨h1.1, ?_⟩, ?_⟩)
    (fun _ _ h => h.1) fun _ h => h
  · have hvalue : ρ.Sees p (.const k) :=
      hp.enums d (mem_toList_of_get? hd) _ (by simpa [EnumDecl.parts] using hk)
    exact .ask_bind (.fetch (h2.1.1 ▸ hvalue)) fun v _ => h2.1.defineIn h2.2
  · simp [ScopeTable.add]
  · simp [ScopeTable.next, ScopeTable.add]

theorem registerGlobal {k : ConstId} (hk : ρ.Sees p (.const k)) :
    Ends (Strays ρ) (Resolve.registerGlobal k) s fun _ s' => Registering p s' := by
  refine .ask_bind (.fetch (h.1 ▸ hk)) fun d _ => ?_
  unfold Resolve.enterOwner
  split
  · exact .modify_bind (defineGlobal h)
  · exact .bind_of_ok rfl (defineGlobal h)

end

theorem register (hp : ρ.Covers p) :
    Ends (Strays ρ) Resolve.register (.start p) fun _ s' => Registering p s' := by
  have hstart : Registering p (.start p) := ⟨rfl, Nat.zero_lt_one⟩
  refine (Ends.forM (P := fun _ s => Registering p s)
    (fun _ b _ s hs => hs.defineGlobal) hstart).bind fun _ s1 h1 => ?_
  refine .get_bind ((Ends.forM (P := fun _ s => Registering p s) (fun _ c hc s hs => ?_) h1).bind
    fun _ s2 h2 => ?_)
  · exact hs.registerClass (h1.1 ▸ mem_handles.1 hc)
  refine .get_bind ((Ends.forM (P := fun _ s => Registering p s) (fun _ e he s hs => ?_) h2).bind
    fun _ s3 h3 => ?_)
  · exact hs.registerEnum hp (h2.1 ▸ mem_handles.1 he)
  refine .get_bind (Ends.forM (P := fun _ s => Registering p s) (fun _ k hk s hs => ?_) h3)
  exact hs.registerGlobal (hp.globals k (h3.1 ▸ hk))

end Registering

/-! ## What is kept -/

/-- All handles that are stored or bound lead somewhere, unless they may lead nowhere. The code is
as it was, and no class and no enumeration is lost. -/
structure Held (p : Program) (ρ : Ranking) (s : State) : Prop where
  handles : ρ.Covers s.program
  bound : s.table.BindsOnly fun symbol => ρ.SeesAll s.program symbol.refs
  exprs : s.program.exprs = p.exprs
  vars : s.program.vars = p.vars
  stmts : s.program.stmts = p.stmts
  classes : s.program.classes.size = p.classes.size
  enums : s.program.enums = p.enums

namespace Held

theorem start (hp : ρ.Covers p) : Held p ρ (.start p) where
  handles := hp
  bound i scope name symbol hc hb := by
    have hempty : ∀ scope ∈ (State.start p).table.scopes, scope.bindings = [] := by
      simp [State.start, ScopeTable.initial]
    rw [hempty scope (Array.mem_of_getElem? hc)] at hb
    cases hb
  exprs := rfl
  vars := rfl
  stmts := rfl
  classes := rfl
  enums := rfl

/-- Another program with the same room. -/
theorem setProgram (h : Held p ρ s) (hg : s.program.Grows q)
    (hq : q.Refers (ρ.Sees s.program)) (he : q.exprs = p.exprs) (hv : q.vars = p.vars)
    (hs : q.stmts = p.stmts) (hc : q.classes.size = p.classes.size) (hn : q.enums = p.enums) :
    Held p ρ { s with program := q } where
  handles := hq.mono fun _ => hg.sees
  bound i c name symbol hc hb := hg.seesAll (h.bound i c name symbol hc hb)
  exprs := he
  vars := hv
  stmts := hs
  classes := hc
  enums := hn

theorem linking (p : Program) (ρ : Ranking) : Linking (fun t => t.refs = []) (Held p ρ) where
  place hp ht h := by
    refine ⟨hp ▸ h.handles, ?_, hp ▸ h.exprs, hp ▸ h.vars, hp ▸ h.stmts,
      hp ▸ h.classes, hp ▸ h.enums⟩
    unfold ScopeTable.BindsOnly
    rw [hp, ht]
    exact h.bound
  addScope _ _ h := { h with bound := h.bound.add }
  define hs ht h := by
    obtain ⟨c, hc, -, rfl⟩ := ScopeTable.define?_ok ht
    refine { h with bound := h.bound.set hc fun b hb => ?_ }
    rcases List.mem_cons.1 hb with rfl | hb
    · refine .inr ?_
      cases hs with
      | type hnone => exact fun w hw => absurd hw (by simp [Symbol.refs, hnone])
      | classDecl hd | enumDecl hd | const hd | field hd | method hd =>
        exact fun w hw => .inr (List.mem_singleton.1 hw ▸ lt_size_of_get? hd)
    · exact .inl hb
  builtin := by decide
  setParent ht h := by
    simp only [ScopeTable.setParent, Query.bind_ok, Query.pure_ok, ScopeTable.fetch_ok] at ht
    obtain ⟨c, hc, rfl⟩ := ht
    exact { h with bound := h.bound.set hc fun _ => .inl }
  setClass {s c d d'} hd ho hb h := by
    refine h.setProgram .setClass (h.handles.setClass fun w hw => ?_) h.exprs h.vars h.stmts
      ((size_set ..).trans h.classes) h.enums
    have hold := h.handles.classes d (mem_toList_of_get? hd)
    have hparts : d'.outline.parts = d.outline.parts := congrArg ClassDecl.parts ho
    rcases List.mem_append.1 hw with hw | hw
    · exact hold w (List.mem_append_left _ (hparts ▸ hw))
    · obtain ⟨b, hbase, rfl⟩ := List.mem_map.1 hw
      rcases hb b (Option.mem_toList.1 hbase) with hb | ⟨i, scope, name, hscope, hmem⟩
      · exact hold _ (List.mem_append_right _ (List.mem_map_of_mem (Option.mem_toList.2 hb)))
      · exact h.bound i scope name _ hscope hmem _ (List.mem_singleton_self _)
  addOrdered {s c} hc h := by
    refine h.setProgram ⟨Nat.le_refl _, fun y _ => by cases y <;> rfl⟩ { h.handles with
      ordered := fun c' hc' => ?_ } h.exprs h.vars h.stmts h.classes h.enums
    rcases List.mem_append.1 hc' with hc' | hc'
    · exact h.handles.ordered c' hc'
    · obtain rfl := List.mem_singleton.1 hc'
      exact .inr hc

end Held

/-! ## Bases -/

/-- The class is resolved, and so are its base, the base of its base and so on. -/
inductive Program.Anchored (p : Program) : ClassId → Prop
  | intro {c : ClassId} {d : ClassDecl} : p.classes.get? c = some d → d.status = .resolved →
      (∀ b, d.base = some b → p.Anchored b) → p.Anchored c

namespace Program.Anchored

theorem mono (h : p.Anchored c) (hk : ∀ c d, p.classes.get? c = some d → d.status = .resolved →
    q.classes.get? c = some d) : q.Anchored c := by
  induction h with
  | intro hd hs _ ih => exact .intro (hk _ _ hd hs) hs ih

/-- The way along the bases does not lead back. -/
theorem not_circular (h : p.Anchored c) : ¬ Relation.TransGen p.HasBase c c := by
  induction h with
  | @intro _ d hd _ _ ih =>
    intro hway
    obtain ⟨b, hb, hback⟩ := Relation.TransGen.head'_iff.1 hway
    obtain ⟨d', hd', hbase⟩ := hb
    obtain rfl := hd.some_unique hd'
    exact ih b hbase (Relation.TransGen.tail' hback ⟨d, hd, hbase⟩)

end Program.Anchored

/-- No class has a base. -/
def Program.Baseless (p : Program) : Prop := ∀ d ∈ p.classes.toList, d.base = none

/-- The bases are linked as far as classes are resolved. -/
structure Program.Anchoring (p : Program) : Prop where
  unvisited : ∀ c d, p.classes.get? c = some d → d.status = .unvisited → d.base = none
  anchored : ∀ c d, p.classes.get? c = some d → d.status = .resolved → p.Anchored c

namespace Program.Anchoring

theorem start (hp : p.Baseless) : p.Anchoring where
  unvisited c d hd _ := hp d (mem_toList_of_get? hd)
  anchored c d hd hs := by
    refine .intro hd hs fun b hbase => ?_
    rw [hp d (mem_toList_of_get? hd)] at hbase
    cases hbase

/-- Only the classes matter. -/
theorem congr (h : p.Anchoring) (hc : q.classes = p.classes) : q.Anchoring where
  unvisited := hc ▸ h.unvisited
  anchored c d hd hs := (h.anchored c d (hc ▸ hd) hs).mono fun _ _ hd _ => hc ▸ hd

/-- A class that is not resolved changes. If it is resolved then, so is its base. -/
theorem setClass {d' : ClassDecl} (h : s.program.Anchoring)
    (hd : s.program.classes.get? c = some d) (hr : d.status ≠ .resolved)
    (hu : d'.status = .unvisited → d'.base = none)
    (hg : d'.status = .resolved → ∀ b, d'.base = some b → ClassResolved b s) :
    (s.setClass c d').program.Anchoring := by
  have hkeep : ∀ c' e, s.program.classes.get? c' = some e → e.status = .resolved →
      (s.setClass c d').program.classes.get? c' = some e := by
    intro c' e he hs
    have hne : c ≠ c' := by
      rintro rfl
      exact hr ((hd.some_unique he) ▸ hs)
    exact (Arena.get?_set_of_ne hne).trans he
  constructor <;> intro c' e he hs <;> rcases Arena.get?_set_cases he with ⟨rfl, rfl⟩ | he'
  · exact hu hs
  · exact h.unvisited c' e he' hs
  · refine .intro he hs fun b hb => ?_
    obtain ⟨e, he, hs⟩ := hg hs b hb
    exact (h.anchored b e he hs).mono hkeep
  · exact (h.anchored c' e he' hs).mono hkeep

/-- Where all classes are resolved, none derives from itself. -/
theorem not_circular (h : s.program.Anchoring)
    (hall : ∀ c ∈ s.program.classes.handles, ClassResolved c s) : ¬ s.program.CircularBases := by
  rintro ⟨c, hway⟩
  obtain ⟨b, ⟨d, hd, -⟩, -⟩ := Relation.TransGen.head'_iff.1 hway
  obtain ⟨e, he, hs⟩ := hall c (mem_handles.2 (lt_size_of_get? hd))
  exact (h.anchored c e he hs).not_circular hway

end Program.Anchoring

/-! ## Visits -/

/-- The number of classes that have not been visited. -/
def Program.unlinked (p : Program) : Nat := p.classes.toList.countP fun d => d.status = .unvisited

theorem unlinked_setClass (d' : ClassDecl) (hd : s.program.classes.get? c = some d) :
    (s.setClass c d').program.unlinked + (if d.status = .unvisited then 1 else 0) =
      s.program.unlinked + if d'.status = .unvisited then 1 else 0 := by
  simpa [Program.unlinked, State.setClass] using
    countP_set (P := fun d : ClassDecl => d.status = .unvisited) (y := d') hd

theorem Program.unlinked_le (p : Program) : p.unlinked ≤ p.classes.size := by
  simpa [unlinked, size, toList] using
    List.countP_le_length (p := fun d : ClassDecl => d.status = .unvisited) (l := p.classes.toList)

/-- The state between registration and the constants. -/
structure Standing (p : Program) (ρ : Ranking) (m : Nat) (s : State) : Prop where
  chained : ChainedFrom m s
  held : Held p ρ s
  scopes : s.classScopes.size = p.classes.size
  anchoring : p.Baseless → s.program.Anchoring

namespace Standing

/-- A class that is there has a scope. -/
theorem scope (h : Standing p ρ m s) (hc : ρ.Sees s.program (.classDecl c)) :
    ρ.loose ∨ c.slot < s.classScopes.size := by
  refine hc.imp_right fun hlt => ?_
  rw [h.scopes, ← h.held.classes]
  exact hlt

theorem setClass {d' : ClassDecl} (h : Standing p ρ m s) (hd : s.program.classes.get? c = some d)
    (ho : d'.outline = d.outline) (hr : d.status ≠ .resolved)
    (hb : ∀ b, d'.base = some b → d.base = some b ∨ s.Binds (.classDecl b))
    (hu : d'.status = .unvisited → d'.base = none)
    (hg : p.Baseless → d'.status = .resolved → ∀ b, d'.base = some b → ClassResolved b s) :
    Standing p ρ m (s.setClass c d') where
  chained := h.chained.setClass hd fun hs => absurd hs hr
  held := (Held.linking p ρ).setClass hd ho hb h.held
  scopes := h.scopes
  anchoring hp := (h.anchoring hp).setClass hd hr hu (hg hp)

theorem define {t : ScopeTable}
    (h : Standing p ρ m s) (hs : Declares (fun t => t.refs = []) s.program symbol)
    (ht : s.table.define? i name symbol = .ok (some t)) : Standing p ρ m { s with table := t } where
  chained := h.chained.define ht
  held := (Held.linking p ρ).define hs ht h.held
  scopes := h.scopes
  anchoring := h.anchoring

/-- The visits of classes have depth enough as long as there are not too many of them. -/
def Visits (p : Program) (ρ : Ranking) (n : Nat) (recur : ClassId → Pass Unit) : Prop :=
  ∀ m s c, Standing p ρ m s → ρ.Sees s.program (.classDecl c) → s.program.unlinked < n →
    Ends (Strays ρ) (recur c) s fun _ s' =>
      Standing p ρ m s' ∧ LeavesVisited s s' ∧ ClassResolved c s'

/-- A class on its way, with a base that is resolved if it has one. -/
def OnItsWay (p : Program) (c : ClassId) (s : State) : Prop :=
  ∃ d, s.program.classes.get? c = some d ∧ d.status = .inProgress ∧
    (p.Baseless → ∀ b, d.base = some b → ClassResolved b s)

theorem findBase (h : Standing p ρ m s) :
    Ends (Strays ρ) (Resolve.findBase line name) s fun b s' => s.Binds (.classDecl b) ∧ s' = s := by
  refine ⟨fun b s' run => ((Linking.findBase (I := fun _ => True)).of_ok trivial run).2,
    fun a s' run => ?_⟩
  obtain ⟨found, hfound⟩ := h.chained.rooted.search h.chained.rooted.root (fun _ => true) name
  have hends : Ends (Strays ρ) (Resolve.findBase line name) s fun _ _ => True := by
    refine .bind_of_ok (lookupGlobal_eq_ok.2 ⟨hfound, rfl⟩) ?_
    split
    · exact .pure trivial
    · exact .stray_fail
  exact hends.error a s' run

/-- The scope of a class on its way is moved into that of its base. -/
theorem nestScope (h : Standing p ρ m s) (hd : s.program.classes.get? c = some d)
    (hp : d.status = .inProgress) (hb : ClassResolved b s) :
    Ends (Strays ρ) (Resolve.nestScope c b) s fun _ s' => Standing p ρ m s' ∧
    s'.program = s.program := by
  obtain ⟨e, he, hres⟩ := hb
  have hends : Ends (Strays ρ) (Resolve.nestScope c b) s fun _ s' => ∃ i j t,
      s.table.setParent i j = .ok t ∧ s' = { s with table := t } := by
    refine .classScope_bind (h.scope (.inr (lt_size_of_get? hd))) fun i hi =>
      .classScope_bind (h.scope (.inr (lt_size_of_get? he))) fun j _ => ?_
    have hscope := Array.getElem?_eq_getElem (h.chained.classes c i hi).1
    have hset : s.table.setParent i j = .ok _ :=
      Query.bind_ok.2 ⟨_, ScopeTable.fetch_ok.2 hscope, rfl⟩
    exact .bind_of_ok (askTable_eq_ok.2 ⟨hset, rfl⟩) (.of_ok rfl ⟨i, j, _, hset, rfl⟩)
  have hnests : Keeps (Nests m s) (Resolve.nestScope c b) s fun _ s' => s'.program = s.program :=
    Nests.nestScope ⟨d, hd, hp⟩ ⟨e, he, hres⟩
  refine (hends.and_keeps hnests (.refl h.chained)).mono ?_ fun _ h => h
  rintro _ _ ⟨⟨i, j, t, ht, rfl⟩, hchained, -⟩
  exact ⟨⟨hchained.toChainedFrom, (Held.linking p ρ).setParent ht h.held, h.scopes, h.anchoring⟩,
    rfl⟩

theorem linkBase (hrec : Visits p ρ n recur)
    (h : Standing p ρ m s) (hd : s.program.classes.get? c = some d) (hp : d.status = .inProgress)
    (hb : p.Baseless → d.base = none) (hn : s.program.unlinked < n) :
    Ends (Strays ρ) (Resolve.linkBase recur c) s fun _ s' => Standing p ρ m s' ∧
    OnItsWay p c s' := by
  refine .ask_bind (.fetch (.inr (lt_size_of_get? hd))) fun d' hd' => ?_
  obtain rfl := hd.some_unique (fetch_ok.1 hd')
  cases d.baseName with
  | none =>
    refine .pure ⟨h, d, hd, hp, fun hbaseless b hbase => ?_⟩
    rw [hb hbaseless] at hbase
    cases hbase
  | some name =>
    refine h.findBase.bind ?_
    rintro base s' ⟨hbound, hs'⟩
    subst s'
    obtain ⟨i, scope, name, hscope, hmem⟩ := hbound
    have hsees := h.held.bound i scope name _ hscope hmem (.classDecl base)
      (List.mem_singleton_self _)
    refine .bind_of_ok (setBase_ok hd) ?_
    have hd1 : (s.setClass c { d with base := some base }).program.classes.get? c = _ :=
      Arena.get?_set_self hd
    have h1 : Standing p ρ m (s.setClass c { d with base := some base }) := by
      refine h.setClass hd rfl (by simp [hp]) (fun b hb => .inr ?_) (by simp [hp]) (by simp [hp])
      obtain rfl := Option.some.inj hb
      exact ⟨i, scope, name, hscope, hmem⟩
    have hcount := unlinked_setClass { d with base := some base } hd
    have hsame := Nat.add_right_cancel hcount
    refine (hrec m _ base h1 (Program.Grows.setClass.sees hsees) (hsame ▸ hn)).bind ?_
    rintro _ s2 ⟨h2, hleaves, hres⟩
    have hd2 := hleaves c _ hd1 (by simp [hp])
    refine (h2.nestScope hd2 hp hres).mono ?_ fun _ h => h
    rintro _ s3 ⟨h3, hprogram⟩
    refine ⟨h3, { d with base := some base }, hprogram ▸ hd2, hp, fun _ b hbase => ?_⟩
    obtain rfl := Option.some.inj hbase
    obtain ⟨e, he, hs⟩ := hres
    exact ⟨e, hprogram ▸ he, hs⟩

theorem bindMembers (h : Standing p ρ m s) (hc : ρ.Sees s.program (.classDecl c)) :
    Ends (Strays ρ) (Resolve.bindMembers c) s fun _ s' => Standing p ρ m s' ∧
    s'.program = s.program := by
  refine .classScope_bind (h.scope hc) fun i hi => ?_
  refine .ask_bind ((Query.Strays.fetch hc).bind fun d hd => .membersOf ?_) fun members hm => ?_
  · exact fun w hw => h.held.handles.classes d (mem_toList_of_get? (fetch_ok.1 hd)) w
      (List.mem_append_left _ hw)
  · obtain ⟨d, -, hm⟩ := Query.bind_ok.1 hm
    refine Ends.mono (Ends.forM (P := fun _ s' => Standing p ρ m s' ∧ s'.program = s.program ∧
      i.slot < s'.table.scopes.size) (fun _ b hb s1 h1 => ?_) ⟨h, rfl,
      (h.chained.classes c i hi).1⟩)
      (fun _ _ h => ⟨h.1, h.2.1⟩) fun _ h => h
    obtain ⟨h1, hprogram, hlt⟩ := h1
    refine (Ends.defineIn hlt).mono ?_ fun _ h => h
    rintro _ _ ⟨t, ht, rfl⟩
    refine ⟨h1.define (hprogram ▸ Linking.declares_members hm b hb) ht, hprogram, ?_⟩
    rw [(ScopeTable.up_define ht).1]
    exact hlt

theorem linkClass (hrec : Visits p ρ n recur)
    (h : Standing p ρ m s) (hd : s.program.classes.get? c = some d) (hp : d.status = .inProgress)
    (hb : p.Baseless → d.base = none) (hn : s.program.unlinked < n) :
    Ends (Strays ρ) (Resolve.linkClass recur c) s fun _ s' => Standing p ρ m s' ∧
    OnItsWay p c s' := by
  refine (linkBase hrec h hd hp hb hn).bind ?_
  rintro _ s1 ⟨h1, d1, hd1, hp1, hbase⟩
  have hc := lt_size_of_get? hd1
  have h2 : Standing p ρ m { s1 with program := s1.program.addOrdered c } :=
    ⟨h1.chained.setProgram rfl, (Held.linking p ρ).addOrdered hc h1.held, h1.scopes,
      fun hp => (h1.anchoring hp).congr rfl⟩
  refine .modify_bind ((h2.bindMembers (.inr hc)).mono ?_ fun _ h => h)
  rintro _ s3 ⟨h3, hprogram⟩
  have hclasses : s3.program.classes = s1.program.classes := by rw [hprogram]; rfl
  refine ⟨h3, d1, hclasses ▸ hd1, hp1, fun hbaseless b hb => ?_⟩
  obtain ⟨e, he, hs⟩ := hbase hbaseless b hb
  exact ⟨e, hclasses ▸ he, hs⟩

theorem once (hrec : Visits p ρ n recur)
    (h : Standing p ρ m s) (hc : ρ.Sees s.program (.classDecl c))
    (hn : s.program.unlinked < n + 1) :
    Ends (Strays ρ) (Pass.once (.classDecl c) (Resolve.linkClass recur c)) s fun _ s' =>
      Standing p ρ m s' := by
  refine .ask_bind ((Query.Strays.fetch hc).bind fun _ _ => .pure) fun status hstatus => ?_
  simp only [Visited.classDecl, Query.bind_ok, fetch_ok, Query.pure_ok] at hstatus
  obtain ⟨d, hd, hd'⟩ := hstatus
  cases status with
  | resolved => exact .pure h
  | inProgress =>
    exact .ask_bind ((Query.Strays.fetch hc).bind fun _ _ => .pure) fun _ _ => .stray_fail
  | unvisited =>
    have hcount := unlinked_setClass { d with status := .inProgress } hd
    simp only [hd', if_true, reduceCtorEq, if_false, Nat.add_zero] at hcount
    refine .bind_of_ok (markClass_ok hd) ?_
    have hd1 : (s.setClass c { d with status := .inProgress }).program.classes.get? c = _ :=
      Arena.get?_set_self hd
    have h1 : Standing p ρ m (s.setClass c { d with status := .inProgress }) :=
      h.setClass hd rfl (by simp [hd']) (fun _ => .inl) (by simp) (by simp)
    refine (linkClass hrec h1 hd1 rfl (fun hp => (h.anchoring hp).unvisited c d hd hd')
      (by omega)).bind ?_
    rintro _ s2 ⟨h2, d2, hd2, hp, hbase⟩
    exact .of_ok (markClass_ok hd2) (h2.setClass hd2 rfl (by simp [hp]) (fun _ => .inl) (by simp)
      fun hbaseless _ => hbase hbaseless)

/-- A class that is being visited is not counted any more, and classes that have been visited are
not visited again. -/
theorem classWithin (p : Program) (ρ : Ranking) (n : Nat) :
    Visits p ρ n (Resolve.classWithin n) := by
  induction n with
  | zero => exact fun _ _ _ _ _ hn => absurd hn (Nat.not_lt_zero _)
  | succ n ih =>
    intro m s c h hc hn
    have hends : Ends (Strays ρ) (Resolve.classWithin (n + 1) c) s
        fun _ s' => Standing p ρ m s' := by
      refine .ask_bind (.fetch hc) fun d _ => .classScope_bind (h.scope hc) fun i hi => .within ?_
      have hin : Standing p ρ s.table.scopes.size
          { s with file := d.file, table := s.table.enter i } :=
        ⟨h.chained.enter (h.chained.classes c i hi).1, { h.held with }, h.scopes, h.anchoring⟩
      refine (once ih hin hc hn).mono (fun _ s' h' => ?_) fun _ h => h
      exact ⟨h.chained.back h'.chained, { h'.held with }, h'.scopes, h'.anchoring⟩
    refine (hends.and_keeps (Nests.classWithin (n + 1) m s c) (.refl h.chained)).mono ?_
      fun _ h => h
    rintro _ s' ⟨h', hnests, hres⟩
    exact ⟨h', hnests.leaves, hres⟩

/-- When the visit of the classes is over, no class derives from itself. -/
theorem resolveClasses (h : Standing p ρ m s) :
    Ends (Strays ρ) Resolve.resolveClasses s fun _ s' =>
      Standing p ρ m s' ∧ (p.Baseless → ¬ s'.program.CircularBases) := by
  refine .get_bind ((Ends.forM (P := fun seen s' => Standing p ρ m s' ∧
    ∀ c ∈ seen, ClassResolved c s') (fun seen c hc s1 h1 => ?_) ⟨h, by simp⟩).mono ?_ fun _ h => h)
  · obtain ⟨h1, hseen⟩ := h1
    have hsees : ρ.Sees s1.program (.classDecl c) := by
      refine .inr (?_ : c.slot < s1.program.classes.size)
      rw [h1.held.classes, ← h.held.classes]
      exact mem_handles.1 hc
    refine .get_bind ((classWithin p ρ _ m s1 c h1 hsees
      (Nat.lt_succ_of_le s1.program.unlinked_le)).mono ?_ fun _ h => h)
    rintro _ s2 ⟨h2, hleaves, hres⟩
    refine ⟨h2, fun c' hc' => ?_⟩
    rcases List.mem_append.1 hc' with hc' | hc'
    · obtain ⟨d, hd, hr⟩ := hseen c' hc'
      exact ⟨d, hleaves c' d hd (by simp [hr]), hr⟩
    · obtain rfl := List.mem_singleton.1 hc'
      exact hres
  · rintro _ s' ⟨h', hall⟩
    refine ⟨h', fun hp => (h'.anchoring hp).not_circular fun c hc => hall c (mem_handles.2 ?_)⟩
    rw [h.held.classes, ← h'.held.classes]
    exact mem_handles.1 hc

end Standing

/-! ## Before the constants -/

/-- The part of the pass before the constants. -/
def Resolve.prepare : Pass Unit := do
  register
  resolveClasses

theorem Resolve.run_eq_prepare : run = (do prepare; resolveMembers) := by
  rw [run_eq, prepare, bind_assoc]

theorem Ranking.Records.of_lt {k : Kind} {a : Arena k ScopeId} {i : Handle k} {t : ScopeTable}
    (hi : ρ.loose ∨ i.slot < a.size) (ht : ∀ j, a.get? i = some j → j.slot < t.scopes.size) :
    ρ.Records t (a.get? i) := by
  cases hj : a.get? i with
  | some j => exact ht j hj
  | none =>
    refine hi.resolve_right fun hlt => ?_
    obtain ⟨j, hj'⟩ := exists_get? hlt
    cases hj.symm.trans hj'

/-- Handles lead somewhere, also where it stops. -/
theorem Held.prepare : Preserves (Held p ρ) Resolve.prepare :=
  ((linking p ρ).registerBuiltins.bind fun _ => (linking p ρ).registerDeclarations).bind fun _ =>
    Preserves.get.bind fun _ => .forM fun c _ => Preserves.get.bind fun _ =>
      (linking p ρ).classWithin _ c

/-- Everything is in place for the constants at the end. -/
theorem sound_of_prepare (hp : ρ.Covers p) (hf : ρ.Fits p) (he : ρ.exprs = p.exprs.size)
    (hs : ρ.stmts = p.stmts.size) : Ends (Strays ρ) Resolve.prepare (.start p) fun _ s =>
      Sound ρ s ∧ (p.Baseless → ¬ s.program.CircularBases) := by
  refine Ends.bind (P := fun _ s => Declared p s ∧ Standing p ρ 0 s)
    ⟨fun _ s run => ?_, (Registering.register hp).error⟩ fun _ s1 h1 => ?_
  · have h := declared_of_register run
    have hlinking := Held.linking p ρ
    have hregister := hlinking.registerBuiltins.bind fun _ => hlinking.registerDeclarations
    refine ⟨h, (KeepsChains.register 0 _).of_ok ⟨.start p, Nat.zero_le _⟩ run |>.1,
      ((hregister _).of_ok (.start hp) run).1, ?_,
      fun hb => (Program.Anchoring.start hb).congr (by rw [h.program])⟩
    rw [h.classScopes]
    simp [size]
  · obtain ⟨hdeclared, h1⟩ := h1
    refine (h1.resolveClasses.and_keeps (SamePlace.resolveClasses s1) (.refl s1)).mono ?_
      fun _ h => h
    rintro _ s2 ⟨⟨h2, hcirc⟩, hplace, -⟩
    refine ⟨⟨h2.held.handles, hf.congr h2.held.exprs h2.held.vars h2.held.stmts,
      h2.held.exprs ▸ he.le,
      h2.held.stmts ▸ hs.le, h2.chained.rooted.nested, h2.held.bound, h2.chained.current,
      fun c hc => .of_lt (h2.scope hc) fun i hi => (h2.chained.classes c i hi).1,
      fun d hd => .of_lt (hd.imp_right fun hlt => ?_) (h2.chained.enums d), fun f hm => ?_⟩, hcirc⟩
    · have hlt : d.slot < s2.program.enums.size := hlt
      rw [h2.held.enums] at hlt
      rw [hplace.enumScopes]
      exact lt_size_of_get? (hdeclared.enumScope hlt).1
    · rw [hplace.method, hdeclared.method] at hm
      cases hm

end Ci
