-- The scopes of a pass form a tree. Whatever the program, and whatever an earlier
-- pass has left in it, every scope but that of the program stands inside another one,
-- and the way outwards comes to the program scope. The scope of a class is moved into
-- that of its base once the base is resolved, while the class itself is not, so the
-- way from the base does not lead back.
import Ci.Proofs.Frame.Context
import Ci.Proofs.Hierarchy.Circles
import Ci.Proofs.Safety.Queries

namespace Ci

open Pass Resolve Program

variable {kind : ScopeKind} {name : String} {symbol : Symbol} {file : FileId} {i : ScopeId}
  {line : UInt32} {recur : ClassId → Pass Unit}

/-! ## Tables -/

namespace ScopeTable

variable {t t' : ScopeTable} {i j k : ScopeId} {c : Scope}

/-- A scope stands right inside another one. -/
def Up (t : ScopeTable) (i j : ScopeId) : Prop :=
  ∃ c, t.scopes[i.slot]? = some c ∧ c.parent = some j

/-- The program scope stands inside no other scope. Every other scope stands inside one that is
there, and the way outwards comes to the program scope. -/
structure Rooted (t : ScopeTable) : Prop where
  root : ScopeId.program.slot < t.scopes.size
  top : ∀ j, ¬ t.Up .program j
  parent : ∀ i : ScopeId, i.slot < t.scopes.size → i ≠ .program →
    ∃ j, t.Up i j ∧ j.slot < t.scopes.size
  climbs : ∀ i : ScopeId, i.slot < t.scopes.size → Relation.ReflTransGen t.Up i .program

theorem Up.unique (h : t.Up i j) (h' : t.Up i k) : j = k := by
  obtain ⟨c, hc, hp⟩ := h
  obtain ⟨c', hc', hp'⟩ := h'
  obtain rfl := hc.some_unique hc'
  exact hp.some_unique hp'

namespace Rooted

theorem initial : initial.Rooted where
  root := Nat.zero_lt_one
  top := by
    rintro j ⟨c, hc, hp⟩
    cases hc
    cases hp
  parent i hi hne := by
    refine absurd ?_ hne
    obtain ⟨_ | n⟩ := i
    · rfl
    · exact absurd hi (by simp [ScopeTable.initial])
  climbs i hi := by
    obtain ⟨_ | n⟩ := i
    · exact .refl
    · exact absurd hi (by simp [ScopeTable.initial])

/-- Only the number of scopes and their parents matter. -/
theorem congr (h : t.Rooted) (hs : t'.scopes.size = t.scopes.size)
    (hu : ∀ i j, t'.Up i j ↔ t.Up i j) : t'.Rooted := by
  have heq : t'.Up = t.Up := by
    funext i j
    exact propext (hu i j)
  exact ⟨hs ▸ h.root, heq ▸ h.top, hs ▸ heq ▸ h.parent, hs ▸ heq ▸ h.climbs⟩

/-- No scope stands inside itself. -/
theorem acyclic (h : t.Rooted) (hi : i.slot < t.scopes.size) : ¬ Relation.TransGen t.Up i i := by
  induction h.climbs i hi using Relation.ReflTransGen.head_induction_on with
  | refl =>
    intro hc
    obtain ⟨j, hj, -⟩ := Relation.TransGen.head'_iff.1 hc
    exact h.top j hj
  | head hij hjr ih =>
    rename_i i j
    intro hc
    obtain ⟨k, hk, hback⟩ := Relation.TransGen.head'_iff.1 hc
    obtain rfl := hij.unique hk
    have hback : Relation.TransGen t.Up j j := .tail' hback hij
    obtain ⟨l, hl, -⟩ := Relation.TransGen.head'_iff.1 hback
    obtain ⟨c, hc, -⟩ := hl
    exact ih (Array.getElem?_eq_some_iff.1 hc).1 hback

/-- The scopes around a scope, and itself. -/
noncomputable def around (t : ScopeTable) (i : Nat) : Finset Nat :=
  open Classical in (Finset.range t.scopes.size).filter fun j => Relation.ReflTransGen t.Up ⟨i⟩ ⟨j⟩

/-- A scope has more scopes around it than its parent has. -/
theorem nested (h : t.Rooted) : t.Nested := by
  refine ⟨fun i => (around t i).card, fun i c j hc hp => ?_⟩
  have hup : t.Up ⟨i⟩ j := ⟨c, hc, hp⟩
  have hi : i < t.scopes.size := (Array.getElem?_eq_some_iff.1 hc).1
  have hne : (⟨i⟩ : ScopeId) ≠ .program := fun heq => h.top j (heq ▸ hup)
  obtain ⟨j', hj', hlt⟩ := h.parent ⟨i⟩ hi hne
  obtain rfl := hup.unique hj'
  refine ⟨hlt, Finset.card_lt_card ⟨fun k hk => ?_, fun hsub => ?_⟩⟩
  · simp only [around, Finset.mem_filter] at hk ⊢
    exact ⟨hk.1, .head hup hk.2⟩
  · have hself : i ∈ around t i := by simp [around, hi, Relation.ReflTransGen.refl]
    have hback := hsub hself
    simp only [around, Finset.mem_filter] at hback
    exact h.acyclic hi (.head' hup hback.2)

/-- A search from a scope comes to its end. -/
theorem search (h : t.Rooted) (hi : i.slot < t.scopes.size) (admits : ScopeKind → Bool)
    (name : String) : ∃ found, t.search admits name t.scopes.size (some i) = .ok found :=
  h.nested.search hi

/-! ### Changes -/

theorem add (h : t.Rooted) (hj : j.slot < t.scopes.size) : (t.add kind j).Rooted := by
  have hsize : (t.add kind j).scopes.size = t.scopes.size + 1 := Array.size_push _
  have hold : ∀ {a b : ScopeId}, a.slot < t.scopes.size → ((t.add kind j).Up a b ↔ t.Up a b) := by
    intro a b ha
    simp only [Up, ScopeTable.add, Array.getElem?_push, if_neg ha.ne]
  have hnew : ∀ {a b : ScopeId}, a.slot = t.scopes.size → ((t.add kind j).Up a b ↔ j = b) := by
    intro a b ha
    simp [Up, ScopeTable.add, ha]
  have hclimb : ∀ a : ScopeId, a.slot < t.scopes.size →
      Relation.ReflTransGen (t.add kind j).Up a .program := by
    intro a ha
    refine (h.climbs a ha).lift' id fun x y hxy => .single ((hold ?_).2 hxy)
    obtain ⟨c, hc, -⟩ := hxy
    exact (Array.getElem?_eq_some_iff.1 hc).1
  refine ⟨by rw [hsize]; exact Nat.lt_succ_of_lt h.root, fun b hb => h.top b ((hold h.root).1 hb),
    fun a ha hne => ?_, fun a ha => ?_⟩
  · rw [hsize] at ha ⊢
    rcases Nat.lt_succ_iff_lt_or_eq.1 ha with ha | ha
    · obtain ⟨b, hb, hlt⟩ := h.parent a ha hne
      exact ⟨b, (hold ha).2 hb, Nat.lt_succ_of_lt hlt⟩
    · exact ⟨j, (hnew ha).2 rfl, Nat.lt_succ_of_lt hj⟩
  · rw [hsize] at ha
    rcases Nat.lt_succ_iff_lt_or_eq.1 ha with ha | ha
    · exact hclimb a ha
    · exact .head ((hnew ha).2 rfl) (hclimb j hj)

end Rooted

/-- Names that are bound do not move scopes. -/
theorem up_define (h : t.define? k name symbol = .ok (some t')) :
    t'.scopes.size = t.scopes.size ∧ t'.current = t.current ∧ ∀ i j, t'.Up i j ↔ t.Up i j := by
  obtain ⟨c, hc, -, rfl⟩ := define?_ok h
  refine ⟨by simp [set], rfl, fun i j => ?_⟩
  by_cases hik : k.slot = i.slot
  · simp only [Up, ← hik, getElem?_set_self hc, hc, Option.some.injEq, exists_eq_left']
  · simp only [Up, getElem?_set_of_ne hik]

/-- What becomes of the parents when a scope is moved. -/
theorem up_setParent (h : t.setParent k j = .ok t') :
    t'.scopes.size = t.scopes.size ∧ t'.current = t.current ∧ t'.Up k j ∧
      ∀ a b, a ≠ k → (t'.Up a b ↔ t.Up a b) := by
  simp only [setParent, Query.bind_ok, fetch_ok, Query.pure_ok] at h
  obtain ⟨c, hc, rfl⟩ := h
  refine ⟨by simp [set], rfl, ⟨_, getElem?_set_self hc, rfl⟩, fun a b hne => ?_⟩
  have hslot : k.slot ≠ a.slot := fun heq => hne (congrArg ScopeId.mk heq.symm)
  simp only [Up, getElem?_set_of_ne hslot]

/-- A scope may be moved into another one from which the way outwards avoids it. -/
theorem Rooted.setParent (h : t.Rooted) (hs : t.setParent k j = .ok t') (hk : k ≠ .program)
    (hj : j.slot < t.scopes.size)
    (havoid : Relation.ReflTransGen (fun a b => t.Up a b ∧ a ≠ k) j .program) :
    t'.Rooted := by
  obtain ⟨hsize, -, hself, hother⟩ := up_setParent hs
  have hjroot : Relation.ReflTransGen t'.Up j .program :=
    havoid.lift' id fun a b hab => .single ((hother a b hab.2).2 hab.1)
  refine ⟨hsize ▸ h.root, fun b hb => h.top b ((hother _ b hk.symm).1 hb), fun a ha hne => ?_,
    fun a ha => ?_⟩
  · rw [hsize] at ha ⊢
    by_cases hak : a = k
    · exact ⟨j, hak ▸ hself, hj⟩
    · obtain ⟨b, hb, hlt⟩ := h.parent a ha hne
      exact ⟨b, (hother a b hak).2 hb, hlt⟩
  · rw [hsize] at ha
    induction h.climbs a ha using Relation.ReflTransGen.head_induction_on with
    | refl => exact .refl
    | head hab hbr ih =>
      rename_i a b
      by_cases hak : a = k
      · exact .head (hak ▸ hself) hjroot
      · refine .head ((hother a b hak).2 hab) (ih ?_)
        obtain ⟨b', hb', hlt⟩ := h.parent a ha fun heq => h.top b (heq ▸ hab)
        exact hab.unique hb' ▸ hlt

end ScopeTable

/-! ## States -/

variable {α β : Type} {m n : Nat} {s s' s0 : State} {x : Pass α} {f : α → Pass β} {c b : ClassId}

/-- The scopes form a tree, and the present scope and those of declarations are in it. The scope of
a class stands in the program scope or in that of a class that is resolved. -/
structure Chained (s : State) : Prop where
  rooted : s.table.Rooted
  current : s.table.current.slot < s.table.scopes.size
  classes : ∀ c i, s.classScopes.get? c = some i → i.slot < s.table.scopes.size ∧ i ≠ .program
  apart : ∀ c c' i, s.classScopes.get? c = some i → s.classScopes.get? c' = some i → c = c'
  enums : ∀ e i, s.enumScopes.get? e = some i → i.slot < s.table.scopes.size
  bases : ∀ c i j, s.classScopes.get? c = some i → s.table.Up i j →
    j = .program ∨ ∃ b, s.classScopes.get? b = some j ∧ ClassResolved b s

/-- There are some scopes at least. None is ever taken away. -/
structure ChainedFrom (m : Nat) (s : State) : Prop extends Chained s where
  size : m ≤ s.table.scopes.size

theorem Chained.start (p : Program) : Chained (.start p) where
  rooted := .initial
  current := Nat.zero_lt_one
  classes c i h := by cases h
  apart c c' i h := by cases h
  enums e i h := by cases h
  bases c i j h := by cases h

namespace ChainedFrom

theorem of_chained (h : Chained s) : ChainedFrom s.table.scopes.size s := ⟨h, Nat.le_refl _⟩

section

variable (h : ChainedFrom m s)

include h

/-- The parents are the same, and classes that are resolved stay so. -/
theorem congr (hsize : s'.table.scopes.size = s.table.scopes.size)
    (hup : ∀ i j, s'.table.Up i j ↔ s.table.Up i j)
    (hcurrent : s'.table.current.slot < s.table.scopes.size)
    (hclasses : s'.classScopes = s.classScopes) (henums : s'.enumScopes = s.enumScopes)
    (hres : ∀ b, ClassResolved b s → ClassResolved b s') : ChainedFrom m s' where
  rooted := h.rooted.congr hsize hup
  current := hsize ▸ hcurrent
  classes := hclasses ▸ hsize ▸ h.classes
  apart := hclasses ▸ h.apart
  enums := henums ▸ hsize ▸ h.enums
  bases c i j hi hj := by
    rw [hclasses] at hi ⊢
    exact (h.bases c i j hi ((hup i j).1 hj)).imp_right (Exists.imp fun b h => h.imp_right (hres b))
  size := hsize ▸ h.size

/-- Another place. -/
theorem enter (hi : i.slot < s.table.scopes.size) :
    ChainedFrom s.table.scopes.size { s with file := file, table := s.table.enter i } :=
  (of_chained h.toChained).congr rfl (fun _ _ => Iff.rfl) hi rfl rfl fun _ => id

theorem back (h' : ChainedFrom s.table.scopes.size s') : ChainedFrom m (s'.backTo s) := by
  have hback : ChainedFrom s.table.scopes.size (s'.backTo s) :=
    h'.congr rfl (fun _ _ => Iff.rfl) (h.current.trans_le h'.size) rfl rfl fun _ => id
  exact { hback with size := h.size.trans h'.size }

/-- Nothing but the program changes, and its classes do not. -/
theorem setProgram {q : Program} (hq : q.classes = s.program.classes) :
    ChainedFrom m { s with program := q } :=
  h.congr rfl (fun _ _ => Iff.rfl) h.current rfl rfl fun _ ⟨d, hd, hr⟩ => ⟨d, hq ▸ hd, hr⟩

theorem setClass {d d' : ClassDecl} (hd : s.program.classes.get? c = some d)
    (hr : d.status = .resolved → d'.status = .resolved) : ChainedFrom m (s.setClass c d') := by
  refine h.congr rfl (fun _ _ => Iff.rfl) h.current rfl rfl ?_
  rintro b ⟨e, he, hre⟩
  by_cases hb : c = b
  · subst hb
    obtain rfl := hd.some_unique he
    exact ⟨d', Arena.get?_set_self hd, hr hre⟩
  · exact ⟨e, (Arena.get?_set_of_ne hb).trans he, hre⟩

theorem define {t : ScopeTable} (hd : s.table.define? i name symbol = .ok (some t)) :
    ChainedFrom m { s with table := t } := by
  obtain ⟨hsize, hcurrent, hup⟩ := ScopeTable.up_define hd
  exact h.congr hsize hup (hcurrent ▸ h.current) rfl rfl fun _ => id

/-- A new scope stands inside one that is there. -/
theorem add (hi : i.slot < s.table.scopes.size) :
    ChainedFrom (s.table.scopes.size + 1) { s with table := s.table.add kind i } := by
  have hsize : (s.table.add kind i).scopes.size = s.table.scopes.size + 1 := Array.size_push _
  refine ⟨⟨h.rooted.add hi, hsize ▸ Nat.lt_succ_of_lt h.current, fun c j hj => ?_, h.apart,
    fun e j hj => hsize ▸ Nat.lt_succ_of_lt (h.enums e j hj), fun c j k hj hk => ?_⟩, hsize.ge⟩
  · exact ⟨hsize ▸ Nat.lt_succ_of_lt (h.classes c j hj).1, (h.classes c j hj).2⟩
  · refine h.bases c j k hj ?_
    have hlt := (h.classes c j hj).1
    simpa only [ScopeTable.Up, ScopeTable.add, Array.getElem?_push, if_neg hlt.ne] using hk

/-- A new scope becomes that of the next class. -/
theorem pushClass :
    ChainedFrom m { s with
      table := s.table.add kind .program
      classScopes := s.classScopes.push s.table.next } := by
  have hadd : ChainedFrom _ { s with table := s.table.add kind .program } := h.add h.rooted.root
  have hsize : (s.table.add kind .program).scopes.size = s.table.scopes.size + 1 :=
    Array.size_push _
  have hcases : ∀ {c i}, (s.classScopes.push s.table.next).get? c = some i →
      c.slot = s.classScopes.size ∧ i = s.table.next ∨ s.classScopes.get? c = some i := by
    intro c i hi
    simp only [Arena.get?, Arena.push, Array.getElem?_push] at hi
    split at hi
    · exact .inl ⟨by assumption, (Option.some.inj hi).symm⟩
    · exact .inr hi
  have hfresh : ∀ {c}, s.classScopes.get? c ≠ some s.table.next := fun hi =>
    (h.classes _ _ hi).1.ne rfl
  refine { hadd with
    classes := fun c i hi => ?_, apart := fun c c' i hi hi' => ?_, bases := fun c i j hi hj => ?_,
    size := h.size.trans (hsize ▸ Nat.le_succ _) }
  · rcases hcases hi with ⟨-, rfl⟩ | hi
    · refine ⟨by simp [ScopeTable.next, hsize], fun heq => ?_⟩
      exact h.rooted.root.ne (congrArg ScopeId.slot heq).symm
    · exact hadd.classes c i hi
  · rcases hcases hi with ⟨hc, rfl⟩ | hi <;> rcases hcases hi' with ⟨hc', hi'⟩ | hi'
    · exact Handle.slot_inj.1 (hc.trans hc'.symm)
    · exact absurd hi' hfresh
    · exact absurd (hi' ▸ hi) hfresh
    · exact h.apart c c' i hi hi'
  · rcases hcases hi with ⟨-, rfl⟩ | hi
    · obtain ⟨c', hc', hp⟩ := hj
      simp only [ScopeTable.add, ScopeTable.next, Array.getElem?_push_size, Option.some.injEq]
        at hc'
      subst hc'
      exact .inl (Option.some.inj hp).symm
    · refine (hadd.bases c i j hi hj).imp_right ?_
      rintro ⟨b, hb, hr⟩
      exact ⟨b, Arena.get?_push_of_some hb, hr⟩

/-- A new scope becomes that of the next enumeration. -/
theorem pushEnum : ChainedFrom m { s with
      table := s.table.add kind .program
      enumScopes := s.enumScopes.push s.table.next } := by
  have hadd : ChainedFrom _ { s with table := s.table.add kind .program } := h.add h.rooted.root
  have hsize : (s.table.add kind .program).scopes.size = s.table.scopes.size + 1 :=
    Array.size_push _
  refine { hadd with
    enums := fun e i hi => ?_, size := h.size.trans (hsize ▸ Nat.le_succ _) }
  rcases Arena.get?_push_cases hi with rfl | hi
  · simp [ScopeTable.next, hsize]
  · exact hadd.enums e i hi

end

/-- Work inside a program without statements opens no scope. -/
theorem of_moves {D : Set Node} (hD : ∀ y, .stmt y ∉ D) (hm : Moves D s s') (h : ChainedFrom m s) :
    ChainedFrom m s' := by
  have hsize := hm.scopes hD
  refine h.congr hsize (fun i j => ?_) (hm.place.current ▸ h.current) hm.place.classScopes
    hm.place.enumScopes fun b ⟨d, hd, hr⟩ => ⟨d, hm.program.classes ▸ hd, hr⟩
  constructor
  · rintro ⟨c', hc', hp⟩
    have hi : i.slot < s.table.scopes.size := hsize ▸ (Array.getElem?_eq_some_iff.1 hc').1
    obtain ⟨c'', hc'', hstep⟩ := hm.table i.slot _ (Array.getElem?_eq_getElem hi)
    obtain rfl := hc'.some_unique hc''
    exact ⟨_, Array.getElem?_eq_getElem hi, hstep.parent ▸ hp⟩
  · rintro ⟨c, hc, hp⟩
    obtain ⟨c', hc', hstep⟩ := hm.table i.slot c hc
    exact ⟨c', hc', hstep.parent.trans hp⟩

end ChainedFrom

/-! ## Parts of a pass -/

/-- A part of a pass keeps the tree of scopes, also if it stops, and takes no scope away. -/
def KeepsChains (x : Pass α) : Prop := ∀ m, Preserves (ChainedFrom m) x

namespace KeepsChains

variable {ι : Type}

theorem silent {es : List ExprId} (h : Silent es x) : KeepsChains x := fun _ => .silent h

theorem pure {a : α} : KeepsChains (pure a) := fun _ => .pure

theorem fail {fault : Fault} : KeepsChains (Pass.fail line fault : Pass α) := fun _ => .fail

theorem bind (h : KeepsChains x) (hf : ∀ a, KeepsChains (f a)) : KeepsChains (x >>= f) :=
  fun m => (h m).bind fun a => hf a m

theorem ite {q : Prop} [Decidable q] {y : Pass α} (hx : KeepsChains x) (hy : KeepsChains y) :
    KeepsChains (if q then x else y) := by
  split
  · exact hx
  · exact hy

theorem forM {g : ι → Pass Unit} {xs : List ι} (h : ∀ i, KeepsChains (g i)) :
    KeepsChains (xs.forM g) := fun m => .forM fun i _ => h i m

theorem mapM {g : ι → Pass α} {xs : List ι} (h : ∀ i, KeepsChains (g i)) :
    KeepsChains (xs.mapM g) := by
  induction xs with
  | nil => exact pure
  | cons i _ ih =>
    rw [List.mapM_cons]
    exact (h i).bind fun _ => ih.bind fun _ => pure

theorem forM_option {g : ι → Pass Unit} {o : Option ι} (h : ∀ i, KeepsChains (g i)) :
    KeepsChains (o.forM g) := by
  cases o with
  | none => exact pure
  | some i => exact h i

theorem mapM_option {g : ι → Pass α} {o : Option ι} (h : ∀ i, KeepsChains (g i)) :
    KeepsChains (o.mapM g) := by
  cases o with
  | none => exact pure
  | some i => exact (h i).bind fun _ => pure

theorem change {g : Program → Query Program}
    (hg : ∀ p q, g p = .ok q → q.classes = p.classes) : KeepsChains (Pass.change g) :=
  fun _ => .change fun _ _ hq h => h.setProgram (hg _ _ hq)

theorem defineIn : KeepsChains (Pass.defineIn i line name symbol) :=
  fun _ _ => Preserves.of_keeps (.defineIn fun _ ht h => h.define ht)

/-- No scope is taken away. -/
theorem grows {Q : α → State → Prop} (h : ∀ m, Keeps (ChainedFrom m) x s Q) :
    Keeps (ChainedFrom m) x s fun _ s' => s.table.scopes.size ≤ s'.table.scopes.size := by
  refine ⟨fun hs => ?_⟩
  have hm := (h m).holds hs
  have hsize := (h s.table.scopes.size).holds (.of_chained hs.toChained)
  cases hx : x s with
  | ok =>
    rw [hx] at hm hsize
    exact ⟨hm.1, hsize.1.size⟩
  | error =>
    rw [hx] at hm
    exact hm

/-- A part that runs in a scope that is there. -/
theorem within (hx : KeepsChains x) (hi : i.slot < s.table.scopes.size) :
    Keeps (ChainedFrom m) (Pass.within file i x) s fun _ _ => True :=
  .of_inv fun hs => Preserves.of_keeps (.within (fun h => h.enter hi) (hx _ _) fun _ h => hs.back h)

theorem inScope (hx : KeepsChains x) : KeepsChains (Pass.inScope kind x) := by
  refine fun m s => .of_inv fun hs => Keeps.get_bind ?_
  refine (Keeps.addScope fun h => ?_).bind ?_
  · exact { h.add h.current with size := h.size.trans (by simp [ScopeTable.add]) }
  · rintro _ _ _ ⟨rfl, rfl⟩
    exact hx.within (by simp [ScopeTable.next, ScopeTable.add])

theorem inside {b : Breakable} (hx : KeepsChains x) : KeepsChains (Pass.inside b x) := fun m _ =>
  Preserves.of_keeps (.inside (J := ChainedFrom m) (fun h => { h with }) (hx m _) fun _ h =>
    { h with })

/-- A part that runs in the scope of a class. -/
theorem inClass {g : ScopeId → Pass α}
    (h : ∀ m s i, i.slot < s.table.scopes.size → Keeps (ChainedFrom m) (g i) s fun _ _ => True) :
    KeepsChains (classScope c >>= g) := fun m s => .of_inv fun hs =>
  Keeps.classScope_bind fun i hi => h m s i (hs.classes c i hi).1

/-! ## Expressions, types and constants -/

/-- Expressions, constants and variables. Nothing leads from them to a statement. -/
def values : Set Node := { x | (∃ e, x = .expr e) ∨ (∃ k, x = .const k) ∨ ∃ v, x = .var v }

theorem Expr.parts_subset_values (kind : Expr) : ∀ y ∈ kind.parts, y ∈ values := by
  intro y hy
  unfold Ci.Expr.parts at hy
  split at hy
  · exact .inr (.inr ⟨_, List.mem_singleton.1 hy⟩)
  · obtain ⟨e, -, rfl⟩ := List.mem_map.1 hy
    exact .inl ⟨e, rfl⟩

theorem closed_values {p : Program} {t : ScopeTable} : Closed values p t where
  parts x hx y hy := by
    refine .inl ?_
    rcases hx with ⟨e, rfl⟩ | ⟨k, rfl⟩ | ⟨v, rfl⟩
    · cases hn : p.exprs.get? e with
      | none => simp [Program.parts, hn] at hy
      | some n => exact Expr.parts_subset_values n.kind y (parts_expr hn ▸ hy)
    · cases hd : p.consts.get? k with
      | none => simp [Program.parts, hd] at hy
      | some =>
        simp only [parts_const hd, List.mem_map] at hy
        obtain ⟨e, -, rfl⟩ := hy
        exact .inl ⟨e, rfl⟩
    · cases hd : p.vars.get? v with
      | none => simp [Program.parts, hd] at hy
      | some =>
        simp only [parts_var hd, List.mem_cons, List.mem_map] at hy
        rcases hy with rfl | ⟨e, -, rfl⟩
        · exact .inl ⟨_, rfl⟩
        · exact .inl ⟨e, rfl⟩
  named _ _ _ _ _ _ _ := .inl (by simp [values])
  bound _ _ _ _ _ _ := .inl (by simp [values])

theorem of_moves {R : State → α → State → Prop}
    (h : ∀ s, Keeps (Moves values s) x s (R s)) : KeepsChains x := fun _ s =>
  Preserves.of_keeps (Moves.weaken closed_values (h s) fun _ hm hs =>
    hs.of_moves (by simp [values]) hm)

theorem callsWithin_expr (n : Nat) (e : ExprId) : KeepsChains ((callsWithin n).expr e) :=
  of_moves fun s => (Moves.stay_callsWithin values n).expr s e (.inl (by simp [values]))

theorem callsWithin_type (n : Nat) (e : ExprId) : KeepsChains ((callsWithin n).type e) :=
  of_moves fun s => (Moves.stay_callsWithin values n).type s e (.inl (by simp [values]))

theorem callsWithin_const (n : Nat) (k : ConstId) : KeepsChains ((callsWithin n).const k) :=
  of_moves fun s => (Moves.stay_callsWithin values n).const s k (.inl (by simp [values]))

theorem resolveExpr (e : ExprId) : KeepsChains (Resolve.resolveExpr e) :=
  (silent .get).bind fun _ => callsWithin_expr _ e

theorem resolveType (e : ExprId) : KeepsChains (Resolve.resolveType e) :=
  (silent .get).bind fun _ => callsWithin_type _ e

theorem resolveConst (k : ConstId) : KeepsChains (Resolve.resolveConst k) :=
  (silent .get).bind fun _ => callsWithin_const _ k

/-! ## Statements -/

theorem resolveCondition (e : ExprId) : KeepsChains (Resolve.resolveCondition e) :=
  (resolveExpr e).bind fun _ => (silent .coerce).bind fun _ => pure

section

variable {recur : StmtId → Pass Unit} (hr : ∀ y, KeepsChains (recur y))
include hr

theorem switch {value : ExprId} {cases : List Case} {default : Option (List StmtId)} :
    KeepsChains (Resolve.switch recur value cases default) := by
  refine (resolveExpr value).bind fun _ => (inScope (inside ?_)).bind fun _ => pure
  have hcase : ∀ c, KeepsChains (caseOf recur c) := fun c =>
    (mapM resolveExpr).bind fun _ => (forM hr).bind fun _ => pure
  exact (mapM hcase).bind fun _ => (forM_option fun _ => forM hr).bind fun _ => pure

theorem stmtKind {kind : Stmt} : KeepsChains (Resolve.stmtKind recur line kind) := by
  cases kind with
  | block => exact (inScope (forM hr)).bind fun _ => pure
  | ifThen cond onTrue =>
    exact (resolveCondition cond).bind fun _ => (hr onTrue).bind fun _ =>
      (forM_option hr).bind fun _ => pure
  | whileLoop cond body =>
    exact (resolveCondition cond).bind fun _ => (inside (hr body)).bind fun _ => pure
  | doWhile body cond =>
    exact (inside (hr body)).bind fun _ => (resolveCondition cond).bind fun _ => pure
  | forLoop _ _ _ body =>
    exact inScope ((mapM_option resolveExpr).bind fun _ => (mapM_option resolveCondition).bind
      fun _ => (mapM_option resolveExpr).bind fun _ => (inside (hr body)).bind fun _ => pure)
  | switch => exact switch hr
  | ret value =>
    refine (silent .returnTy).bind fun expected => ?_
    cases value with
    | none => exact ite pure ((silent .ask).bind fun _ => fail)
    | some value =>
      refine (resolveExpr value).bind fun _ => ite ?_ ((silent .coerce).bind fun _ => pure)
      exact (silent .ask).bind fun _ => (silent .ask).bind fun _ => fail
  | leave => exact (silent .get).bind fun _ => ite fail pure
  | next => exact (silent .get).bind fun _ => ite pure fail
  | throw value =>
    exact (resolveExpr value).bind fun _ => (silent .coerce).bind fun _ => pure
  | delete value =>
    exact (resolveExpr value).bind fun _ => (silent .ask).bind fun _ =>
      ite pure ((silent .ask).bind fun _ => fail)
  | expr value => exact (resolveExpr value).bind fun _ => pure
  | const k =>
    exact (resolveConst k).bind fun _ => (silent .ask).bind fun _ => (silent .get).bind fun _ =>
      defineIn.bind fun _ => pure

theorem stmtRule (y : StmtId) : KeepsChains (Resolve.stmtRule recur y) := by
  refine (silent .ask).bind fun _ => (stmtKind hr).bind fun _ => change fun p q hq => ?_
  obtain ⟨n, -, rfl⟩ := updateStmt_ok.1 hq
  rfl

end

theorem stmtWithin (n : Nat) (y : StmtId) : KeepsChains (Resolve.stmtWithin n y) := by
  induction n generalizing y with
  | zero => exact fun _ _ => .stuck
  | succ _ ih => exact stmtRule ih y

theorem resolveStmt (y : StmtId) : KeepsChains (Resolve.resolveStmt y) :=
  (silent .get).bind fun _ => stmtWithin _ y

/-! ## Members -/

theorem resolveField (f : FieldId) : KeepsChains (Resolve.resolveField f) := by
  refine (silent .ask).bind fun _ => (resolveType _).bind fun _ => change fun p q hq => ?_
  obtain ⟨d, -, rfl⟩ := updateField_ok.1 hq
  rfl

theorem resolveParam (v : VarId) : KeepsChains (Resolve.resolveParam v) := by
  refine (silent .ask).bind fun _ => (resolveType _).bind fun _ => change fun p q hq => ?_
  obtain ⟨d, -, rfl⟩ := updateVar_ok.1 hq
  rfl

theorem resolveSignature (f : MethodId) : KeepsChains (Resolve.resolveSignature f) := by
  refine (silent .ask).bind fun d => bind ?_ fun _ => (change fun p q hq => ?_).bind fun _ =>
    (silent .ask).bind fun _ => forM resolveParam
  · cases d.typeExpr with
    | none => exact pure
    | some e => exact resolveType e
  · obtain ⟨d, -, rfl⟩ := updateMethod_ok.1 hq
    rfl

theorem resolveTypes (c : ClassId) : KeepsChains (Resolve.resolveTypes c) :=
  (silent .ask).bind fun _ => inClass fun _ _ _ hi => within
    ((silent .ask).bind fun _ => (forM resolveField).bind fun _ =>
      (silent .ask).bind fun _ => forM resolveSignature) hi

theorem resolveMethod (f : MethodId) (hi : i.slot < s.table.scopes.size) :
    Keeps (ChainedFrom m) (Resolve.resolveMethod file i f) s fun _ _ => True := by
  refine Keeps.ask_bind fun d _ => ?_
  cases d.body with
  | none => exact .pure fun _ => trivial
  | some body =>
    refine (Keeps.addScope fun h => ?_).bind ?_
    · exact { h.add hi with size := h.size.trans (by simp [ScopeTable.add]) }
    · rintro _ _ _ ⟨rfl, rfl⟩
      refine Preserves.of_keeps (.inMethod (J := ChainedFrom m) (Q := fun _ _ => True)
        (fun h => { h with }) ?_ fun _ h => { h with })
      refine within ((silent .ask).bind fun _ => (forM fun v => (silent .ask).bind fun _ =>
        (silent .get).bind fun _ => defineIn).bind fun _ => resolveStmt body) ?_
      simp [ScopeTable.next, ScopeTable.add]

theorem resolveCode (c : ClassId) : KeepsChains (Resolve.resolveCode c) := by
  refine (silent .ask).bind fun d => inClass fun m s i hi => Keeps.ask_bind fun d _ => ?_
  -- no scope is taken away, so that of the class is still there for the next method
  exact (Keeps.forM (P := fun s' => i.slot < s'.table.scopes.size) (fun f _ s' _ hi' =>
    (grows fun _ => resolveMethod f hi').mono fun _ _ _ h => hi'.trans_le h) hi).mono
      fun _ _ _ _ => trivial

/-! ## Declarations -/

theorem enterFile (file : FileId) : KeepsChains (Resolve.enterFile file) :=
  fun _ => .modify fun _ h => { h with }

/-- A new scope of a declaration. -/
theorem opened {g : ScopeId → State → State} (h : ∀ m s, ChainedFrom m s →
      ChainedFrom m (g s.table.next { s with table := s.table.add kind .program })) :
    KeepsChains (do let i ← addScope kind .program; modify (g i)) :=
  fun m s => ⟨fun hs => ⟨h m s hs, trivial⟩⟩

theorem registerClass (c : ClassId) : KeepsChains (Resolve.registerClass c) :=
  (silent .ask).bind fun d => (enterFile d.file).bind fun _ => defineIn.bind fun _ =>
    opened fun _ _ h => h.pushClass

theorem registerEnum (e : EnumId) : KeepsChains (Resolve.registerEnum e) := by
  refine (silent .ask).bind fun d => (enterFile d.file).bind fun _ => defineIn.bind fun _ m s => ?_
  have hvalues : KeepsChains (d.values.forM fun k => do
      let v ← ask (·.consts.fetch k)
      Pass.defineIn s.table.next v.line v.name (.const k)) :=
    forM fun k => (silent .ask).bind fun _ => defineIn
  exact ⟨fun hs => (hvalues m _).holds hs.pushEnum⟩

theorem registerGlobal (k : ConstId) : KeepsChains (Resolve.registerGlobal k) := by
  refine (silent .ask).bind fun d => bind ?_ fun _ => defineIn
  cases d.owner with
  | program file => exact enterFile file
  | classDecl | enumDecl | body => exact pure

/-! ## Classes -/

theorem bindMembers (c : ClassId) : KeepsChains (Resolve.bindMembers c) :=
  (silent .classScope).bind fun _ => (silent .ask).bind fun _ => forM fun _ => defineIn

end KeepsChains

/-- The class is being visited. -/
def ClassInProgress (c : ClassId) (s : State) : Prop :=
  ∃ d, s.program.classes.get? c = some d ∧ d.status = .inProgress

theorem ClassInProgress.not_resolved (h : ClassInProgress c s) : ¬ ClassResolved c s := by
  rintro ⟨d, hd, hr⟩
  obtain ⟨d', hd', hp⟩ := h
  obtain rfl := hd.some_unique hd'
  rw [hp] at hr
  cases hr

/-- From the scope of a class that is resolved outwards, there are only scopes of such classes. -/
theorem Chained.climbs_resolved (h : Chained s) {k j : ScopeId} (hc : ¬ ClassResolved c s)
    (hk : s.classScopes.get? c = some k) (hj : s.classScopes.get? b = some j)
    (hb : ClassResolved b s) :
    Relation.ReflTransGen (fun x y => s.table.Up x y ∧ x ≠ k) j .program := by
  induction h.rooted.climbs j (h.classes b j hj).1 using Relation.ReflTransGen.head_induction_on
    generalizing b with
  | refl => exact .refl
  | head hup hroot ih =>
    rename_i i j
    have hne : i ≠ k := by
      rintro rfl
      exact hc (h.apart c b i hk hj ▸ hb)
    rcases h.bases b i j hj hup with rfl | ⟨b', hb', hr⟩
    · exact .single ⟨hup, hne⟩
    · exact .head ⟨hup, hne⟩ (ih hb' hr)

/-- The tree of scopes is kept, and classes that have been visited before are left alone. -/
structure Nests (m : Nat) (s0 s : State) : Prop extends ChainedFrom m s where
  leaves : LeavesVisited s0 s

namespace Nests

theorem refl (h : ChainedFrom m s) : Nests m s s := ⟨h, fun _ _ hd _ => hd⟩

/-- What is done from a state on is done from an earlier one on. -/
theorem rebase {Q : α → State → Prop} (h : Keeps (Nests m s) x s Q) :
    Keeps (Nests m s0) x s fun a s' => LeavesVisited s s' ∧ Q a s' := by
  refine ⟨fun hs => ?_⟩
  have hx := h.holds (refl hs.toChainedFrom)
  cases hr : x s with
  | ok =>
    rw [hr] at hx
    exact ⟨⟨hx.1.toChainedFrom, hs.leaves.trans hx.1.leaves⟩, hx.1.leaves, hx.2⟩
  | error =>
    rw [hr] at hx
    exact ⟨hx.toChainedFrom, hs.leaves.trans hx.leaves⟩

/-- What is done from a state on keeps the tree. -/
theorem chained {Q : α → State → Prop} (h : Keeps (Nests m s0) x s Q) (h0 : LeavesVisited s0 s) :
    Keeps (ChainedFrom m) x s Q := by
  refine ⟨fun hs => ?_⟩
  have hx := h.holds ⟨hs, h0⟩
  cases hr : x s with
  | ok =>
    rw [hr] at hx
    exact ⟨hx.1.toChainedFrom, hx.2⟩
  | error =>
    rw [hr] at hx
    exact hx.toChainedFrom

/-- A part that keeps the tree and the classes. -/
theorem of_keepsChains (hx : KeepsChains x)
    (hc : ∀ classes, Preserves (fun s => s.program.classes = classes) x) :
    Keeps (Nests m s0) x s fun _ s' => s'.program.classes = s.program.classes := by
  refine ⟨fun hs => ?_⟩
  have hm := (hx m s).holds hs.toChainedFrom
  have hsame := (hc s.program.classes s).holds rfl
  cases hr : x s with
  | ok =>
    rw [hr] at hm hsame
    exact ⟨⟨hm.1, fun c d hd hv => by rw [hsame.1]; exact hs.leaves c d hd hv⟩, hsame.1⟩
  | error =>
    rw [hr] at hm hsame
    exact ⟨hm, fun c d hd hv => by rw [hsame]; exact hs.leaves c d hd hv⟩

/-- A class that had not been visited changes. -/
theorem setClass {d d' : ClassDecl} (h : Nests m s0 s) (hd : s.program.classes.get? c = some d)
    (hr : d.status = .resolved → d'.status = .resolved)
    (hu : ∀ d, s0.program.classes.get? c = some d → d.status = .unvisited) :
    Nests m s0 (s.setClass c d') := by
  refine ⟨h.toChainedFrom.setClass hd hr, fun b e he hv => ?_⟩
  by_cases hb : c = b
  · subst hb
    exact absurd (hu e he) hv
  · exact (Arena.get?_set_of_ne hb).trans (h.leaves b e he hv)

/-- The scope of a class that is being visited is moved into that of a class that is resolved. -/
theorem nestScope (hc : ClassInProgress c s) (hb : ClassResolved b s) :
    Keeps (Nests m s0) (Resolve.nestScope c b) s fun _ s' => s'.program = s.program := by
  refine Keeps.classScope_bind fun k hk => Keeps.classScope_bind fun j hj =>
    Keeps.askTable_bind fun t ht => (Keeps.modify fun h => ?_).mono ?_
  · have hchain := h.climbs_resolved hc.not_resolved hk hj hb
    have hrooted := h.rooted.setParent ht (h.classes c k hk).2 (h.classes b j hj).1 hchain
    obtain ⟨hsize, hcurrent, hself, hother⟩ := ScopeTable.up_setParent ht
    refine ⟨⟨⟨hrooted, hcurrent ▸ hsize ▸ h.current, hsize ▸ h.classes, h.apart, hsize ▸ h.enums,
      fun c' i l hi hl => ?_⟩, hsize ▸ h.size⟩, h.leaves⟩
    by_cases hik : i = k
    · subst hik
      exact .inr ⟨b, hself.unique hl ▸ hj, hb⟩
    · exact h.bases c' i l hi ((hother i l hik).1 hl)
  · rintro _ _ - rfl
    rfl

/-- The classes that are visited first. -/
def Visits (recur : ClassId → Pass Unit) : Prop :=
  ∀ m s c, Keeps (Nests m s) (recur c) s fun _ s' => ClassResolved c s'

theorem linkBase (hrec : Visits recur) (hc : ClassInProgress c s)
    (hu : ∀ d, s0.program.classes.get? c = some d → d.status = .unvisited) :
    Keeps (Nests m s0) (Resolve.linkBase recur c) s fun _ s' => ClassInProgress c s' := by
  refine Keeps.ask_bind fun d hd => ?_
  cases d.baseName with
  | none => exact .pure fun _ => hc
  | some =>
    refine Linking.findBase.bind_here fun base _ => ?_
    refine (Keeps.change fun q hq h => ?_).bind ?_
    · obtain ⟨d, hd, rfl⟩ := updateClass_ok.1 hq
      exact h.setClass hd id hu
    · rintro _ _ - ⟨q, hq, rfl⟩
      obtain ⟨d, hd, rfl⟩ := updateClass_ok.1 hq
      obtain ⟨d', hd', hp⟩ := hc
      obtain rfl := hd.some_unique hd'
      have hc1 : ClassInProgress c (s.setClass c { d with base := some base }) :=
        ⟨_, Arena.get?_set_self hd, hp⟩
      refine (rebase (hrec m _ base)).bind fun _ s2 _ ⟨hleaves, hb⟩ => ?_
      -- the visit of the base has left the class where it was
      have hc2 : ClassInProgress c s2 := by
        obtain ⟨e, he, hp⟩ := hc1
        exact ⟨e, hleaves c e he (by simp [hp]), hp⟩
      refine (nestScope hc2 hb).mono fun _ s3 _ hs3 => ?_
      obtain ⟨e, he, hp⟩ := hc2
      exact ⟨e, hs3 ▸ he, hp⟩

theorem linkClass (hrec : Visits recur) (hc : ClassInProgress c s)
    (hu : ∀ d, s0.program.classes.get? c = some d → d.status = .unvisited) :
    Keeps (Nests m s0) (Resolve.linkClass recur c) s fun _ s' => ClassInProgress c s' := by
  refine (linkBase hrec hc hu).bind fun _ s1 _ hc1 => ?_
  refine (Keeps.modify fun h => ?_).bind ?_
  · exact ⟨h.toChainedFrom.setProgram rfl, h.leaves⟩
  · rintro _ _ - rfl
    refine (of_keepsChains (.bindMembers c) fun classes => ?_).mono fun _ s2 _ hs2 => ?_
    · exact Preserves.classScope.bind fun _ => Preserves.ask.bind fun _ => .forM fun _ _ _ =>
        Preserves.of_keeps (.defineIn fun _ _ h => h)
    · obtain ⟨d, hd, hp⟩ := hc1
      exact ⟨d, hs2 ▸ hd, hp⟩

/-- A class that is not resolved is marked. -/
theorem mark {status : Status} (hr : ¬ ClassResolved c s)
    (hu : ∀ d, s0.program.classes.get? c = some d → d.status = .unvisited) :
    Keeps (Nests m s0) (Pass.change ((Visited.classDecl c).mark status)) s fun _ s' =>
      ∃ d, s'.program.classes.get? c = some d ∧ d.status = status := by
  refine (Keeps.change fun q hq h => ?_).mono ?_
  · obtain ⟨d, hd, rfl⟩ := updateClass_ok.1 hq
    exact h.setClass hd (fun hs => absurd ⟨d, hd, hs⟩ hr) hu
  · rintro _ _ - ⟨q, hq, rfl⟩
    obtain ⟨d, hd, rfl⟩ := updateClass_ok.1 hq
    exact ⟨_, Arena.get?_set_self hd, rfl⟩

theorem once (hrec : Visits recur) :
    Keeps (Nests m s) (Pass.once (.classDecl c) (Resolve.linkClass recur c)) s
      fun _ s' => ClassResolved c s' := by
  refine Keeps.ask_bind fun status hstatus => ?_
  simp only [Visited.classDecl, Query.bind_ok, Arena.fetch_ok, Query.pure_ok] at hstatus
  obtain ⟨d, hd, hs⟩ := hstatus
  cases status with
  | resolved => exact .pure fun _ => ⟨d, hd, hs⟩
  | inProgress => exact Keeps.ask_bind fun _ _ => .fail
  | unvisited =>
    have hu : ∀ e, s.program.classes.get? c = some e → e.status = .unvisited := by
      intro e he
      obtain rfl := hd.some_unique he
      exact hs
    have hr : ¬ ClassResolved c s := by
      rintro ⟨e, he, hr⟩
      rw [hu e he] at hr
      cases hr
    exact (mark hr hu).bind fun _ s1 _ hc1 => (linkClass hrec hc1 hu).bind fun _ s2 _ hc2 =>
      mark hc2.not_resolved hu

theorem classWithin (n : Nat) : Visits (Resolve.classWithin n) := by
  induction n with
  | zero => exact fun _ _ _ => .stuck
  | succ _ ih =>
    refine fun m s c => Keeps.ask_bind fun d _ => Keeps.classScope_bind fun i hi =>
      .of_inv fun hs => ?_
    refine (Keeps.within (J := Nests s.table.scopes.size { s with
      file := d.file, table := s.table.enter i }) (fun h => ?_) (once ih) fun s' h => ?_).mono ?_
    · exact refl (h.enter (h.classes c i hi).1)
    · exact ⟨hs.toChainedFrom.back h.toChainedFrom, h.leaves⟩
    · rintro _ _ - ⟨s', rfl, hr⟩
      exact hr

end Nests

namespace KeepsChains

theorem classWithin (n : Nat) (c : ClassId) : KeepsChains (Resolve.classWithin n c) := fun m s =>
  Preserves.of_keeps (Nests.chained (Nests.classWithin n m s c) fun _ _ hd _ => hd)

theorem resolveClasses : KeepsChains Resolve.resolveClasses :=
  (silent .get).bind fun _ => forM fun c => (silent .get).bind fun _ => classWithin _ c

theorem register : KeepsChains Resolve.register :=
  (forM fun _ => defineIn).bind fun _ => (silent .get).bind fun _ =>
    (forM registerClass).bind fun _ =>
    (silent .get).bind fun _ => (forM registerEnum).bind fun _ => (silent .get).bind fun _ =>
      forM registerGlobal

theorem resolveConsts : KeepsChains Resolve.resolveConsts :=
  (silent .get).bind fun _ => (forM resolveConst).bind fun _ => (silent .get).bind fun _ =>
    (forM fun _ => (silent .ask).bind fun _ => forM resolveConst).bind fun _ =>
      (silent .get).bind fun _ => forM fun _ => (silent .ask).bind fun _ => forM resolveConst

theorem run : KeepsChains Resolve.run := by
  rw [run_eq]
  exact register.bind fun _ => resolveClasses.bind fun _ => resolveConsts.bind fun _ =>
    (silent .get).bind fun _ => (forM resolveTypes).bind fun _ => forM resolveCode

theorem chainedFrom_zero : ChainedFrom 0 = Chained := by
  funext s
  exact propext ⟨(·.toChained), fun h => ⟨h, Nat.zero_le _⟩⟩

theorem preserves (h : KeepsChains x) : Preserves Chained x := chainedFrom_zero ▸ h 0

end KeepsChains

/-! ## At every point -/

/-- What holds at every point of a pass, on any program: it holds at the start, and whatever part
runs, down to any depth, it holds after that part if it held before, also if the part stops. A
class is linked while it is being visited, and a method is resolved in the scope of a class. -/
structure Pass.Everywhere (I : State → Prop) : Prop where
  start : ∀ p, I (.start p)
  builtins : Preserves I registerBuiltins
  registerClass : ∀ c, Preserves I (Resolve.registerClass c)
  registerEnum : ∀ e, Preserves I (Resolve.registerEnum e)
  registerGlobal : ∀ k, Preserves I (Resolve.registerGlobal k)
  classDecl : ∀ n c, Preserves I (Resolve.classWithin n c)
  base : ∀ n c s, ClassInProgress c s →
    Keeps I (Resolve.linkBase (Resolve.classWithin n) c) s fun _ _ => True
  members : ∀ c, Preserves I (Resolve.bindMembers c)
  expr : ∀ n e, Preserves I ((callsWithin n).expr e)
  type : ∀ n e, Preserves I ((callsWithin n).type e)
  const : ∀ n k, Preserves I ((callsWithin n).const k)
  stmt : ∀ n y, Preserves I (Resolve.stmtWithin n y)
  field : ∀ f, Preserves I (Resolve.resolveField f)
  signature : ∀ f, Preserves I (Resolve.resolveSignature f)
  types : ∀ c, Preserves I (Resolve.resolveTypes c)
  method : ∀ c file f, Preserves I (do Resolve.resolveMethod file (← classScope c) f)
  code : ∀ c, Preserves I (Resolve.resolveCode c)
  run : Preserves I Resolve.run

theorem chained_everywhere : Everywhere Chained where
  start := .start
  builtins := KeepsChains.preserves (.forM fun _ => .defineIn)
  registerClass c := (KeepsChains.registerClass c).preserves
  registerEnum e := (KeepsChains.registerEnum e).preserves
  registerGlobal k := (KeepsChains.registerGlobal k).preserves
  classDecl n c := (KeepsChains.classWithin n c).preserves
  base n c s hc := by
    -- no class has been visited in a program without classes
    have h : Keeps (Nests 0 (.start .empty)) (Resolve.linkBase (Resolve.classWithin n) c) s
        fun _ s' => ClassInProgress c s' :=
      Nests.linkBase (Nests.classWithin n) hc fun d hd => by cases hd
    rw [← KeepsChains.chainedFrom_zero]
    exact Preserves.of_keeps (Nests.chained h fun _ _ hd => by cases hd)
  members c := (KeepsChains.bindMembers c).preserves
  expr n e := (KeepsChains.callsWithin_expr n e).preserves
  type n e := (KeepsChains.callsWithin_type n e).preserves
  const n k := (KeepsChains.callsWithin_const n k).preserves
  stmt n y := (KeepsChains.stmtWithin n y).preserves
  field f := (KeepsChains.resolveField f).preserves
  signature f := (KeepsChains.resolveSignature f).preserves
  types c := (KeepsChains.resolveTypes c).preserves
  method c file f := KeepsChains.preserves (.inClass fun _ _ _ hi => KeepsChains.resolveMethod f hi)
  code c := (KeepsChains.resolveCode c).preserves
  run := KeepsChains.run.preserves

/-- Scopes never run in a circle: at every point of a pass on any program, every scope but that of
the program stands inside one that is there, the way outwards from any scope comes to the program
scope, and what is looked up from any scope gets an answer. -/
theorem scope_chains_reach_program :
    Everywhere Chained ∧
      (∀ p : Program, (Resolve.run.after (.start p)).table.Rooted) ∧
      ∀ s, Chained s → s.table.Rooted ∧ ∀ (i : ScopeId) (name : String),
        i.slot < s.table.scopes.size →
          (∃ found, s.table.lookup i name = .ok found) ∧
            ∃ found, s.table.lookupMember i name = .ok found := by
  refine ⟨chained_everywhere, fun p => (chained_everywhere.run.after (.start p)).rooted,
    fun s hs => ⟨hs.rooted, fun i name hi => ⟨?_, ?_⟩⟩⟩
  · exact hs.rooted.search hi _ name
  · exact hs.rooted.search hi _ name

/-- Two classes that name each other as bases, beside one that an earlier pass has left as resolved,
with itself as its base. -/
def knot : Program :=
  let decl (name : String) (baseName : Option String) (base : Option ClassId) (status : Status) :
      ClassDecl := ⟨name, ⟨0⟩, 1, false, .normal, baseName, base, [], [], [], status⟩
  { Program.empty with
    files := .ofList ["knot.ci"]
    classes := .ofList [decl "Left" (some "Right") none .unvisited,
      decl "Right" (some "Left") none .unvisited, decl "Self" (some "Self") (some ⟨2⟩) .resolved,
      decl "Leaf" (some "Self") none .unvisited] }

theorem knot_scope_chains :
    knot.resolve.abort = some (.fault ⟨"knot.ci", 1, .circularInheritance "Left"⟩) ∧
      (Resolve.run.after (.start knot)).table.scopes.size = 5 ∧
      (Resolve.run.after (.start knot)).table.Rooted ∧
      ∃ found, (Resolve.run.after (.start knot)).table.lookupMember ⟨1⟩ "Right" = .ok found := by
  obtain ⟨heverywhere, hrooted, hlookup⟩ := scope_chains_reach_program
  have hchained := heverywhere.run.after (heverywhere.start knot)
  exact ⟨by decide +kernel, by decide +kernel, hrooted knot,
    ((hlookup _ hchained).2 ⟨1⟩ "Right" (by decide +kernel)).2⟩

end Ci
