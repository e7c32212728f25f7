-- What arenas keep. A part that is put in a slot changes that slot alone, and a
-- part that is added at the end changes none. A relation between the parts, slot
-- by slot, says how one arena comes from another.
import Mathlib.Data.Set.Card
import Mathlib.Order.CompletePartialOrder
import Mathlib.Tactic
import Ci.Program.Build

/-- An option holds a single value. -/
theorem Eq.some_unique {α : Type} {o : Option α} {a b : α} (h : o = some a)
    (h' : o = some b) : a = b :=
  Option.some.inj (h.symm.trans h')

namespace Ci

variable {β : Type}

/-! ## Queries -/

namespace Query

variable {α β : Type} {q : Query α}

@[simp] theorem bind_ok {f : α → Query β} {b : β} :
    (q >>= f) = .ok b ↔ ∃ a, q = .ok a ∧ f a = .ok b := by
  cases q <;> simp [bind, Except.bind]

@[simp] theorem pure_ok {a b : α} : (pure a : Query α) = .ok b ↔ a = b := by
  simp [pure, Except.pure]

end Query

/-! ## Handles -/

namespace Handle

variable {k : Kind} {h h' : Handle k}

theorem slot_inj : h.slot = h'.slot ↔ h = h' := by
  cases h
  cases h'
  simp [slot, UInt32.toNat_inj]

theorem slot_ofSlot {n : Nat} (hn : n < UInt32.size) : (ofSlot n : Handle k).slot = n := by
  simp [slot, ofSlot, UInt32.ofNatClamp, hn]

theorem slot_ofSlot_le (n : Nat) : (ofSlot n : Handle k).slot ≤ n := by
  unfold slot ofSlot UInt32.ofNatClamp
  split
  · simp
  · simp only [UInt32.toNat_ofNatLT]
    omega

theorem ofSlot_slot (h : Handle k) : ofSlot h.slot = h :=
  slot_inj.1 (slot_ofSlot h.index.toNat_lt)

end Handle

/-! ## Slots -/

namespace Arena

variable {k : Kind} {α : Type} {a b : Arena k α} {h h' : Handle k} {x y : α}

theorem lt_size_of_get? (hx : a.get? h = some x) : h.slot < a.size := by
  unfold get? at hx
  exact (Array.getElem?_eq_some_iff.1 hx).1

theorem exists_get? (hs : h.slot < a.size) : ∃ x, a.get? h = some x :=
  ⟨_, Array.getElem?_eq_getElem hs⟩

theorem mem_toList_of_get? (hx : a.get? h = some x) : x ∈ a.toList :=
  Array.mem_toList_iff.2 (Array.mem_of_getElem? hx)

theorem get?_eq_none (hs : a.size ≤ h.slot) : a.get? h = none :=
  Array.getElem?_eq_none hs

theorem mem_handles : h ∈ a.handles ↔ h.slot < a.size := by
  simp only [handles, List.mem_map, List.mem_range]
  constructor
  · rintro ⟨n, hn, rfl⟩
    exact lt_of_le_of_lt (Handle.slot_ofSlot_le n) hn
  · exact fun hs => ⟨h.slot, hs, Handle.ofSlot_slot h⟩

@[simp] theorem size_set : (a.set h x).size = a.size := by simp [set, size]

@[simp] theorem size_push : (a.push x).size = a.size + 1 := by simp [push, size]

theorem get?_set_self (hy : a.get? h = some y) : (a.set h x).get? h = some x := by
  have hs := lt_size_of_get? hy
  simp only [size] at hs
  simp [set, get?, hs]

theorem get?_set_of_ne (hne : h ≠ h') : (a.set h x).get? h' = a.get? h' := by
  have hs : h.slot ≠ h'.slot := fun e => hne (Handle.slot_inj.1 e)
  simp [set, get?, hs]

theorem set_get? (hx : a.get? h = some x) : a.set h x = a := by
  unfold get? at hx
  obtain ⟨hs, rfl⟩ := Array.getElem?_eq_some_iff.1 hx
  simp [set, Array.setIfInBounds, hs]

theorem get?_push_of_some (hy : a.get? h = some y) : (a.push x).get? h = some y := by
  have hs := lt_size_of_get? hy
  unfold get? at hy ⊢
  simp only [size] at hs
  simp [push, Array.getElem?_push, hs.ne, hy]

theorem get?_push_of_size (hs : h.slot = a.size) : (a.push x).get? h = some x := by
  simp only [size] at hs
  simp [push, get?, hs]

theorem slot_next (hs : a.size < UInt32.size) : a.next.slot = a.size := Handle.slot_ofSlot hs

theorem get?_next_push (hs : a.size < UInt32.size) : (a.push x).get? a.next = some x :=
  get?_push_of_size (slot_next hs)

/-- Only the new slot of a longer arena is another one. -/
theorem get?_push_of_ne (hs : a.size < UInt32.size) (hne : h ≠ a.next) :
    (a.push x).get? h = a.get? h := by
  rcases Nat.lt_trichotomy h.slot a.size with hlt | heq | hgt
  · obtain ⟨y, hy⟩ := exists_get? hlt
    exact (get?_push_of_some hy).trans hy.symm
  · exact absurd (Handle.slot_inj.1 (heq.trans (slot_next hs).symm)) hne
  · rw [get?_eq_none hgt.le, get?_eq_none]
    simp only [size_push]
    omega

/-! ## What is in an arena after a change -/

theorem forall_set {P : α → Prop} (ha : ∀ y ∈ a.toList, P y) (hx : P x) :
    ∀ y ∈ (a.set h x).toList, P y := by
  intro y hy
  simp only [toList, set, Array.toList_setIfInBounds] at hy
  rcases List.mem_or_eq_of_mem_set hy with hy | rfl
  · exact ha y hy
  · exact hx

theorem forall_push {P : α → Prop} (ha : ∀ y ∈ a.toList, P y) (hx : P x) :
    ∀ y ∈ (a.push x).toList, P y := by
  intro y hy
  simp only [toList, push, Array.toList_push, List.mem_append, List.mem_singleton] at hy
  rcases hy with hy | rfl
  · exact ha y hy
  · exact hx

theorem get?_set_cases (hy : (a.set h x).get? h' = some y) :
    (h' = h ∧ y = x) ∨ a.get? h' = some y := by
  by_cases hh : h = h'
  · subst hh
    cases ha : a.get? h with
    | none =>
      have := lt_size_of_get? hy
      rw [size_set] at this
      obtain ⟨z, hz⟩ := exists_get? this
      rw [ha] at hz
      cases hz
    | some => exact .inl ⟨rfl, ((get?_set_self ha).some_unique hy).symm⟩
  · exact .inr ((get?_set_of_ne hh).symm.trans hy)

theorem get?_push_cases (hy : (a.push x).get? h = some y) : y = x ∨ a.get? h = some y := by
  simp only [get?, push, Array.getElem?_push] at hy
  split at hy
  · exact .inl (Option.some.inj hy).symm
  · exact .inr hy

/-- What holds of the new part, and of the old one elsewhere, holds after a change. -/
theorem get?_set_of {P : Option α → Prop} (hx : a.get? h = some x) (hy : h = h' → P (some y))
    (ho : P (a.get? h')) : P ((a.set h y).get? h') := by
  by_cases hh : h = h'
  · rw [← hh, get?_set_self hx]
    exact hy hh
  · rwa [get?_set_of_ne hh]

/-- A part that keeps what is read off it is not seen to change. -/
theorem elim_set {z : β} {f : α → β} (hx : a.get? h = some x) (hf : f y = f x) :
    ((a.set h y).get? h').elim z f = (a.get? h').elim z f := by
  by_cases hh : h = h'
  · rw [← hh, get?_set_self hx, hx, Option.elim_some, Option.elim_some, hf]
  · rw [get?_set_of_ne hh]

/-! ## Questions and changes -/

@[simp] theorem fetch_ok : a.fetch h = .ok x ↔ a.get? h = some x := by
  unfold fetch
  cases a.get? h <;> simp

@[simp] theorem update_ok {f : α → α} :
    a.update h f = .ok b ↔ ∃ x, a.get? h = some x ∧ b = a.set h (f x) := by
  unfold update
  cases hx : a.get? h with
  | none => simp [fetch, hx, bind, Except.bind]
  | some => simp [fetch, hx, bind, Except.bind, pure, Except.pure, eq_comm]

theorem update_then {f : α → α} {g : Arena k α → β} {c : β} :
    (do return g (← a.update h f) : Query β) = .ok c ↔ ∃ x,
    a.get? h = some x ∧ c = g (a.set h (f x)) := by
  simp only [Query.bind_ok, Query.pure_ok, update_ok]
  constructor
  · rintro ⟨_, ⟨x, hx, rfl⟩, rfl⟩
    exact ⟨x, hx, rfl⟩
  · rintro ⟨x, hx, rfl⟩
    exact ⟨_, ⟨x, hx, rfl⟩, rfl⟩

theorem mapM_fetch_ok {g : Handle k → α → β} {hs : List (Handle k)} {ys : List β}
    (h : hs.mapM (fun h => do return g h (← a.fetch h)) = (.ok ys : Query (List β))) :
    ys = hs.filterMap fun h => (a.get? h).map (g h) := by
  induction hs generalizing ys with
  | nil =>
    simp only [List.mapM_nil, Query.pure_ok] at h
    simp [← h]
  | cons _ _ ih =>
    simp only [List.mapM_cons, Query.bind_ok, Query.pure_ok, fetch_ok] at h
    obtain ⟨_, ⟨d, hd, rfl⟩, ys', hys, rfl⟩ := h
    simp [hd, ih hys]

/-! ## Slot by slot -/

/-- Every part of one arena is still there in another, and stands in a relation to what it was. -/
structure Follows (R : Handle k → α → α → Prop) (a b : Arena k α) : Prop where
  size_le : a.size ≤ b.size
  part : ∀ h x, a.get? h = some x → ∃ y, b.get? h = some y ∧ R h x y

namespace Follows

variable {R : Handle k → α → α → Prop}

theorem refl (hr : ∀ h x, R h x x) (a : Arena k α) : Follows R a a :=
  ⟨le_rfl, fun h x hx => ⟨x, hx, hr h x⟩⟩

theorem trans (ht : ∀ h x y z, R h x y → R h y z → R h x z) {a b c : Arena k α}
    (hab : Follows R a b) (hbc : Follows R b c) : Follows R a c := by
  refine ⟨hab.size_le.trans hbc.size_le, fun h x hx => ?_⟩
  obtain ⟨y, hy, hxy⟩ := hab.part h x hx
  obtain ⟨z, hz, hyz⟩ := hbc.part h y hy
  exact ⟨z, hz, ht h x y z hxy hyz⟩

theorem set (hr : ∀ h x, R h x x) (hx : a.get? h = some x) (hxy : R h x y) :
    Follows R a (a.set h y) := by
  refine ⟨by simp, fun h' z hz => ?_⟩
  by_cases e : h = h'
  · subst e
    obtain rfl : x = z := hx.some_unique hz
    exact ⟨y, get?_set_self hx, hxy⟩
  · exact ⟨z, (get?_set_of_ne e).trans hz, hr h' z⟩

theorem push (hr : ∀ h x, R h x x) : Follows R a (a.push x) :=
  ⟨by simp, fun h y hy => ⟨y, get?_push_of_some hy, hr h y⟩⟩

end Follows

end Arena

/-! ## Changes of a program -/

namespace Program

variable {p q : Program}

@[simp] theorem updateExpr_ok {e : ExprId} {f : ExprNode → ExprNode} : p.updateExpr e f = .ok q ↔
      ∃ n, p.exprs.get? e = some n ∧ q = { p with exprs := p.exprs.set e (f n) } :=
  Arena.update_then

@[simp] theorem updateStmt_ok {x : StmtId} {f : StmtNode → StmtNode} : p.updateStmt x f = .ok q ↔
      ∃ n, p.stmts.get? x = some n ∧ q = { p with stmts := p.stmts.set x (f n) } :=
  Arena.update_then

@[simp] theorem updateClass_ok {c : ClassId} {f : ClassDecl → ClassDecl} :
    p.updateClass c f = .ok q ↔
      ∃ d, p.classes.get? c = some d ∧ q = { p with classes := p.classes.set c (f d) } :=
  Arena.update_then

@[simp] theorem updateConst_ok {k : ConstId} {f : Const → Const} : p.updateConst k f = .ok q ↔
      ∃ d, p.consts.get? k = some d ∧ q = { p with consts := p.consts.set k (f d) } :=
  Arena.update_then

@[simp] theorem updateField_ok {m : FieldId} {f : Field → Field} : p.updateField m f = .ok q ↔
      ∃ d, p.fields.get? m = some d ∧ q = { p with fields := p.fields.set m (f d) } :=
  Arena.update_then

@[simp] theorem updateMethod_ok {m : MethodId} {f : Method → Method} : p.updateMethod m f = .ok q ↔
      ∃ d, p.methods.get? m = some d ∧ q = { p with methods := p.methods.set m (f d) } :=
  Arena.update_then

@[simp] theorem updateVar_ok {v : VarId} {f : Var → Var} : p.updateVar v f = .ok q ↔
      ∃ d, p.vars.get? v = some d ∧ q = { p with vars := p.vars.set v (f d) } :=
  Arena.update_then

end Program

end Ci
