-- The common type of the items of a collection. Two types with a common type widen to
-- it, and it widens to every other type that both widen to. So the items of a
-- collection fit in the array, and the order of the items does not change its type.
import Ci.Proofs.Typing.Coercion
import Ci.Proofs.Frame.Context
import Ci.Proofs.Work.Later

namespace Ci

open Pass Program Ci.Interval Resolve

variable {p : Program} {a b c t u v : Ty} {ts us : List Ty} {s s' : State}
  {items : List ExprId}

namespace Ty

/-! ## Two types -/

/-- How two types come to have a common one. -/
inductive Joins : Ty → Ty → Ty → Prop
  | same (t : Ty) : Joins t t t
  | range (i j : Interval) : Joins (.range i) (.range j) (.range (i.union j))
  | double {a b : Ty} (left : a.isNumeric = true) (right : b.isNumeric = true)
      (one : a = double ∨ b = double) : Joins a b double
  | float {a b : Ty} (left : a.isNumeric = true) (right : b.isNumeric = true) (small : a ≠ double)
      (small' : b ≠ double) (one : a = float ∨ b = float) : Joins a b float
  | null {t : Ty} (nullable : t.isNullable = true) : Joins .null t t
  | null' {t : Ty} (nullable : t.isNullable = true) : Joins t .null t

theorem isFloating_iff : t.isFloating = true ↔ t = double ∨ t = float := by
  cases t with
  | floating w => cases w <;> simp [isFloating, double, float]
  | _ => simp [isFloating, double, float]

theorem range_ne_double {i : Interval} : Ty.range i ≠ double := by simp [double]

theorem range_ne_float {i : Interval} : Ty.range i ≠ float := by simp [float]

theorem isNumeric_iff : t.isNumeric = true ↔ t.isInteger = true ∨ t.isFloating = true := by
  simp [isNumeric]

theorem joins_of_unify (h : a.unify b = some t) : Joins a b t := by
  unfold unify at h
  split at h
  · rename_i hab
    cases h
    exact hab ▸ .same _
  split at h
  · cases h
    exact .range _ _
  split at h
  · rename_i hnum
    simp only [Bool.and_eq_true, Bool.or_eq_true, isFloating_iff] at hnum
    obtain ⟨⟨hl, hr⟩, hone⟩ := hnum
    split at h <;> cases h
    · rename_i hd
      exact .double hl hr hd
    · rename_i hd
      obtain ⟨ha, hb⟩ := not_or.1 hd
      exact .float hl hr ha hb (hone.imp (·.resolve_left ha) (·.resolve_left hb))
  split at h
  · rename_i hn
    cases h
    exact hn.1 ▸ .null hn.2
  split at h
  · rename_i hn
    cases h
    exact hn.1 ▸ .null' hn.2
  · cases h

theorem unify_of_joins (h : Joins a b t) : a.unify b = some t := by
  cases h with
  | same => simp [unify]
  | range i j =>
    by_cases hij : i = j
    · simp [hij, unify, union_of_contains, contains_self]
    · simp [hij, unify]
  | double _ _ one =>
    rcases one with rfl | rfl
    · cases b <;> simp_all [unify, isNumeric, isInteger, isFloating, double]
    · cases a <;> simp_all [unify, isNumeric, isInteger, isFloating, double]
  | float _ _ _ _ one =>
    rcases one with rfl | rfl
    · cases b <;> simp_all [unify, isNumeric, isInteger, isFloating, double, float]
    · cases a <;> simp_all [unify, isNumeric, isInteger, isFloating, double, float]
  | null => cases b <;> simp_all [unify, isNullable, isNumeric, isInteger, isFloating]
  | null' nullable => cases a <;> simp_all [unify, isNullable, isNumeric, isInteger, isFloating]

theorem unify_eq_some_iff : a.unify b = some t ↔ Joins a b t := ⟨joins_of_unify, unify_of_joins⟩

namespace Joins

theorem symm (h : Joins a b t) : Joins b a t := by
  cases h with
  | same => exact .same _
  | range i j => exact union_comm ▸ .range j i
  | double left right one => exact .double right left one.symm
  | float left right small small' one => exact .float right left small' small one.symm
  | null nullable => exact .null' nullable
  | null' nullable => exact .null nullable

theorem widens_union {i j : Interval} (hi : p.Widens (.range i) c) (hj : p.Widens (.range j) c) :
    p.Widens (.range (i.union j)) c := by
  cases hi with
  | refl => exact .range (contains_union.2 ⟨contains_self, hj.contains⟩)
  | range inside => exact .range (contains_union.2 ⟨inside, hj.contains⟩)
  | double => exact .double rfl
  | float => exact .float rfl range_ne_double
  | long => exact .long rfl
  | int _ short =>
    have short' : (Ty.range j).isLong = false := hj.isLong rfl rfl
    refine .int rfl ?_
    simp only [isLong, Bool.not_eq_false', fitsInt32_eq_contains] at short short' ⊢
    exact contains_union.2 ⟨short, short'⟩

theorem least (h : Joins a b t) (ha : p.Widens a c) (hb : p.Widens b c) : p.Widens t c := by
  cases h with
  | same => exact ha
  | range => exact widens_union ha hb
  | double _ _ one =>
    rcases one with rfl | rfl
    · exact ha
    · exact hb
  | float _ _ _ _ one =>
    rcases one with rfl | rfl
    · exact ha
    · exact hb
  | null => exact hb
  | null' => exact ha

theorem isNumeric (h : Joins a b t) (ha : a.isFloating = true) : b.isNumeric = true := by
  cases h with
  | same => exact isNumeric_iff.2 (.inr ha)
  | double _ right => exact right
  | float _ right => exact right
  | range | null => cases ha
  | null' nullable => cases a <;> simp_all [isFloating, isNullable]

theorem of_floating (ha : a.isNumeric = true) (hb : b.isNumeric = true)
    (h : a.isFloating = true ∨ b.isFloating = true) : ∃ t, Joins a b t := by
  simp only [isFloating_iff] at h
  by_cases hd : a = Ty.double ∨ b = Ty.double
  · exact ⟨_, .double ha hb hd⟩
  · obtain ⟨hda, hdb⟩ := not_or.1 hd
    exact ⟨_, .float ha hb hda hdb (h.imp (·.resolve_left hda) (·.resolve_left hdb))⟩

/-- What has common types with two types has one with their common type. -/
theorem with_third (h : Joins a b t) (ha : Joins a c u) (hb : Joins b c v) : ∃ w, Joins t c w := by
  cases h with
  | same => exact ⟨u, ha⟩
  | range =>
    cases ha with
    | same => exact ⟨_, .range _ _⟩
    | range _ k => exact ⟨_, .range _ k⟩
    | double _ right one =>
      exact of_floating rfl right
        (.inr (isFloating_iff.2 (.inl (one.resolve_left range_ne_double))))
    | float _ right _ _ one =>
      exact of_floating rfl right (.inr (isFloating_iff.2 (.inr (one.resolve_left range_ne_float))))
    | null' nullable => cases nullable
  | double _ _ one =>
    refine of_floating rfl ?_ (.inl rfl)
    rcases one with rfl | rfl
    · exact ha.isNumeric rfl
    · exact hb.isNumeric rfl
  | float _ _ _ _ one =>
    refine of_floating rfl ?_ (.inl rfl)
    rcases one with rfl | rfl
    · exact ha.isNumeric rfl
    · exact hb.isNumeric rfl
  | null => exact ⟨v, hb⟩
  | null' => exact ⟨u, ha⟩

end Joins

/-! ## One type in another -/

/-- How a type stands to the common type that it has with others. -/
inductive Below : Ty → Ty → Prop
  | same (t : Ty) : Below t t
  | range {i j : Interval} (inside : j.contains i = true) : Below (.range i) (.range j)
  | number {a t : Ty} (numeric : a.isNumeric = true) (floating : t.isFloating = true)
      (small : a = double → t = double) : Below a t
  | null {t : Ty} (nullable : t.isNullable = true) : Below .null t

theorem Joins.below (h : Joins a b t) : Below a t := by
  cases h with
  | same => exact .same _
  | range => exact .range union_contains_left
  | double left => exact .number left rfl fun _ => rfl
  | float left _ small => exact .number left rfl fun hd => absurd hd small
  | null nullable => exact .null nullable
  | null' => exact .same _

namespace Below

theorem widens (h : Below a t) : p.Widens a t := by
  cases h with
  | same => exact .refl _
  | range inside => exact .range inside
  | null nullable => exact .null nullable
  | number numeric floating small =>
    rcases isFloating_iff.1 floating with rfl | rfl
    · exact .double numeric
    · exact .float numeric fun hd => absurd (small hd) (by decide)

theorem trans (h : Below a b) (h' : Below b c) : Below a c := by
  cases h' with
  | same => exact h
  | range inside =>
    cases h with
    | same => exact .range inside
    | range inner => exact .range (contains_trans inside inner)
    | number _ floating | null nullable => contradiction
  | number numeric floating small =>
    have hb : Program.empty.Widens a b := h.widens
    refine .number (hb.isNumeric numeric) floating fun hd => small ?_
    subst hd
    exact hb.eq_double
  | null nullable =>
    cases h with
    | same => exact .null nullable
    | number _ floating | null nullable => contradiction

theorem joins (h : Below a b) : ∃ t, Joins a b t := by
  cases h with
  | same => exact ⟨_, .same _⟩
  | range => exact ⟨_, .range _ _⟩
  | number numeric floating =>
    exact Joins.of_floating numeric (isNumeric_iff.2 (.inr floating)) (.inr floating)
  | null nullable => exact ⟨_, .null nullable⟩

/-- Two types with room in a third one have a common type, but for integers in a number with a
fraction. -/
theorem joins_or (ha : Below a t) (hb : Below b t) :
    (∃ u, Joins a b u) ∨ t.isFloating = true ∧ a.isInteger = true ∧ b.isInteger = true := by
  cases ha with
  | same =>
    obtain ⟨u, hu⟩ := hb.joins
    exact .inl ⟨u, hu.symm⟩
  | range =>
    cases hb with
    | same | range => exact .inl ⟨_, .range _ _⟩
    | number _ floating | null nullable => contradiction
  | null nullable =>
    cases hb with
    | same => exact .inl ⟨_, .null nullable⟩
    | null => exact .inl ⟨_, .same _⟩
    | range => contradiction
    | number => cases t <;> contradiction
  | number numeric floating =>
    have hbn : b.isNumeric = true :=
      (hb.widens : Program.empty.Widens b t).isNumeric (isNumeric_iff.2 (.inr floating))
    by_cases hf : a.isFloating = true ∨ b.isFloating = true
    · exact .inl (Joins.of_floating numeric hbn hf)
    · obtain ⟨hfa, hfb⟩ := not_or.1 hf
      exact .inr ⟨floating, (isNumeric_iff.1 numeric).resolve_right hfa,
        (isNumeric_iff.1 hbn).resolve_right hfb⟩

end Below

/-! ## Many types -/

/-- The common type of some types, which is looked for from left to right. -/
def common : List Ty → Option Ty
  | [] => none
  | t :: ts => ts.foldlM unify t

theorem foldlM_unify_cons : (a :: ts).foldlM unify t = some u ↔
    ∃ v, Joins t a v ∧ ts.foldlM unify v = some u := by
  simp only [List.foldlM_cons, Option.bind_eq_bind, Option.bind_eq_some_iff, unify_eq_some_iff]

theorem below_of_foldlM (h : ts.foldlM unify t = some u) : ∀ x ∈ t :: ts, Below x u := by
  induction ts generalizing t with
  | nil =>
    cases h
    simpa using .same u
  | cons _ _ ih =>
    obtain ⟨v, hv, h⟩ := foldlM_unify_cons.1 h
    obtain ⟨hvu, hts⟩ := List.forall_mem_cons.1 (ih h)
    exact List.forall_mem_cons.2 ⟨hv.below.trans hvu,
      List.forall_mem_cons.2 ⟨hv.symm.below.trans hvu, hts⟩⟩

theorem below_common (h : common ts = some t) : ∀ x ∈ ts, Below x t := by
  cases ts with
  | nil => cases h
  | cons => exact below_of_foldlM h

theorem least_of_foldlM (h : ts.foldlM unify t = some u) (hc : ∀ x ∈ t :: ts, p.Widens x c) :
    p.Widens u c := by
  induction ts generalizing t with
  | nil =>
    cases h
    exact hc _ (by simp)
  | cons _ _ ih =>
    obtain ⟨v, hv, h⟩ := foldlM_unify_cons.1 h
    simp only [List.forall_mem_cons] at hc ih
    exact ih h ⟨hv.least hc.1 hc.2.1, hc.2.2⟩

theorem common_least (h : common ts = some t) (hc : ∀ x ∈ ts, p.Widens x c) : p.Widens t c := by
  cases ts with
  | nil => cases h
  | cons => exact least_of_foldlM h hc

/-- Types have a common type if each two of them have one. -/
theorem foldlM_of_pairs (h : ∀ x ∈ t :: ts, ∀ y ∈ t :: ts, ∃ u, Joins x y u) :
    ∃ u, ts.foldlM unify t = some u := by
  induction ts generalizing t with
  | nil => exact ⟨t, rfl⟩
  | cons a ts ih =>
    obtain ⟨v, hv⟩ := h t (by simp) a (by simp)
    simp only [foldlM_unify_cons]
    have hrest : ∀ x ∈ v :: ts, ∀ y ∈ v :: ts, ∃ u, Joins x y u := by
      have hvx : ∀ x ∈ ts, ∃ w, Joins v x w := by
        intro x hx
        obtain ⟨u, hu⟩ := h t (by simp) x (by simp [hx])
        obtain ⟨u', hu'⟩ := h a (by simp) x (by simp [hx])
        exact hv.with_third hu hu'
      intro x hx y hy
      rcases List.mem_cons.1 hx with rfl | hxs <;> rcases List.mem_cons.1 hy with rfl | hys
      · exact ⟨_, .same _⟩
      · exact hvx y hys
      · obtain ⟨w, hw⟩ := hvx x hxs
        exact ⟨w, hw.symm⟩
      · exact h x (by simp [hxs]) y (by simp [hys])
    obtain ⟨u, hu⟩ := ih hrest
    exact ⟨u, v, hv, hu⟩

/-- No number among the types has a fraction, or each two of the integers have a common type. -/
def Agree (ts : List Ty) : Prop :=
  (∀ x ∈ ts, x.isFloating = false) ∨
    ∀ x ∈ ts, ∀ y ∈ ts, x.isInteger = true → y.isInteger = true → (x.unify y).isSome

/-- A number with a fraction is not the common type of integers, since all of them are long. -/
theorem exists_floating (h : common ts = some t) (ht : t.isFloating = true) :
    ∃ x ∈ ts, x.isFloating = true := by
  by_contra hno
  have hlong : ∀ x ∈ ts, Program.empty.Widens x long := by
    intro x hx
    have hnum : x.isNumeric = true :=
      (below_common h x hx).widens (p := .empty).isNumeric (isNumeric_iff.2 (.inr ht))
    exact .long ((isNumeric_iff.1 hnum).resolve_right fun hf => hno ⟨x, hx, hf⟩)
  have hint := (common_least h hlong).isInteger rfl
  rcases isFloating_iff.1 ht with rfl | rfl <;> cases hint

theorem pairs_of_common (ha : Agree ts) (h : common ts = some t) :
    ∀ x ∈ ts, ∀ y ∈ ts, ∃ u, Joins x y u := by
  intro x hx y hy
  rcases (below_common h x hx).joins_or (below_common h y hy) with hj | ⟨ht, hxi, hyi⟩
  · exact hj
  rcases ha with hno | hpairs
  · obtain ⟨f, hf, hfloat⟩ := exists_floating h ht
    rw [hno f hf] at hfloat
    cases hfloat
  · obtain ⟨u, hu⟩ := Option.isSome_iff_exists.1 (hpairs x hx y hy hxi hyi)
    exact ⟨u, joins_of_unify hu⟩

theorem common_of_pairs (hne : ts ≠ []) (h : ∀ x ∈ ts, ∀ y ∈ ts, ∃ u, Joins x y u) :
    ∃ t, common ts = some t := by
  cases ts with
  | nil => exact absurd rfl hne
  | cons => exact foldlM_of_pairs h

theorem empty_not_circular : ¬ Program.empty.CircularBases := by
  rintro ⟨c, hc⟩
  obtain ⟨b, ⟨d, hd, -⟩, -⟩ := Relation.TransGen.head'_iff.1 hc
  cases hd

theorem common_unique (h : ts.Perm us) (ht : common ts = some t) (hu : common us = some u) :
    t = u := by
  have htu : Program.empty.Widens t u :=
    common_least ht fun x hx => (below_common hu x (h.mem_iff.1 hx)).widens
  have hut : Program.empty.Widens u t :=
    common_least hu fun x hx => (below_common ht x (h.mem_iff.2 hx)).widens
  exact htu.antisymm empty_not_circular hut

theorem common_of_perm (h : ts.Perm us) (ha : Agree ts) (ht : common ts = some t) :
    common us = some t := by
  have hne : us ≠ [] := by
    rintro rfl
    rw [h.eq_nil] at ht
    cases ht
  have hpairs : ∀ x ∈ us, ∀ y ∈ us, ∃ u, Joins x y u := fun x hx y hy =>
    pairs_of_common ha ht x (h.mem_iff.2 hx) y (h.mem_iff.2 hy)
  obtain ⟨u, hu⟩ := common_of_pairs hne hpairs
  rw [hu, common_unique h ht hu]

end Ty

/-! ## Collections -/

/-- The types of some expressions, one after the other. -/
def Program.HaveTys (p : Program) (items : List ExprId) (types : List Ty) : Prop :=
  items.map p.valueTy = types.map .ok

theorem haveTys_of_commonTy (run : commonTy t items s = .ok u s') :
    ∃ types, s.program.HaveTys items types := by
  induction items generalizing t with
  | nil => exact ⟨[], rfl⟩
  | cons _ _ ih =>
    simp only [commonTy, bind_eq_ok, valueTy_eq_ok] at run
    obtain ⟨v, _, ⟨hv, rfl⟩, run⟩ := run
    cases ht : t.unify v with
    | none => simp [ht] at run
    | some w =>
      obtain ⟨types, htypes⟩ := ih (t := w) (by simpa [ht] using run)
      exact ⟨v :: types, List.cons_eq_cons.2 ⟨hv, htypes⟩⟩

theorem commonTy_eq_ok (h : s.program.HaveTys items ts) :
    commonTy t items s = .ok u s' ↔ ts.foldlM Ty.unify t = some u ∧ s' = s := by
  induction items generalizing t ts with
  | nil =>
    obtain rfl := List.map_eq_nil_iff.1 h.symm
    simp [commonTy, eq_comm]
  | cons item items ih =>
    obtain ⟨a, types, rfl, ha, htypes⟩ := List.map_eq_cons_iff.1 h.symm
    have hstep : commonTy t (item :: items) s = .ok u s' ↔
        ∃ v, t.unify a = some v ∧ commonTy v items s = .ok u s' := by
      simp only [commonTy, bind_eq_ok, valueTy_eq_ok, ← ha]
      cases ht : t.unify a <;> simp [ht]
    simp only [hstep, ih htypes.symm, List.foldlM_cons, Option.bind_eq_bind,
      Option.bind_eq_some_iff]
    grind

/-- The type of a collection is the common type of its items. -/
theorem collection_common {calls : Calls} {e e' : ExprId}
    (run : Resolve.collection calls e items s = .ok e' s') :
    ∃ items' types t s1 m, items.mapM calls.expr s = .ok items' s1 ∧
      s1.program.HaveTys items' types ∧ Ty.common types = some t ∧
      s1.program.exprs.get? e = some m ∧ e' = e ∧
      s' = s1.put e { m with
        kind := .collection items', ty :=
        some (.arrayStorage t (UInt32.ofNat items'.length)) } := by
  obtain ⟨first, rest, t, u, s1, m, hitems, ht, hu, -, hm, he', hs'⟩ := collection_ok run
  obtain ⟨types, htypes⟩ := haveTys_of_commonTy hu
  exact ⟨first :: rest, t :: types, u, s1, m, hitems, List.cons_eq_cons.2 ⟨ht, htypes⟩,
    ((commonTy_eq_ok htypes).1 hu).1,
    hm, he', hs'⟩

/-- A collection has become an array of one type of items. Its items have been resolved one after
the other, and the type of each of them widens to that type. An item keeps its type when the
collection gets its own, but for a collection that holds itself. -/
structure Gathers (calls : Calls) (e : ExprId) (items items' : List ExprId) (t : Ty)
    (s s1 s' : State) : Prop where
  run : items.mapM calls.expr s = .ok items' s1
  array : ∃ m, s'.program.exprs.get? e = some m ∧ m.kind = .collection items' ∧
    m.ty = some (.arrayStorage t (UInt32.ofNat items'.length))
  fits : ∀ i ∈ items', ∃ u, s1.program.valueTy i = .ok u ∧
    (i ≠ e → s'.program.valueTy i = .ok u) ∧ s'.program.assignable u t = .ok true

theorem gathers_of_collection {calls : Calls} {e e' : ExprId}
    (run : Resolve.collection calls e items s = .ok e' s') :
    e' = e ∧ ∃ items' t s1, Gathers calls e items items' t s s1 s' := by
  obtain ⟨items', types, t, s1, m, hitems, htypes, ht, hm, he', rfl⟩ := collection_common run
  refine ⟨he', items', t, s1, hitems, ⟨_, get?_put_self hm, rfl, rfl⟩, fun i hi => ?_⟩
  obtain ⟨u, hu, hiu⟩ := List.mem_map.1 (htypes ▸ List.mem_map_of_mem hi)
  refine ⟨u, hiu.symm, fun hne => ?_, assignable_of_widens (Ty.below_common ht u hu).widens⟩
  obtain ⟨n, hn, hnu⟩ := Program.valueTy_ok.1 hiu.symm
  exact Program.valueTy_ok.2 ⟨n, (get?_put_of_ne hne.symm).trans hn, hnu⟩

/-- The common type of two types is the least one that both widen to. So every item of a collection
widens to the type of the items of the array. -/
theorem unify_least_upper_bound (p : Program) :
    (∀ a b t : Ty, a.unify b = some t →
      p.assignable a t = .ok true ∧ p.assignable b t = .ok true ∧
      ∀ c, p.assignable a c = .ok true → p.assignable b c = .ok true →
      p.assignable t c = .ok true) ∧
    ∀ (calls : Calls) (e e' : ExprId) (m : ExprNode) (items : List ExprId) (s s' : State),
      s.program.exprs.get? e = some m → m.kind = .collection items →
      Resolve.exprRule calls e s = .ok e' s' →
      e' = e ∧ ∃ items' t s₁, Gathers calls e items items' t s s₁ s' := by
  simp only [assignable_iff]
  refine ⟨fun a b t h => ?_, fun calls e e' m items s s' hm hk run => ?_⟩
  · have hj := Ty.joins_of_unify h
    exact ⟨hj.below.widens, hj.symm.below.widens, fun c => hj.least⟩
  · simp only [Resolve.exprRule, bind_eq_ok, node_eq_ok] at run
    obtain ⟨_, _, ⟨hm', rfl⟩, run⟩ := run
    obtain rfl := hm.some_unique hm'
    rw [hk] at run
    exact gathers_of_collection run

/-- A text, in a collection with nothing. -/
def labels : Program :=
  let node (kind : Expr) : ExprNode := ⟨kind, 1, none⟩
  { Program.empty with
    exprs := .ofList [node (.literal .null), node (.literal (.string "north")),
      node (.collection [⟨0⟩, ⟨1⟩])] }

theorem unify_least_upper_bound_labels :
    Ty.unify .null .stringPointer = some .stringPointer ∧
      labels.assignable .null .stringPointer = .ok true ∧
      ∃ s' items' t s₁, Resolve.exprRule (Resolve.callsWithin 1) ⟨2⟩ (.start labels) = .ok ⟨2⟩ s' ∧
        Gathers (Resolve.callsWithin 1) ⟨2⟩ [⟨0⟩, ⟨1⟩] items' t (.start labels) s₁ s' := by
  have hunify : Ty.unify .null .stringPointer = some .stringPointer := by decide
  have hstop : (Resolve.exprRule (Resolve.callsWithin 1) ⟨2⟩).stop (.start labels) = none := by
    decide +kernel
  have hbound := unify_least_upper_bound labels
  refine ⟨hunify, (hbound.1 _ _ _ hunify).1, ?_⟩
  cases hrun : Resolve.exprRule (Resolve.callsWithin 1) ⟨2⟩ (.start labels) with
  | error => simp [stop, hrun] at hstop
  | ok e' s' =>
    obtain ⟨rfl, items', t, s₁, h⟩ := hbound.2 _ _ _ _ _ _ _ rfl rfl hrun
    exact ⟨s', items', t, s₁, rfl, h⟩

/-! ## The order of the items -/

/-- The order of the items of a collection does not change their common type. Whether they have one
can depend on the order, namely if there are integers without a common type beside a number with a
fraction, to which they all widen. -/
theorem common_type_of_perm (ts us : List Ty) (h : ts.Perm us) :
    (∀ t u, Ty.common ts = some t → Ty.common us = some u → t = u) ∧
      (Ty.Agree ts → Ty.common ts = Ty.common us) ∧
      ∀ (s s' : State) (items : List ExprId) (t u : Ty) (types : List Ty), ts = t :: types →
        s.program.HaveTys items types →
        (Resolve.commonTy t items s = .ok u s' ↔ Ty.common ts = some u ∧ s' = s) := by
  refine ⟨fun t u => Ty.common_unique h, fun ha => ?_, ?_⟩
  · have ha' : Ty.Agree us := by simpa only [Ty.Agree, h.mem_iff] using ha
    ext t
    exact ⟨Ty.common_of_perm h ha, Ty.common_of_perm h.symm ha'⟩
  · rintro s s' items t u types rfl htypes
    exact commonTy_eq_ok htypes

theorem common_type_of_perm_ranges :
    let ts : List Ty := [.range ⟨1, 1⟩, .double, .range ⟨3, 4⟩]
    let us : List Ty := [.range ⟨3, 4⟩, .range ⟨1, 1⟩, .double]
    ts.Perm us ∧ Ty.Agree ts ∧ Ty.common ts = Ty.common us := by
  have hperm : [Ty.range ⟨1, 1⟩, .double, .range ⟨3, 4⟩].Perm [.range ⟨3, 4⟩, .range ⟨1, 1⟩,
    .double] := by
    decide
  have hagree : Ty.Agree [.range ⟨1, 1⟩, .double, .range ⟨3, 4⟩] := .inr (by decide)
  exact ⟨hperm, hagree, (common_type_of_perm _ _ hperm).2.1 hagree⟩

/-- A small integer, an integer and a number with a fraction. The first two have no common type, and
nobody asks for it if the number with a fraction stands between them. -/
theorem common_type_depends_on_order :
    let ts : List Ty := [.range ⟨1, 1⟩, .int, .double]
    let us : List Ty := [.range ⟨1, 1⟩, .double, .int]
    ts.Perm us ∧ Ty.common ts = none ∧ Ty.common us = some .double := by
  decide

end Ci
