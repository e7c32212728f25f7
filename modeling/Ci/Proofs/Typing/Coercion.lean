-- Which types may stand for which. A type widens to another one, and it does so along
-- chains as long as no array turns into a pointer on the way. Two types that widen to
-- each other are the same.
import Ci.Proofs.Interval.Tightness
import Ci.Proofs.Safety.Queries

namespace Ci

namespace Interval

variable {i j k : Interval}

theorem contains_trans (h : i.contains j = true) (h' : j.contains k = true) :
    i.contains k = true := by
  rw [contains_iff] at *
  omega

theorem contains_antisymm (h : i.contains j = true) (h' : j.contains i = true) : i = j := by
  rw [contains_iff] at h h'
  cases i
  cases j
  simp only [mk.injEq, ← Int64.toInt_inj] at h h' ⊢
  omega

theorem contains_self : i.contains i = true := by
  rw [contains_iff]
  omega

theorem contains_union :
    k.contains (i.union j) = true ↔ k.contains i = true ∧ k.contains j = true := by
  simp only [contains_iff, union, toInt_min, toInt_max]
  omega

theorem union_contains_left : (i.union j).contains i = true := (contains_union.1 contains_self).1

theorem union_contains_right : (i.union j).contains j = true := (contains_union.1 contains_self).2

theorem union_comm : i.union j = j.union i :=
  contains_antisymm (contains_union.2 ⟨union_contains_right, union_contains_left⟩)
    (contains_union.2 ⟨union_contains_right, union_contains_left⟩)

theorem union_of_contains (h : i.contains j = true) : j.union i = i :=
  contains_antisymm union_contains_right (contains_union.2 ⟨h, contains_self⟩)

theorem fitsInt32_eq_contains : i.fitsInt32 = contains ⟨-2147483648, 2147483647⟩ i := rfl

end Interval

/-- A pointer to an array stands somewhere inside the type. -/
def Ty.holdsArrayPointer : Ty → Bool
  | .arrayPointer _ _ => true
  | .arrayStorage t _ => t.holdsArrayPointer
  | _ => false

namespace Program

variable {p : Program} {a b c : ClassId} {n : Nat} {t u v : Ty}

/-! ## Bases -/

theorem reaches_of_climbs (h : p.climbs a n c = .ok true) :
    Relation.ReflTransGen p.HasBase c a := by
  induction n generalizing c with
  | zero => cases h
  | succ n ih =>
    unfold climbs at h
    split at h
    · rename_i hca
      exact hca ▸ .refl
    · simp only [Query.bind_ok, Arena.fetch_ok] at h
      obtain ⟨d, hd, h⟩ := h
      cases hb : d.base with
      | none => simp [hb] at h
      | some => exact .head ⟨d, hd, hb⟩ (ih (by simpa [hb] using h))

/-- No class comes twice on the way to a base, so the way is short enough. -/
theorem climbs_of_reaches {seen : List ClassId} (hp : ¬ p.CircularBases) (hn : seen.Nodup)
    (hs : ∀ b ∈ seen, p.Has (.classDecl b)) (hway : ∀ b ∈ seen, Relation.TransGen p.HasBase b c)
    (hsize : p.classes.size < n + seen.length) (h : Relation.ReflTransGen p.HasBase c a) :
    p.climbs a n c = .ok true := by
  induction n generalizing c seen with
  | zero => exact absurd (length_le_size hn hs) (by omega)
  | succ n ih =>
    rw [climbs]
    split
    · rfl
    · rename_i hca
      obtain ⟨b, ⟨d, hd, hbase⟩, hba⟩ := (Relation.ReflTransGen.cases_head h).resolve_left hca
      have hb : p.HasBase c b := ⟨d, hd, hbase⟩
      have hmem : c ∉ seen := fun hmem => hp ⟨c, hway c hmem⟩
      simp only [Query.bind_ok, Arena.fetch_ok]
      refine ⟨d, hd, ?_⟩
      rw [hbase]
      refine ih (List.nodup_cons.2 ⟨hmem, hn⟩) ?_ ?_ (by simp only [List.length_cons]; omega) hba
      · exact List.forall_mem_cons.2 ⟨Arena.lt_size_of_get? hd, hs⟩
      · exact List.forall_mem_cons.2 ⟨.single hb, fun x hx => (hway x hx).tail hb⟩

theorem derivesFrom_iff (hp : ¬ p.CircularBases) :
    p.derivesFrom c a = .ok true ↔ Relation.ReflTransGen p.HasBase c a :=
  ⟨reaches_of_climbs, climbs_of_reaches hp List.nodup_nil (by simp) (by simp) (by simp)⟩

theorem derivesFrom_trans (hp : ¬ p.CircularBases) (h : p.derivesFrom c b = .ok true)
    (h' : p.derivesFrom b a = .ok true) : p.derivesFrom c a = .ok true := by
  rw [derivesFrom_iff hp] at *
  exact h.trans h'

theorem derivesFrom_antisymm (hp : ¬ p.CircularBases) (h : p.derivesFrom c b = .ok true)
    (h' : p.derivesFrom b c = .ok true) : c = b := by
  rw [derivesFrom_iff hp] at h h'
  rcases Relation.reflTransGen_iff_eq_or_transGen.1 h with hcb | hcb
  · exact hcb.symm
  · exact absurd ⟨c, hcb.trans_left h'⟩ hp

/-! ## Widening -/

/-- The rules by which a type widens to another one. -/
inductive Widens (p : Program) : Ty → Ty → Prop
  | refl (t : Ty) : Widens p t t
  | range {i j : Interval} (inside : j.contains i = true) : Widens p (.range i) (.range j)
  | double {t : Ty} (numeric : t.isNumeric = true) : Widens p t .double
  | float {t : Ty} (numeric : t.isNumeric = true) (small : t ≠ .double) : Widens p t .float
  | long {t : Ty} (integer : t.isInteger = true) : Widens p t .long
  | int {t : Ty} (integer : t.isInteger = true) (short : t.isLong = false) : Widens p t .int
  | string : Widens p .stringStorage .stringPointer
  | null {t : Ty} (nullable : t.isNullable = true) : Widens p .null t
  | pointer {c d : ClassId} {w v : Bool} (derives : p.derivesFrom c d = .ok true)
      (right : keepsRight w v = true) : Widens p (.classPointer c w) (.classPointer d v)
  | object {c d : ClassId} {v : Bool} (derives : p.derivesFrom c d = .ok true) :
      Widens p (.classStorage c) (.classPointer d v)
  | decay {t : Ty} {n : UInt32} {v : Bool} : Widens p (.arrayStorage t n) (.arrayPointer t v)
  | readOnly {t : Ty} {w v : Bool} (right : keepsRight w v = true) :
      Widens p (.arrayPointer t w) (.arrayPointer t v)
  | items {t u : Ty} {n : UInt32} (item : Widens p t u) :
      Widens p (.arrayStorage t n) (.arrayStorage u n)

theorem widens_of_assignable (h : p.assignable t u = .ok true) : p.Widens t u := by
  fun_induction assignable p t u with
  | case1 => exact .refl _
  | case2 => exact .range (by simpa using h)
  | case3 => exact .double (by simpa using h)
  | case4 =>
    simp only [Except.ok.injEq, Bool.and_eq_true, bne_iff_ne] at h
    exact .float h.1 h.2
  | case5 => exact .long (by simpa using h)
  | case6 =>
    simp only [Except.ok.injEq, Bool.and_eq_true, Bool.not_eq_true'] at h
    exact .int h.1 h.2
  | case7 => exact .string
  | case8 => exact .null (by simpa using h)
  | case9 =>
    simp only [Query.bind_ok, Query.pure_ok, Bool.and_eq_true] at h
    obtain ⟨b, hb, rfl, hright⟩ := h
    exact .pointer hb hright
  | case10 => exact .object h
  | case11 =>
    simp only [Except.ok.injEq, beq_iff_eq] at h
    exact h ▸ .decay
  | case12 =>
    simp only [Except.ok.injEq, Bool.and_eq_true, beq_iff_eq] at h
    exact h.1 ▸ .readOnly h.2
  | case13 =>
    rename_i ih
    exact .items (ih h)
  | case14 => simp at h
  | case15 => simp at h

theorem assignable_self : p.assignable t t = .ok true := by
  unfold assignable
  rw [if_pos rfl]

theorem assignable_of_widens (h : p.Widens t u) : p.assignable t u = .ok true := by
  induction h with
  | refl => exact assignable_self
  | double =>
    cases ‹Ty› <;> simp_all [assignable, Ty.double, Ty.isNumeric, Ty.isInteger, Ty.isFloating]
  | float =>
    cases ‹Ty› <;> simp_all [assignable, Ty.float]
  | long =>
    cases ‹Ty› <;> simp_all [assignable, Ty.long, Ty.isInteger]
  | int =>
    cases ‹Ty› <;> simp_all [assignable, Ty.int, Ty.isInteger]
  | null =>
    cases ‹Ty› <;> simp_all [assignable, Ty.isNullable]
  | range inside => simp [assignable, inside]
  | string => simp [assignable]
  | pointer derives right => simp [assignable, derives, right]
  | object derives => simp [assignable, derives]
  | decay => simp [assignable]
  | readOnly right => simp [assignable, right]
  | items _ ih => simp [assignable, ih]

theorem assignable_iff : p.assignable t u = .ok true ↔ p.Widens t u :=
  ⟨widens_of_assignable, assignable_of_widens⟩

/-! ## Laws -/

theorem keepsRight_trans : ∀ {w v x : Bool}, keepsRight w v = true → keepsRight v x = true →
    keepsRight w x = true := by decide

theorem keepsRight_antisymm : ∀ {w v : Bool}, keepsRight w v = true → keepsRight v w = true →
    w = v := by decide

namespace Widens

theorem isNumeric (h : p.Widens t u) (hu : u.isNumeric = true) : t.isNumeric = true := by
  cases h with
  | null => cases u <;> simp_all [Ty.isNumeric, Ty.isInteger, Ty.isFloating, Ty.isNullable]
  | _ => simp_all [Ty.isNumeric, Ty.isInteger, Ty.isFloating]

theorem isInteger (h : p.Widens t u) (hu : u.isInteger = true) : t.isInteger = true := by
  cases h with
  | null => cases u <;> simp_all [Ty.isInteger, Ty.isNullable]
  | _ => simp_all [Ty.isInteger, Ty.double, Ty.float]

theorem isLong (h : p.Widens t u) (hi : u.isInteger = true) (hu : u.isLong = false) :
    t.isLong = false := by
  cases h with
  | range inside =>
    simp only [Ty.isLong, Bool.not_eq_false', Interval.fitsInt32_eq_contains] at hu ⊢
    exact Interval.contains_trans hu inside
  | _ => simp_all [Ty.isInteger, Ty.isLong, Ty.double, Ty.float, Ty.long]

theorem eq_double (h : p.Widens .double u) : u = .double := by
  cases h <;> simp_all [Ty.isInteger, Ty.double]

theorem contains {i j : Interval} (h : p.Widens (.range i) (.range j)) : j.contains i = true := by
  cases h with
  | refl => exact Interval.contains_self
  | range inside => exact inside

theorem trans (hp : ¬ p.CircularBases) (h : p.Widens t u) (h' : p.Widens u v)
    (hv : v.holdsArrayPointer = false) : p.Widens t v := by
  induction h' generalizing t with
  | refl => exact h
  | double numeric => exact .double (h.isNumeric numeric)
  | float numeric small =>
    refine .float (h.isNumeric numeric) ?_
    rintro rfl
    exact small h.eq_double
  | long integer => exact .long (h.isInteger integer)
  | int integer short => exact .int (h.isInteger integer) (h.isLong integer short)
  | range inside =>
    cases h with
    | refl => exact .range inside
    | range inner => exact .range (Interval.contains_trans inside inner)
    | null nullable => cases nullable
  | string =>
    cases h with
    | refl => exact .string
    | null nullable => cases nullable
  | null nullable =>
    cases h with
    | refl => exact .null nullable
    | null h => cases h
  | pointer derives right =>
    cases h with
    | refl => exact .pointer derives right
    | null => exact .null rfl
    | pointer derives' right' =>
      refine .pointer (derivesFrom_trans hp derives' derives) ?_
      exact keepsRight_trans right' right
    | object derives' => exact .object (derivesFrom_trans hp derives' derives)
  | object derives =>
    cases h with
    | refl => exact .object derives
    | null nullable => cases nullable
  | decay | readOnly => cases hv
  | items item ih =>
    cases h with
    | refl => exact .items item
    | null nullable => cases nullable
    | items item' => exact .items (ih item' hv)

theorem antisymm (hp : ¬ p.CircularBases) (h : p.Widens t u) (h' : p.Widens u t) : t = u := by
  induction h with
  | refl => rfl
  | double => exact h'.eq_double
  | float => cases h' <;> simp_all [Ty.isInteger, Ty.float]
  | long => cases h' <;> simp_all [Ty.isInteger, Ty.isLong, Ty.double, Ty.float, Ty.long]
  | int =>
    cases h' <;> simp_all [Ty.isInteger, Ty.isLong, Ty.double, Ty.float, Ty.long, Ty.int]
  | range inside =>
    cases h' with
    | refl => rfl
    | range inside' => rw [Interval.contains_antisymm inside inside']
  | string => cases h'
  | null nullable => cases h' <;> cases nullable
  | pointer derives right =>
    cases h' with
    | refl => rfl
    | pointer derives' right' =>
      rw [derivesFrom_antisymm hp derives derives', keepsRight_antisymm right right']
  | object => cases h'
  | decay => cases h'
  | readOnly right =>
    cases h' with
    | refl => rfl
    | readOnly right' => rw [keepsRight_antisymm right right']
  | items _ ih =>
    cases h' with
    | refl => rfl
    | items item' => rw [ih item']

end Widens

/-- Widening orders the types of a program whose classes are not their own bases: each type
widens to itself, no two types widen to each other, and a way over a third type is a way as long as
no array becomes a pointer at its end. -/
theorem coercion_partial_order (p : Program) (hp : ¬ p.CircularBases) (a b c : Ty) :
    p.assignable a a = .ok true ∧
      (p.assignable a b = .ok true → p.assignable b a = .ok true → a = b) ∧
      (p.assignable a b = .ok true → p.assignable b c = .ok true → c.holdsArrayPointer = false →
        p.assignable a c = .ok true) := by
  simp only [assignable_iff]
  exact ⟨.refl a, Widens.antisymm hp, Widens.trans hp⟩

/-- A class whose base has a base. -/
def lineage : Program :=
  let decl (name : String) (base : Option ClassId) : ClassDecl :=
    ⟨name, ⟨0⟩, 1, false, .normal, none, base, [], [], [], .resolved⟩
  { Program.empty with
    classes := .ofList [decl "Child" (some ⟨1⟩), decl "Parent" (some ⟨2⟩), decl "Elder" none] }

theorem lineage_not_circular : ¬ lineage.CircularBases := by
  have hlt : ∀ {c b : ClassId}, lineage.HasBase c b → c.slot < b.slot := by
    rintro c b ⟨d, hd, hb⟩
    unfold Arena.get? at hd
    rcases hc : c.slot with _ | _ | _ | n <;> rw [hc] at hd <;> cases hd <;> cases hb <;> decide
  rintro ⟨c, hc⟩
  have hway : ∀ {b : ClassId}, Relation.TransGen lineage.HasBase c b → c.slot < b.slot := by
    intro b h
    induction h with
    | single h => exact hlt h
    | tail _ h ih => exact ih.trans (hlt h)
  exact Nat.lt_irrefl _ (hway hc)

theorem coercion_partial_order_lineage : ¬ lineage.CircularBases ∧
    lineage.assignable (.classStorage ⟨0⟩) (.classPointer ⟨1⟩ true) = .ok true ∧
    lineage.assignable (.classPointer ⟨1⟩ true) (.classPointer ⟨2⟩ false) = .ok true ∧
    lineage.assignable (.classStorage ⟨0⟩) (.classPointer ⟨2⟩ false) = .ok true := by
  have hfirst : lineage.assignable (.classStorage ⟨0⟩) (.classPointer ⟨1⟩ true) = .ok true := by
    decide
  have hnext : lineage.assignable (.classPointer ⟨1⟩ true) (.classPointer ⟨2⟩ false) =
    .ok true := by
    decide
  exact ⟨lineage_not_circular, hfirst, hnext,
    (coercion_partial_order lineage lineage_not_circular _ _ _).2.2 hfirst hnext rfl⟩

-- An array of small integers holds integers, and an array of integers can be pointed to. The
-- pointer cannot point to the array of small ones.
example : lineage.assignable (.arrayStorage (.range ⟨0, 1⟩) 3) (.arrayStorage .int 3) = .ok true ∧
    lineage.assignable (.arrayStorage .int 3) (.arrayPointer .int true) = .ok true ∧
    lineage.assignable (.arrayStorage (.range ⟨0, 1⟩) 3) (.arrayPointer .int true) = .ok false := by
  decide

end Program
end Ci
