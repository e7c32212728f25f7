-- The bounds of sums, products, quotients and shifts are the best ones. They hold
-- every clamped result, and each of the two is itself the clamped result on some
-- words of the operands. So no smaller interval holds all the results.
import Ci.Proofs.Interval.Validity

namespace Ci.Interval

variable {i j d l r : Interval} {S T : Set Int64} {f : Int → Int → Int} {c v : Int64}

/-! ## The least interval around a set -/

theorem contains_iff :
    i.contains j = true ↔ i.min.toInt ≤ j.min.toInt ∧ j.max.toInt ≤ i.max.toInt := by
  unfold contains
  rw [Bool.and_eq_true, decide_eq_true_iff, decide_eq_true_iff, Int64.le_iff_toInt_le,
    Int64.le_iff_toInt_le]

theorem Valid.mem_max (h : i.Valid) : i.Mem i.max := ⟨h, Int64.le_refl _⟩

/-- The interval holds all the words of a set, and so does no smaller one. -/
structure IsHull (i : Interval) (S : Set Int64) : Prop where
  holds : ∀ v ∈ S, i.Mem v
  least : ∀ j : Interval, (∀ v ∈ S, j.Mem v) → j.contains i = true

/-- An interval whose bounds are in the set is not too large. -/
theorem IsHull.of_ends (hS : ∀ v ∈ S, i.Mem v) (hmin : i.min ∈ S) (hmax : i.max ∈ S) :
    i.IsHull S := by
  refine ⟨hS, fun j hj => ?_⟩
  have hlow := mem_iff.1 (hj _ hmin)
  have hhigh := mem_iff.1 (hj _ hmax)
  exact contains_iff.2 ⟨hlow.1, hhigh.2⟩

theorem IsHull.contains (hi : i.IsHull S) (hj : j.IsHull T) (h : S ⊆ T) : j.contains i = true :=
  hi.least j fun v hv => hj.holds v (h hv)

/-- The words of an interval. -/
def words (i : Interval) : Set Int64 := {a | i.Mem a}

/-- The clamped results of an operation on the words of an interval and of a set. -/
def results (f : Int → Int → Int) (l : Interval) (R : Set Int64) : Set Int64 :=
  {v | ∃ a b, l.Mem a ∧ b ∈ R ∧ v = Int64.ofIntClamp (f a.toInt b.toInt)}

theorem mem_results {a b : Int64} {R : Set Int64} (ha : l.Mem a) (hb : b ∈ R)
    (hv : v = Int64.ofIntClamp (f a.toInt b.toInt)) : v ∈ results f l R := ⟨a, b, ha, hb, hv⟩

/-! ## Hulls of lists -/

/-- What is picked from a list, one word after the other, is in the list. -/
theorem foldl_pick_mem {pick : Int64 → Int64 → Int64} (h : ∀ x y, pick x y = x ∨ pick x y = y)
    (a : Int64) (rest : List Int64) : rest.foldl pick a ∈ a :: rest := by
  induction rest generalizing a with
  | nil => simp
  | cons b _ ih =>
    rw [List.foldl_cons]
    rcases List.mem_cons.1 (ih (pick a b)) with hfirst | hrest
    · rw [hfirst]
      rcases h a b with hp | hp <;> simp [hp]
    · simp [hrest]

theorem hull_ends {vs : List Int64} (h : vs ≠ []) : (hull vs).min ∈ vs ∧ (hull vs).max ∈ vs := by
  cases vs with
  | nil => exact absurd rfl h
  | cons a rest =>
    refine ⟨foldl_pick_mem (fun x y => ?_) a rest, foldl_pick_mem (fun x y => ?_) a rest⟩
    all_goals split <;> simp

theorem of_mem_corners (h : c ∈ corners f l r) : ∃ a b : Int64, (a = l.min ∨ a = l.max) ∧
    (b = r.min ∨ b = r.max) ∧ c = Int64.ofIntClamp (f a.toInt b.toInt) := by
  simp only [corners, List.mem_cons, List.not_mem_nil, or_false] at h
  rcases h with rfl | rfl | rfl | rfl
  · exact ⟨_, _, .inl rfl, .inl rfl, rfl⟩
  · exact ⟨_, _, .inl rfl, .inr rfl, rfl⟩
  · exact ⟨_, _, .inr rfl, .inl rfl, rfl⟩
  · exact ⟨_, _, .inr rfl, .inr rfl, rfl⟩

/-- A corner is a result, if the bounds on the right are in the set. -/
theorem corners_subset {R : Set Int64} (hl : l.Valid) (hmin : r.min ∈ R) (hmax : r.max ∈ R)
    (hc : c ∈ corners f l r) : c ∈ results f l R := by
  obtain ⟨a, b, ha, hb, hc⟩ := of_mem_corners hc
  refine mem_results ?_ ?_ hc
  · rcases ha with rfl | rfl
    · exact hl.mem_min
    · exact hl.mem_max
  · rcases hb with rfl | rfl
    · exact hmin
    · exact hmax

/-! ## Sums, differences and products -/

theorem isHull_add (hl : l.Valid) (hr : r.Valid) :
    (l.add r).IsHull (results (· + ·) l r.words) := by
  refine .of_ends ?_ (mem_results hl.mem_min hr.mem_min rfl) (mem_results hl.mem_max hr.mem_max rfl)
  rintro _ ⟨a, b, ha, hb, rfl⟩
  exact add_mem ha hb

theorem isHull_sub (hl : l.Valid) (hr : r.Valid) :
    (l.sub r).IsHull (results (· - ·) l r.words) := by
  refine .of_ends ?_ (mem_results hl.mem_min hr.mem_max rfl) (mem_results hl.mem_max hr.mem_min rfl)
  rintro _ ⟨a, b, ha, hb, rfl⟩
  exact sub_mem ha hb

theorem isHull_mul (hl : l.Valid) (hr : r.Valid) :
    (l.mul r).IsHull (results (· * ·) l r.words) := by
  have hne : corners (· * ·) l r ≠ [] := by simp [corners]
  obtain ⟨hmin, hmax⟩ := hull_ends hne
  refine .of_ends ?_ (corners_subset hl hr.mem_min hr.mem_max hmin)
    (corners_subset hl hr.mem_min hr.mem_max hmax)
  rintro _ ⟨a, b, ha, hb, rfl⟩
  exact mul_mem ha hb

/-! ## Quotients -/

/-- Both bounds of a part of the divisors are divisors. -/
theorem ends_mem_of_mem_divisors (hr : r.Valid) (hd : d ∈ r.divisors) :
    d.min ∈ r.words \ {0} ∧ d.max ∈ r.words \ {0} := by
  have e1 : (1 : Int64).toInt = 1 := by decide
  have em1 : (-1 : Int64).toInt = -1 := by decide
  have e0 : (0 : Int64).toInt = 0 := by decide
  have hne : ∀ a : Int64, a ∈ r.words \ {0} ↔
      (r.min.toInt ≤ a.toInt ∧ a.toInt ≤ r.max.toInt) ∧ a.toInt ≠ 0 := by
    intro a
    rw [Set.mem_sdiff, Set.mem_singleton_iff, ← e0, ne_eq, Int64.toInt_inj]
    exact and_congr_left' mem_iff
  rw [valid_iff] at hr
  rw [hne, hne]
  simp only [divisors, List.mem_append, Option.mem_toList, negative, positive, nonNegative,
    Option.bind_eq_some_iff, Option.ite_none_right_eq_some, Option.some.injEq] at hd
  obtain ⟨hneg, rfl⟩ | ⟨p, ⟨-, rfl⟩, hpos, rfl⟩ := hd
  · have := Int64.lt_iff_toInt_lt.1 hneg
    simp only [toInt_min]
    omega
  · have := Int64.lt_iff_toInt_lt.1 hpos
    simp only [toInt_max] at this ⊢
    omega

theorem div_eq_ok (h : l.div r = .ok i) :
    r.divisors.flatMap l.quotientCorners ≠ [] ∧
    i = hull (r.divisors.flatMap l.quotientCorners) := by
  unfold div at h
  split at h
  · cases h
  · rename_i hne
    cases h
    exact ⟨hne, rfl⟩

/-- Only zero has no divisor beside zero. -/
theorem exists_divisor (hr : r.Valid) (h : r ≠ point 0) : ∃ b ∈ r.words, b ≠ 0 := by
  by_contra hnone
  push Not at hnone
  have hmin := hnone r.min hr.mem_min
  have hmax := hnone r.max hr.mem_max
  exact h (by cases r; simp_all [point])

theorem isHull_div (hl : l.Valid) (hr : r.Valid) (h : r ≠ point 0) :
    ∃ i, l.div r = .ok i ∧ i.IsHull (results Int.tdiv l (r.words \ {0})) := by
  obtain ⟨b, hb, h0⟩ := exists_divisor hr h
  obtain ⟨i, hi, -⟩ := div_mem hl.mem_min hb h0
  refine ⟨i, hi, ?_⟩
  have hcorner : ∀ c ∈ r.divisors.flatMap l.quotientCorners,
      c ∈ results Int.tdiv l (r.words \ {0}) := by
    intro c hc
    obtain ⟨d, hd, hc⟩ := List.mem_flatMap.1 hc
    obtain ⟨hmin, hmax⟩ := ends_mem_of_mem_divisors hr hd
    exact corners_subset hl hmin hmax hc
  obtain ⟨hne, rfl⟩ := div_eq_ok hi
  obtain ⟨hmin, hmax⟩ := hull_ends hne
  refine .of_ends ?_ (hcorner _ hmin) (hcorner _ hmax)
  rintro _ ⟨a, b, ha, hb, rfl⟩
  obtain ⟨j, hj, hmem⟩ := div_mem ha hb.1 hb.2
  cases hi.symm.trans hj
  exact hmem

theorem div_point_zero (l : Interval) : l.div (point 0) = .error .division := by
  have hnone : (point 0).divisors = [] := by decide
  simp [div, hnone]

/-! ## Shifts -/

theorem areBits_words {b : Int64} (h : r.areBits = true) (hb : b ∈ r.words) :
    0 ≤ b.toInt ∧ b.toInt ≤ 63 := by
  have hrange := areBits_iff.1 h
  have hmem := mem_iff.1 hb
  omega

/-- Whichever amount the sign of a bound asks for, it is one of the amounts. -/
theorem ite_mem_words (hr : r.Valid) (p : Prop) [Decidable p] :
    (if p then r.max else r.min) ∈ r.words ∧ (if p then r.min else r.max) ∈ r.words := by
  split
  · exact ⟨hr.mem_max, hr.mem_min⟩
  · exact ⟨hr.mem_min, hr.mem_max⟩

theorem isHull_shiftLeft (hl : l.Valid) (hr : r.Valid) (hbits : r.areBits = true) :
    (l.shiftLeft r).IsHull (results (fun a b => a * 2 ^ b.toNat) l r.words) := by
  have hend : ∀ a b, l.Mem a → b ∈ r.words →
      Saturating.shiftLeft a b ∈ results (fun a b => a * 2 ^ b.toNat) l r.words :=
    fun a b ha hb => mem_results ha hb (Saturating.shiftLeft_eq_ofIntClamp (areBits_words hbits hb))
  refine .of_ends ?_ ?_ ?_
  · rintro _ ⟨a, b, ha, hb, rfl⟩
    exact shiftLeft_mem ha hb
  · rw [shiftLeft, if_pos hbits]
    exact hend _ _ hl.mem_min (ite_mem_words hr _).1
  · rw [shiftLeft, if_pos hbits]
    exact hend _ _ hl.mem_max (ite_mem_words hr _).2

theorem isHull_shiftRight (hl : l.Valid) (hr : r.Valid) (hbits : r.areBits = true) :
    (l.shiftRight r).IsHull (results (fun a b => a.fdiv (2 ^ b.toNat)) l r.words) := by
  -- a quotient by a power of two is a word, so the clamp does nothing
  have hword : ∀ a b : Int64, b ∈ r.words → Saturating.shiftRight a b =
      Int64.ofIntClamp (a.toInt.fdiv (2 ^ b.toInt.toNat)) := by
    intro a b hb
    rw [Int.fdiv_eq_ediv_of_nonneg _ (by positivity)]
    exact eq_ofIntClamp (Saturating.toInt_shiftRight_of_isBit (areBits_words hbits hb))
  refine .of_ends ?_ ?_ ?_
  · rintro _ ⟨a, b, ha, hb, rfl⟩
    have hbit := areBits_words hbits hb
    dsimp only
    rw [← hword a b hb]
    exact shiftRight_mem ha hb hbit (Saturating.toInt_shiftRight_of_isBit hbit)
  · rw [shiftRight, if_pos hbits]
    exact mem_results hl.mem_min (ite_mem_words hr _).2 (hword _ _ (ite_mem_words hr _).2)
  · rw [shiftRight, if_pos hbits]
    exact mem_results hl.mem_max (ite_mem_words hr _).1 (hword _ _ (ite_mem_words hr _).1)

/-! ## All of them -/

/-- The bounds of sums, differences, products, quotients and shifts by amounts that name bits are
the least intervals that hold all the clamped results. A quotient has bounds unless the only
divisor is zero. -/
theorem arithmetic_tight (l r : Interval) (hl : l.Valid) (hr : r.Valid) :
    (l.add r).IsHull (results (· + ·) l r.words) ∧
    (l.sub r).IsHull (results (· - ·) l r.words) ∧
    (l.mul r).IsHull (results (· * ·) l r.words) ∧
    (r ≠ point 0 → ∃ i, l.div r = .ok i ∧ i.IsHull (results Int.tdiv l (r.words \ {0}))) ∧
    (l.div r = .error .division ↔ r = point 0) ∧
    (0 ≤ r.min → r.max ≤ 63 →
      (l.shiftLeft r).IsHull (results (fun a b => a * 2 ^ b.toNat) l r.words) ∧
      (l.shiftRight r).IsHull (results (fun a b => a.fdiv (2 ^ b.toNat)) l r.words)) := by
  refine ⟨isHull_add hl hr, isHull_sub hl hr, isHull_mul hl hr, isHull_div hl hr, ⟨?_, ?_⟩, ?_⟩
  · intro herror
    by_contra hne
    obtain ⟨i, hi, -⟩ := isHull_div hl hr hne
    cases herror.symm.trans hi
  · rintro rfl
    exact div_point_zero l
  · intro hmin hmax
    have hbits : r.areBits = true := by simp [areBits, hmin, hmax]
    exact ⟨isHull_shiftLeft hl hr hbits, isHull_shiftRight hl hr hbits⟩

/-- All the words, divided and shifted by the numbers of the bits, zero among them. -/
theorem arithmetic_tight_full : full.Valid ∧ Valid ⟨0, 63⟩ ∧
    (∃ i, full.div ⟨0, 63⟩ = .ok i ∧ i.IsHull (results Int.tdiv full (words ⟨0, 63⟩ \ {0}))) ∧
    (full.shiftLeft ⟨0, 63⟩).IsHull (results (fun a b => a * 2 ^ b.toNat) full (words ⟨0, 63⟩)) ∧
    (full.shiftRight ⟨0, 63⟩).IsHull
      (results (fun a b => a.fdiv (2 ^ b.toNat)) full (words ⟨0, 63⟩)) := by
  have hbest := arithmetic_tight full ⟨0, 63⟩ (by decide) (by decide)
  exact ⟨by decide, by decide, hbest.2.2.2.1 (by decide),
    hbest.2.2.2.2.2 (by decide) (by decide)⟩

end Ci.Interval
