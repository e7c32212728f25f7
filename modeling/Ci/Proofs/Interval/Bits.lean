-- Bits of unsigned words. What can change between two bounds is found from the
-- highest bit on which the bounds differ, and all the bits below it.
import Ci.Interval.BitBounds
import Mathlib.Tactic

namespace Ci.BitBounds

variable {i k : Nat} {v w x y : UInt64} {b l r : BitBounds} {s t : Bool}

/-! ## Reading bits -/

/-- A bit of a word. -/
def bit (v : UInt64) (i : Nat) : Bool := v.toNat.testBit i

@[simp] theorem bit_and (v w : UInt64) (i : Nat) : bit (v &&& w) i = (bit v i && bit w i) := by
  unfold bit
  rw [UInt64.toNat_and, Nat.testBit_and]

@[simp] theorem bit_or (v w : UInt64) (i : Nat) : bit (v ||| w) i = (bit v i || bit w i) := by
  unfold bit
  rw [UInt64.toNat_or, Nat.testBit_or]

@[simp] theorem bit_xor (v w : UInt64) (i : Nat) : bit (v ^^^ w) i = (bit v i ^^ bit w i) := by
  unfold bit
  rw [UInt64.toNat_xor, Nat.testBit_xor]

@[simp] theorem bit_not (v : UInt64) (i : Nat) : bit (~~~v) i = (decide (i < 64) && !bit v i) := by
  unfold bit
  have hv := v.toNat_lt
  have hnot : (~~~v).toNat = 2 ^ 64 - (v.toNat + 1) := by
    rw [UInt64.toNat_not]
    simp only [UInt64.size]
    omega
  rw [hnot, Nat.testBit_two_pow_sub_succ hv]

theorem bit_eq_false_of_le (v : UInt64) (h : 64 ≤ i) : bit v i = false := by
  unfold bit
  exact Nat.testBit_lt_two_pow (lt_of_lt_of_le v.toNat_lt (Nat.pow_le_pow_right (by omega) h))

theorem lt_of_bit (h : bit v i = true) : i < 64 := by
  by_contra hi
  rw [bit_eq_false_of_le v (by omega)] at h
  cases h

/-- A word whose bits are among those of another is not above it. -/
theorem le_of_bit (h : ∀ i, bit v i = true → bit w i = true) : v ≤ w :=
  UInt64.le_iff_toNat_le.mpr (Nat.le_of_testBit h)

theorem eq_of_bit (h : ∀ i, bit v i = bit w i) : v = w :=
  UInt64.toNat_inj.mp (Nat.eq_of_testBit_eq h)

/-- A word that is not zero has a highest bit. -/
theorem exists_top_bit (h : v ≠ 0) : ∃ i, bit v i = true ∧ ∀ j, i < j → bit v j = false :=
  ⟨v.toNat.log2, Nat.testBit_log2 fun h0 => h (UInt64.toNat_inj.mp h0), fun _ hj =>
    Nat.testBit_lt_two_pow (lt_of_lt_of_le Nat.lt_log2_self (Nat.pow_le_pow_right (by omega) hj))⟩

/-- The highest bit on which two words differ. -/
def TopDifference (v w : UInt64) (i : Nat) : Prop :=
  bit v i ≠ bit w i ∧ ∀ j, i < j → bit v j = bit w j

theorem exists_topDifference (h : v ≠ w) : ∃ i, TopDifference v w i := by
  obtain ⟨i, hi, habove⟩ := exists_top_bit (v := v ^^^ w) fun h0 =>
    h (UInt64.xor_eq_zero_iff.mp h0)
  refine ⟨i, ?_, fun j hj => ?_⟩
  · simpa using hi
  · simpa using habove j hj

/-- The bits of two words that agree from some place on up. -/
theorem bit_eq_of_shiftRight_eq (h : v.toNat >>> k = w.toNat >>> k) (hi : k ≤ i) :
    bit v i = bit w i := by
  have hbits := congrArg (fun n => Nat.testBit n (i - k)) h
  simp only [Nat.testBit_shiftRight] at hbits
  rw [show k + (i - k) = i by omega] at hbits
  exact hbits

theorem shiftRight_eq_of_bit (h : ∀ i, k ≤ i → bit v i = bit w i) :
    v.toNat >>> k = w.toNat >>> k := by
  apply Nat.eq_of_testBit_eq
  intro i
  rw [Nat.testBit_shiftRight, Nat.testBit_shiftRight]
  exact h (k + i) (by omega)

theorem shiftRight_le (h : v ≤ w) (k : Nat) : v.toNat >>> k ≤ w.toNat >>> k := by
  rw [Nat.shiftRight_eq_div_pow, Nat.shiftRight_eq_div_pow]
  exact Nat.div_le_div_right (UInt64.le_iff_toNat_le.mp h)

/-- A bit is the last one of the word that is shifted to it. -/
theorem shiftRight_eq_add_bit (v : UInt64) (k : Nat) :
    v.toNat >>> k = 2 * (v.toNat >>> (k + 1)) + (bit v k).toNat := by
  unfold bit
  rw [Nat.toNat_testBit, Nat.shiftRight_succ, Nat.shiftRight_eq_div_pow]
  omega

/-- A smaller word lacks a bit that the larger one has, and they agree above that bit. -/
theorem exists_bit_of_lt (h : v < w) :
    ∃ i, bit v i = false ∧ bit w i = true ∧ ∀ j, i < j → bit v j = bit w j := by
  -- the highest bit on which they differ decides the order
  obtain ⟨i, hdiff, habove⟩ := exists_topDifference (UInt64.ne_of_lt h)
  have hupper : v.toNat >>> (i + 1) = w.toNat >>> (i + 1) := shiftRight_eq_of_bit habove
  have hle := shiftRight_le (UInt64.le_of_lt h) i
  rw [shiftRight_eq_add_bit v, shiftRight_eq_add_bit w, hupper] at hle
  refine ⟨i, ?_, ?_, habove⟩ <;> cases hv : bit v i <;> cases hw : bit w i <;> simp_all

/-! ## The highest set bit and everything below -/

/-- After a shift by the width of a window is added, a bit tells of a window that is twice as
wide. -/
theorem bit_widen (hk : k < 64)
    (h : ∀ i, bit w i = true ↔ ∃ j, i ≤ j ∧ j < i + k ∧ bit v j = true) (i : Nat) :
    bit (w ||| w >>> UInt64.ofNat k) i = true ↔ ∃ j, i ≤ j ∧ j < i + 2 * k ∧ bit v j = true := by
  have hshift : bit (w >>> UInt64.ofNat k) i = bit w (i + k) := by
    unfold bit
    rw [UInt64.toNat_shiftRight, Nat.testBit_shiftRight, UInt64.toNat_ofNat_of_lt' (by
      simp only [UInt64.size]; omega), Nat.mod_eq_of_lt hk, Nat.add_comm]
  rw [bit_or, hshift, Bool.or_eq_true, h i, h (i + k)]
  constructor
  · rintro (⟨j, h1, h2, h3⟩ | ⟨j, h1, h2, h3⟩)
    · exact ⟨j, h1, by omega, h3⟩
    · exact ⟨j, by omega, by omega, h3⟩
  · rintro ⟨j, h1, h2, h3⟩
    by_cases hj : j < i + k
    · exact Or.inl ⟨j, h1, hj, h3⟩
    · exact Or.inr ⟨j, by omega, by omega, h3⟩

/-- Smearing sets exactly the bits at and below a set bit. -/
theorem bit_smear (v : UInt64) (i : Nat) :
    bit (smear v) i = true ↔ ∃ j, i ≤ j ∧ bit v j = true := by
  have h1 : ∀ i, bit v i = true ↔ ∃ j, i ≤ j ∧ j < i + 1 ∧ bit v j = true := by
    intro i
    constructor
    · intro h
      exact ⟨i, le_refl i, by omega, h⟩
    · rintro ⟨j, hij, hji, h⟩
      obtain rfl : j = i := by omega
      exact h
  -- six steps, and the window is as wide as a word
  have h64 : bit (smear v) i = true ↔ ∃ j, i ≤ j ∧ j < i + 64 ∧ bit v j = true :=
    bit_widen (by omega) (bit_widen (by omega) (bit_widen (by omega) (bit_widen (by omega)
      (bit_widen (by omega) (bit_widen (by omega) h1))))) i
  rw [h64]
  refine ⟨?_, ?_⟩
  · rintro ⟨j, hij, _, h⟩
    exact ⟨j, hij, h⟩
  · rintro ⟨j, hij, h⟩
    have := lt_of_bit h
    exact ⟨j, hij, by omega, h⟩

/-! ## The bits that can change -/

/-- The word lies between the bounds. -/
def Mem (b : BitBounds) (x : UInt64) : Prop := b.lo ≤ x ∧ x ≤ b.hi

/-- From a bit on that cannot change, the bounds agree. -/
theorem shiftRight_eq_of_fixed (h : bit b.variableBits i = false) :
    b.lo.toNat >>> i = b.hi.toNat >>> i := by
  apply shiftRight_eq_of_bit
  intro j hj
  by_contra hne
  have hset : bit b.variableBits i = true :=
    (bit_smear _ i).mpr ⟨j, hj, by rw [bit_xor]; simpa using hne⟩
  rw [h] at hset
  cases hset

/-- A bit that cannot change is that of the lower bound in every word between the bounds. -/
theorem bit_eq_lo (hx : b.Mem x) (h : bit b.variableBits i = false) : bit x i = bit b.lo i := by
  have hends := shiftRight_eq_of_fixed h
  have hlow := shiftRight_le hx.1 i
  have hhigh := shiftRight_le hx.2 i
  exact bit_eq_of_shiftRight_eq (by omega) (le_refl i)

theorem bit_eq_hi (hx : b.Mem x) (h : bit b.variableBits i = false) : bit x i = bit b.hi i := by
  have hends := shiftRight_eq_of_fixed h
  have hlow := shiftRight_le hx.1 i
  have hhigh := shiftRight_le hx.2 i
  exact bit_eq_of_shiftRight_eq (by omega) (le_refl i)

/-- Smearing makes all ones of the highest bit and what is below it. -/
theorem toNat_smear (hk : bit v k = true)
    (habove : ∀ j, k < j → bit v j = false) : (smear v).toNat = 2 ^ (k + 1) - 1 := by
  refine Nat.eq_of_testBit_eq fun i => ?_
  rw [Nat.testBit_two_pow_sub_one]
  refine Bool.eq_iff_iff.mpr ((bit_smear v i).trans ?_)
  rw [decide_eq_true_iff]
  constructor
  · rintro ⟨j, hij, hj⟩
    by_contra hlt
    rw [habove j (by omega)] at hj
    cases hj
  · intro hi
    exact ⟨k, by omega, hk⟩

/-- No word between the bounds differs from the lower one outside the variable bits. These are
all the bits at and below the highest bit on which the bounds differ, and none if the bounds are
the same. -/
theorem variableBits_capture (b : BitBounds) :
    (∀ x, b.Mem x → x &&& ~~~b.variableBits = b.lo &&& ~~~b.variableBits) ∧
      (b.lo = b.hi → b.variableBits = 0) ∧
      (b.lo ≠ b.hi → ∃ k, TopDifference b.lo b.hi k ∧ b.variableBits.toNat = 2 ^ (k + 1) - 1) := by
  refine ⟨fun x hx => eq_of_bit fun i => ?_, fun heq => ?_, fun hne => ?_⟩
  · cases hv : bit b.variableBits i with
    | true => simp [hv]
    | false => simp [hv, bit_eq_lo hx hv]
  · rw [variableBits, heq, UInt64.xor_self]
    rfl
  · obtain ⟨k, hdiff, habove⟩ := exists_topDifference hne
    refine ⟨k, ⟨hdiff, habove⟩, toNat_smear ?_ fun j hj => ?_⟩
    · simpa using hdiff
    · simpa using habove j hj

/-- The lower bound without its variable bits has only bits of the word. -/
theorem bit_of_lo_fixed (hx : b.Mem x) (h : bit (b.lo &&& ~~~b.variableBits) i = true) :
    bit x i = true := by
  simp only [bit_and, bit_not, Bool.and_eq_true, Bool.not_eq_true'] at h
  rw [bit_eq_lo hx h.2.2]
  exact h.1

/-- The upper bound with all variable bits has all the bits of the word. -/
theorem bit_hi_or_variable (hx : b.Mem x) (h : bit x i = true) :
    bit (b.hi ||| b.variableBits) i = true := by
  rw [bit_or]
  cases hv : bit b.variableBits i
  · rw [← bit_eq_hi hx hv, h]
    rfl
  · rw [Bool.or_true]

/-! ## The three operators -/

theorem and_le_left (x y : UInt64) : x &&& y ≤ x :=
  le_of_bit fun i h => by rw [bit_and, Bool.and_eq_true] at h; exact h.1

theorem and_le_right (x y : UInt64) : x &&& y ≤ y :=
  le_of_bit fun i h => by rw [bit_and, Bool.and_eq_true] at h; exact h.2

theorem left_le_or (x y : UInt64) : x ≤ x ||| y :=
  le_of_bit fun i h => by rw [bit_or, h, Bool.true_or]

theorem right_le_or (x y : UInt64) : y ≤ x ||| y :=
  le_of_bit fun i h => by rw [bit_or, h, Bool.or_true]

theorem le_min_word {z : UInt64} (hy : x ≤ y) (hz : x ≤ z) : x ≤ min y z := by
  rw [UInt64.le_iff_toNat_le] at *
  simp only [min]
  split <;> assumption

theorem max_le_word {z : UInt64} (hy : y ≤ x) (hz : z ≤ x) : max y z ≤ x := by
  rw [UInt64.le_iff_toNat_le] at *
  simp only [max]
  split <;> assumption

theorem unsignedAnd_mem (hx : l.Mem x) (hy : r.Mem y) : (unsignedAnd l r).Mem (x &&& y) := by
  constructor
  · apply le_of_bit
    intro i h
    simp only [unsignedAnd] at h
    rw [bit_and, Bool.and_eq_true] at h
    rw [bit_and, bit_of_lo_fixed hx h.1, bit_of_lo_fixed hy h.2]
    rfl
  · refine le_min_word (le_min_word ?_ ?_) ?_
    · apply le_of_bit
      intro i h
      rw [bit_and, Bool.and_eq_true] at h
      rw [bit_and, bit_hi_or_variable hx h.1, bit_hi_or_variable hy h.2]
      rfl
    · exact UInt64.le_trans (and_le_left x y) hx.2
    · exact UInt64.le_trans (and_le_right x y) hy.2

/-- A sum has each common bit twice. -/
theorem or_add_and (a b : Nat) : (a ||| b) + (a &&& b) = a + b := by
  induction a using Nat.strongRecOn generalizing b with
  | ind a ih =>
    rcases Nat.eq_zero_or_pos a with rfl | ha
    · simp
    · have hhalf := ih (a / 2) (by omega) (b / 2)
      have hor := Nat.or_div_two (a := a) (b := b)
      have hand := Nat.and_div_two (a := a) (b := b)
      have hor2 := Nat.or_mod_two_eq_one (a := a) (b := b)
      have hand2 := Nat.and_mod_two_eq_one (a := a) (b := b)
      omega

/-- Where the upper bounds have no bit in common, the bits of the results do not go beyond those
of the bounds. -/
theorem or_shiftRight_le {u : UInt64} (hx : x ≤ u) (hy : y ≤ w)
    (hapart : ∀ j, k ≤ j → bit (u &&& w) j = false) :
    (x ||| y).toNat >>> k ≤ (u ||| w).toNat >>> k := by
  have hsum := or_add_and (x.toNat >>> k) (y.toNat >>> k)
  have hbound := or_add_and (u.toNat >>> k) (w.toNat >>> k)
  have hnone : u.toNat >>> k &&& w.toNat >>> k = 0 := by
    rw [← Nat.shiftRight_and_distrib, ← UInt64.toNat_and, ← Nat.zero_shiftRight k]
    exact shiftRight_eq_of_bit (w := 0) fun j hj => by rw [hapart j hj]; simp [bit]
  have hxu := shiftRight_le hx k
  have hyw := shiftRight_le hy k
  rw [UInt64.toNat_or, UInt64.toNat_or, Nat.shiftRight_or_distrib, Nat.shiftRight_or_distrib]
  omega

/-- Where the upper bounds have a bit in common, everything below it is possible, and nothing
above it is. -/
theorem or_le_smear {u : UInt64} (hx : x ≤ u) (hy : y ≤ w) :
    x ||| y ≤ u ||| w ||| smear (u &&& w) := by
  by_contra hlt
  obtain ⟨i, hbound, hor, habove⟩ := exists_bit_of_lt (UInt64.not_le.mp hlt)
  rw [bit_or, Bool.or_eq_false_iff] at hbound
  have hapart : ∀ j, i ≤ j → bit (u &&& w) j = false := by
    intro j hj
    by_contra hset
    have hsmear := (bit_smear (u &&& w) i).mpr ⟨j, hj, by simpa using hset⟩
    rw [hbound.2] at hsmear
    cases hsmear
  -- so the smear adds nothing from this bit on
  have hsame : (u ||| w).toNat >>> (i + 1) = (x ||| y).toNat >>> (i + 1) := by
    apply shiftRight_eq_of_bit
    intro j hj
    rw [← habove j hj, bit_or (u ||| w)]
    have hnone : bit (smear (u &&& w)) j = false := by
      by_contra hset
      obtain ⟨k, hk, hbit⟩ := (bit_smear _ j).mp (by simpa using hset)
      rw [hapart k (by omega)] at hbit
      cases hbit
    rw [hnone, Bool.or_false]
  have hle := or_shiftRight_le hx hy hapart
  rw [shiftRight_eq_add_bit, shiftRight_eq_add_bit (u ||| w), hbound.1, hor, hsame] at hle
  simp at hle

theorem unsignedOr_mem (hx : l.Mem x) (hy : r.Mem y) : (unsignedOr l r).Mem (x ||| y) := by
  constructor
  · refine max_le_word (max_le_word ?_ ?_) ?_
    · apply le_of_bit
      intro i h
      rw [bit_or, Bool.or_eq_true] at h
      rw [bit_or, Bool.or_eq_true]
      rcases h with h | h
      · exact Or.inl (bit_of_lo_fixed hx h)
      · exact Or.inr (bit_of_lo_fixed hy h)
    · exact UInt64.le_trans hx.1 (left_le_or x y)
    · exact UInt64.le_trans hy.1 (right_le_or x y)
  · exact or_le_smear hx.2 hy.2

theorem unsignedXor_mem (hx : l.Mem x) (hy : r.Mem y) : (unsignedXor l r).Mem (x ^^^ y) := by
  constructor
  · apply le_of_bit
    intro i h
    simp only [unsignedXor, bit_and, bit_not, bit_or, Bool.and_eq_true, Bool.not_eq_true',
      Bool.or_eq_false_iff] at h
    rw [bit_xor, bit_eq_lo hx h.2.2.1, bit_eq_lo hy h.2.2.2, ← bit_xor]
    exact h.1
  · apply le_of_bit
    intro i h
    simp only [unsignedXor]
    rw [bit_or, bit_or]
    cases hl : bit l.variableBits i
    · cases hr : bit r.variableBits i
      · rw [bit_xor, ← bit_eq_hi hx hl, ← bit_eq_hi hy hr, ← bit_xor, h]
        rfl
      · simp
    · simp

/-! ## The sign -/

/-- The highest bit of both bounds, which tells the sign of the words between them. -/
def HasSign (b : BitBounds) (s : Bool) : Prop := bit b.lo 63 = s ∧ bit b.hi 63 = s

theorem bit_top_iff (v : UInt64) : bit v 63 = true ↔ 2 ^ 63 ≤ v.toNat := by
  constructor
  · exact Nat.ge_two_pow_of_testBit
  · intro h
    exact Nat.testBit_of_two_pow_le_and_two_pow_add_one_gt h v.toNat_lt

/-- Where the bounds have one sign, the sign is no variable bit. -/
theorem HasSign.fixed (h : b.HasSign s) : bit b.variableBits 63 = false := by
  by_contra hset
  rw [Bool.not_eq_false] at hset
  obtain ⟨j, hj, hbit⟩ := (bit_smear _ 63).mp hset
  obtain rfl : j = 63 := by
    have := lt_of_bit hbit
    omega
  rw [bit_xor, h.1, h.2] at hbit
  simp at hbit

theorem bit_top_min (v w : UInt64) : bit (min v w) 63 = (bit v 63 && bit w 63) := by
  rw [Bool.eq_iff_iff, Bool.and_eq_true, bit_top_iff, bit_top_iff, bit_top_iff]
  simp only [min]
  split <;> rename_i h <;> rw [UInt64.le_iff_toNat_le] at h <;> omega

theorem bit_top_max (v w : UInt64) : bit (max v w) 63 = (bit v 63 || bit w 63) := by
  rw [Bool.eq_iff_iff, Bool.or_eq_true, bit_top_iff, bit_top_iff, bit_top_iff]
  simp only [max]
  split <;> rename_i h <;> rw [UInt64.le_iff_toNat_le] at h <;> omega

theorem unsignedAnd_sign (hl : l.HasSign s) (hr : r.HasSign t) :
    (unsignedAnd l r).HasSign (s && t) := by
  constructor
  · simp [unsignedAnd, hl.1, hr.1, hl.fixed, hr.fixed]
  · simp only [unsignedAnd, bit_top_min, bit_and, bit_or, hl.2, hr.2, hl.fixed, hr.fixed]
    cases s <;> cases t <;> rfl

theorem unsignedOr_sign (hl : l.HasSign s) (hr : r.HasSign t) :
    (unsignedOr l r).HasSign (s || t) := by
  constructor
  · simp only [unsignedOr, bit_top_max, bit_and, bit_or, bit_not, hl.1, hr.1, hl.fixed, hr.fixed]
    cases s <;> cases t <;> rfl
  · have hsmear : bit (smear (l.hi &&& r.hi)) 63 = true → (s && t) = true := by
      intro h
      obtain ⟨j, hj, hbit⟩ := (bit_smear _ 63).mp h
      obtain rfl : j = 63 := by
        have := lt_of_bit hbit
        omega
      rw [bit_and, hl.2, hr.2] at hbit
      exact hbit
    simp only [unsignedOr, bit_or, hl.2, hr.2]
    cases s <;> cases t <;> simp_all

theorem unsignedXor_sign (hl : l.HasSign s) (hr : r.HasSign t) :
    (unsignedXor l r).HasSign (s ^^ t) := by
  constructor
  · simp [unsignedXor, hl.1, hr.1, hl.fixed, hr.fixed]
  · simp [unsignedXor, hl.2, hr.2, hl.fixed, hr.fixed]

/-- Every word between bounds of one sign has that sign. -/
theorem HasSign.bit_eq (h : b.HasSign s) (hx : b.Mem x) : bit x 63 = s := by
  rw [bit_eq_lo hx h.fixed, h.1]

end Ci.BitBounds
