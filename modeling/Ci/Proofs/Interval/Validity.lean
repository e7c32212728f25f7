-- Intervals that hold a word. Every interval that arithmetic makes from intervals
-- with a word has one too, also those that are only made on the way: the parts of
-- one sign, the divisors, and the bounds of bit patterns.
import Ci.Proofs.Interval.Soundness

namespace Ci.Interval

variable {i j l r : Interval} {v : Int64}

theorem valid_iff : i.Valid ↔ i.min.toInt ≤ i.max.toInt := Int64.le_iff_toInt_le

theorem Mem.valid (h : i.Mem v) : i.Valid := Int64.le_trans h.1 h.2

theorem Valid.mem_min (h : i.Valid) : i.Mem i.min := ⟨Int64.le_refl _, h⟩

theorem valid_point (v : Int64) : (point v).Valid := Int64.le_refl v

theorem valid_full : full.Valid := (mem_full 0).valid

theorem valid_hull (vs : List Int64) : (hull vs).Valid := by
  cases vs with
  | nil => exact valid_point 0
  | cons v => exact Mem.valid (hull_bounds (List.mem_cons_self (a := v)))

/-! ## One operand -/

section

variable (h : i.Valid)

include h

theorem Valid.neg : i.neg.Valid := by
  have := valid_iff.1 h
  exact ofIntClamp_mono (by omega)

theorem Valid.complement : i.complement.Valid := (complement_mem h.mem_min).valid

theorem Valid.offset (d : Int64) : (i.offset d).Valid := by
  have := valid_iff.1 h
  exact ofIntClamp_mono (by omega)

theorem Valid.union : (i.union j).Valid := (mem_union_left h.mem_min).valid

/-! ## Parts of one sign -/

theorem Valid.of_negative (hj : i.negative = some j) : j.Valid := by
  unfold negative at hj
  split at hj
  · cases hj
    rename_i hneg
    have := Int64.lt_iff_toInt_lt.1 hneg
    have := valid_iff.1 h
    simp only [valid_iff, toInt_min, le_min_iff]
    exact ⟨this, by simp_all; omega⟩
  · cases hj

theorem Valid.of_nonNegative (hj : i.nonNegative = some j) : j.Valid := by
  unfold nonNegative at hj
  split at hj
  · cases hj
    rename_i hpos
    simp only [valid_iff, toInt_max, max_le_iff]
    exact ⟨valid_iff.1 h, Int64.le_iff_toInt_le.1 hpos⟩
  · cases hj

theorem Valid.of_mem_signs (hj : j ∈ i.signs) : j.Valid := by
  simp only [signs, List.mem_append, Option.mem_toList] at hj
  exact hj.elim h.of_negative h.of_nonNegative

theorem Valid.of_positive (hj : i.positive = some j) : j.Valid := by
  simp only [positive, Option.bind_eq_some_iff] at hj
  obtain ⟨p, hp, hj⟩ := hj
  split at hj
  · cases hj
    rename_i hpos
    simp only [valid_iff, toInt_max, max_le_iff]
    exact ⟨valid_iff.1 (h.of_nonNegative hp), Int64.lt_iff_toInt_lt.1 hpos⟩
  · cases hj

theorem Valid.of_mem_divisors (hj : j ∈ i.divisors) : j.Valid := by
  simp only [divisors, List.mem_append, Option.mem_toList] at hj
  exact hj.elim h.of_negative h.of_positive

end

/-- Both bounds of a part have one sign. -/
theorem sign_of_mem_signs (hj : j ∈ i.signs) (h : j.Valid) : j.min.toInt < 0 ↔ j.max.toInt < 0 := by
  have em1 : (-1 : Int64).toInt = -1 := by decide
  have e0 : (0 : Int64).toInt = 0 := by decide
  rw [valid_iff] at h
  simp only [signs, List.mem_append, Option.mem_toList, negative, nonNegative,
    Option.ite_none_right_eq_some, Option.some.injEq] at hj
  obtain ⟨-, rfl⟩ | ⟨-, rfl⟩ := hj
  · simp only [toInt_min] at h ⊢
    omega
  · simp only [toInt_max] at h ⊢
    omega

theorem hasSign_ofInterval (h : i.min.toInt < 0 ↔ i.max.toInt < 0) :
    (BitBounds.ofInterval i).HasSign (decide (i.min.toInt < 0)) := by
  simp only [BitBounds.HasSign, BitBounds.ofInterval, bit_top_toUInt64, h, and_self]

/-! ## Two operands -/

theorem Valid.add (hl : l.Valid) (hr : r.Valid) : (l.add r).Valid := by
  have := valid_iff.1 hl
  have := valid_iff.1 hr
  exact ofIntClamp_mono (by omega)

theorem Valid.sub (hl : l.Valid) (hr : r.Valid) : (l.sub r).Valid := by
  have := valid_iff.1 hl
  have := valid_iff.1 hr
  exact ofIntClamp_mono (by omega)

theorem valid_div (h : l.div r = .ok i) : i.Valid := by
  unfold div at h
  split at h
  · cases h
  · cases h
    exact valid_hull _

theorem Valid.rem (hl : l.Valid) (h : l.rem r = .ok i) : i.Valid := by
  have e0 : (0 : Int64).toInt = 0 := by decide
  simp only [Interval.rem] at h
  by_cases hbound : r.remainderBound < 0
  · simp [hbound] at h
  · rw [if_neg hbound] at h
    cases h
    have hb := Int64.le_iff_toInt_le.1 (Int64.not_lt.1 hbound)
    have hneg := toInt_neg_of_nonneg hb
    have hv := valid_iff.1 hl
    simp only [valid_iff, Int64.le_iff_toInt_le, Int64.lt_iff_toInt_lt] at *
    split <;> split <;> simp only [toInt_min, toInt_max, hneg, e0] at * <;> omega

theorem Valid.shiftLeft (hl : l.Valid) (hr : r.Valid) : (l.shiftLeft r).Valid := by
  unfold Interval.shiftLeft
  split
  · rename_i hbits
    rw [areBits_iff] at hbits
    rw [valid_iff] at hl hr
    -- the bounds lie around what the least amount makes of the bounds
    have hmid : l.min.toInt * 2 ^ r.min.toInt.toNat ≤ l.max.toInt * 2 ^ r.min.toInt.toNat :=
      Int.mul_le_mul_of_nonneg_right hl (by positivity)
    dsimp only [Valid]
    rw [Saturating.shiftLeft_eq_ofIntClamp (by split <;> omega),
      Saturating.shiftLeft_eq_ofIntClamp (by split <;> omega)]
    refine ofIntClamp_mono (Int.le_trans (Int.le_trans ?_ hmid) ?_)
    · by_cases hsign : l.min < 0
      · rw [if_pos hsign]
        exact (mul_pow_le hr).1 (Int64.lt_iff_toInt_lt.1 hsign)
      · rw [if_neg hsign]
    · by_cases hsign : l.max < 0
      · rw [if_pos hsign]
      · rw [if_neg hsign]
        exact (mul_pow_le hr).2 (Int64.le_iff_toInt_le.1 (Int64.not_lt.1 hsign))
  · exact valid_full

theorem Valid.shiftRight (hl : l.Valid) (hr : r.Valid) : (l.shiftRight r).Valid := by
  -- amounts that name no bit stand for all the amounts
  have hbits : ∃ m : Interval, m.Valid ∧ m.areBits = true ∧ l.shiftRight r = l.shiftRight m := by
    by_cases hb : r.areBits = true
    · exact ⟨r, hr, hb, rfl⟩
    · exact ⟨⟨0, 63⟩, by decide, by decide, by simp [Interval.shiftRight, hb]⟩
  obtain ⟨m, hm, hb, heq⟩ := hbits
  rw [areBits_iff] at hb
  rw [valid_iff] at hm
  have hbit : 0 ≤ m.min.toInt ∧ m.min.toInt ≤ 63 := by omega
  rw [heq]
  exact (shiftRight_mem hl.mem_min (Valid.mem_min (valid_iff.2 hm)) hbit
    (toInt_shiftRight hbit)).valid

/-! ## Bitwise operators -/

/-- The bounds of bit patterns of one sign go back to an interval that holds a word. -/
theorem Valid.of_mem_bitwiseParts {op : BitBounds → BitBounds → BitBounds}
    {f : UInt64 → UInt64 → UInt64} {g : Bool → Bool → Bool} (hop : BoundsBits op f g) (hl : l.Valid)
    (hr : r.Valid) (hi : i ∈ bitwiseParts op l r) : i.Valid := by
  simp only [bitwiseParts, List.mem_flatMap, List.mem_map] at hi
  obtain ⟨x, hx, y, hy, rfl⟩ := hi
  have hbounds : ∀ {j k : Interval}, j.Valid → k ∈ j.signs →
      (BitBounds.ofInterval k).HasSign (decide (k.min.toInt < 0)) ∧
        (BitBounds.ofInterval k).Mem k.min.toUInt64 := by
    intro j k hj hk
    have hsign := sign_of_mem_signs hk (hj.of_mem_signs hk)
    exact ⟨hasSign_ofInterval hsign, UInt64.le_refl _,
      (toUInt64_le_iff hsign).2 (hj.of_mem_signs hk)⟩
  obtain ⟨hxs, hxm⟩ := hbounds hl hx
  obtain ⟨hys, hym⟩ := hbounds hr hy
  obtain ⟨hm, hs⟩ := hop hxs hys hxm hym
  rw [← UInt64.toUInt64_toInt64 (f _ _)] at hm
  exact (toInterval_mem hs hm).valid

/-! ## All operators -/

theorem Valid.bound {op : IntOp} (hl : l.Valid) (hr : r.Valid) (h : bound op l r = .ok i) :
    i.Valid := by
  -- a bitwise operator has a value on any two words
  have hbits : ∀ v, op.eval l.min r.min = some v → i.Valid := by
    intro v hv
    obtain ⟨i', hi', hmem⟩ := bound_mem hl.mem_min hr.mem_min hv
    cases h.symm.trans hi'
    exact hmem.valid
  cases op with
  | add => cases h; exact hl.add hr
  | sub => cases h; exact hl.sub hr
  | mul => cases h; exact valid_hull _
  | div => exact valid_div h
  | mod => exact hl.rem h
  | and | or | xor => exact hbits _ rfl
  | shiftLeft => cases h; exact hl.shiftLeft hr
  | shiftRight => cases h; exact hl.shiftRight hr

theorem Valid.apply {op : IntOp} (hl : l.Valid) (hr : r.Valid) (h : apply op l r = .ok i) :
    i.Valid := by
  unfold Interval.apply at h
  split at h
  · cases h
    exact valid_point _
  · exact hl.bound hr h

end Ci.Interval
