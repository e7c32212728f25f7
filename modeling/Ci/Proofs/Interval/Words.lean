-- Words as numbers. Every operation on words that stops at the ends of the
-- domain is the exact operation, followed by one clamp that keeps the order. An
-- exact value is the clamp of itself, so bounds and values meet at the clamp.
import Ci.Number.IntOp
import Mathlib.Tactic

namespace Ci

variable {n : Int} {a b : Int64}

/-! ## The clamp -/

theorem toInt_lower (a : Int64) : Int64.minValue.toInt ≤ a.toInt := a.le_toInt

theorem toInt_upper (a : Int64) : a.toInt ≤ Int64.maxValue.toInt := a.toInt_le

/-- The clamp keeps the order of numbers. -/
theorem ofIntClamp_mono {m : Int} (h : m ≤ n) : Int64.ofIntClamp m ≤ Int64.ofIntClamp n := by
  rw [Int64.le_iff_toInt_le]
  by_cases hn : n ≤ Int64.maxValue.toInt
  · by_cases hm : Int64.minValue.toInt ≤ m
    · rw [Int64.toInt_ofIntClamp hm (by omega), Int64.toInt_ofIntClamp (by omega) hn]
      exact h
    · have hmin : Int64.ofIntClamp m = Int64.minValue := by
        unfold Int64.ofIntClamp
        rw [dif_neg hm]
      rw [hmin]
      exact toInt_lower _
  · have hmax : Int64.ofIntClamp n = Int64.maxValue := by
      have : Int64.minValue.toInt ≤ Int64.maxValue.toInt := by decide
      unfold Int64.ofIntClamp
      rw [dif_pos (by omega), dif_neg hn]
    rw [hmax]
    exact toInt_upper _

/-- A word is at most the clamp of a number that is not below it. -/
theorem le_ofIntClamp (h : a.toInt ≤ n) : a ≤ Int64.ofIntClamp n := by
  rw [← Int64.ofIntClamp_toInt a]
  exact ofIntClamp_mono h

theorem ofIntClamp_le (h : n ≤ a.toInt) : Int64.ofIntClamp n ≤ a := by
  rw [← Int64.ofIntClamp_toInt a]
  exact ofIntClamp_mono h

/-- A word is the clamp of its number. -/
theorem eq_ofIntClamp (h : a.toInt = n) : a = Int64.ofIntClamp n := by
  rw [← h, Int64.ofIntClamp_toInt]

theorem toInt_min (a b : Int64) : (min a b).toInt = min a.toInt b.toInt := by
  simp only [min]
  split <;> rename_i h <;> rw [Int64.le_iff_toInt_le] at h <;> split <;> omega

theorem toInt_max (a b : Int64) : (max a b).toInt = max a.toInt b.toInt := by
  simp only [max]
  split <;> rename_i h <;> rw [Int64.le_iff_toInt_le] at h <;> split <;> omega

/-! ## Exact values -/

namespace IntOp

/-- A number has an exact word only if it is the number of that word. -/
theorem exact_eq_some {v : Int64} (h : exact n = some v) : v.toInt = n := by
  unfold exact at h
  split at h
  · rename_i hn
    cases h
    rw [Int64.toInt_minValue, Int64.toInt_maxValue] at hn
    exact Int64.toInt_ofInt_of_le hn.1 (by omega)
  · cases h

theorem quotient_eq_some {v : Int64} (h : quotient a b = some v) :
    b ≠ 0 ∧ v.toInt = a.toInt.tdiv b.toInt := by
  unfold quotient at h
  split at h
  · cases h
  · rename_i hb
    exact ⟨hb, exact_eq_some h⟩

end IntOp

/-- A remainder by a word is a word. -/
theorem toInt_ofInt_tmod (a b : Int64) :
    (Int64.ofInt (a.toInt.tmod b.toInt)).toInt = a.toInt.tmod b.toInt := by
  rw [← Int64.toInt_mod, Int64.ofInt_toInt]

/-! ## Shift amounts -/

theorem isBit_iff : Saturating.isBit b = true ↔ 0 ≤ b.toInt ∧ b.toInt ≤ 63 := by
  unfold Saturating.isBit
  rw [Bool.and_eq_true, decide_eq_true_iff, decide_eq_true_iff, Int64.le_iff_toInt_le,
    Int64.le_iff_toInt_le]
  rfl

/-- The distance of a shift by an amount that names a bit. -/
theorem smod_of_isBit (h : 0 ≤ b.toInt ∧ b.toInt ≤ 63) :
    (b.toBitVec.smod 64).toNat = b.toInt.toNat := by
  have hb : (b.toBitVec.smod 64).toInt = b.toInt := by
    rw [BitVec.toInt_smod, Int64.toInt_toBitVec]
    have h64 : (64 : BitVec 64).toInt = 64 := by decide
    rw [h64, Int.fmod_eq_emod_of_nonneg _ (by omega), Int.emod_eq_of_lt h.1 (by omega)]
  have hlt := (b.toBitVec.smod 64).isLt
  rw [BitVec.toInt_eq_toNat_cond] at hb
  split at hb <;> omega

/-- A shift to the right is a division by a power of two that goes to the floor. -/
theorem toInt_shiftRight (h : 0 ≤ b.toInt ∧ b.toInt ≤ 63) :
    (a >>> b).toInt = a.toInt / 2 ^ b.toInt.toNat := by
  rw [← Int64.toInt_toBitVec, Int64.toBitVec_shiftRight, BitVec.sshiftRight_eq',
    BitVec.toInt_sshiftRight, smod_of_isBit h, Int.shiftRight_eq_div_pow, Int64.toInt_toBitVec]
  norm_cast

/-- A shift to the left is a product with a power of two, as far as it is a word. -/
theorem toInt_shiftLeft (h : 0 ≤ b.toInt ∧ b.toInt ≤ 63) :
    (a <<< b).toInt = (a.toInt * 2 ^ b.toInt.toNat).bmod (2 ^ 64) := by
  rw [← Int64.toInt_toBitVec, Int64.toBitVec_shiftLeft, BitVec.shiftLeft_eq', smod_of_isBit h,
    BitVec.toInt_shiftLeft, Nat.shiftLeft_eq, Nat.cast_mul, ← Int64.toInt_toBitVec a,
    BitVec.toInt_eq_toNat_bmod, Int.bmod_mul_bmod]
  norm_cast

/-- A power of two up to that of a shift divides whatever a shift to the left leaves. -/
theorem pow_dvd_bmod (n : Int) {k : Nat} (h : k ≤ 64) :
    (2 : Int) ^ k ∣ (n * 2 ^ k).bmod (2 ^ 64) := by
  have hsum := Int.bmod_add_bdiv (n * 2 ^ k) (2 ^ 64)
  have h64 : (2 : Int) ^ k ∣ ((2 ^ 64 : Nat) : Int) := by
    push_cast
    exact pow_dvd_pow 2 h
  have heq : (n * 2 ^ k).bmod (2 ^ 64)
      = n * 2 ^ k - ((2 ^ 64 : Nat) : Int) * (n * 2 ^ k).bdiv (2 ^ 64) := by omega
  rw [heq]
  exact dvd_sub (dvd_mul_left _ _) (dvd_mul_of_dvd_left h64 _)

/-- A shift to the left that can be undone has lost no bit. -/
theorem toInt_shiftLeft_of_undone (h : 0 ≤ b.toInt ∧ b.toInt ≤ 63)
    (hback : (a <<< b) >>> b = a) : (a <<< b).toInt = a.toInt * 2 ^ b.toInt.toNat := by
  have hdvd : (2 : Int) ^ b.toInt.toNat ∣ (a <<< b).toInt := by
    rw [toInt_shiftLeft h]
    exact pow_dvd_bmod _ (by omega)
  have hquot := toInt_shiftRight (a := a <<< b) h
  rw [hback] at hquot
  rw [hquot, Int.ediv_mul_cancel hdvd]

/-- A shift to the left loses no bit where the product is a word. -/
theorem toInt_shiftLeft_of_fits (h : 0 ≤ b.toInt ∧ b.toInt ≤ 63)
    (hmin : Int64.minValue.toInt ≤ a.toInt * 2 ^ b.toInt.toNat)
    (hmax : a.toInt * 2 ^ b.toInt.toNat ≤ Int64.maxValue.toInt) :
    (a <<< b).toInt = a.toInt * 2 ^ b.toInt.toNat := by
  rw [Int64.toInt_minValue] at hmin
  rw [Int64.toInt_maxValue] at hmax
  rw [toInt_shiftLeft h]
  exact Int.bmod_eq_of_le (by push_cast; omega) (by push_cast; omega)

/-- A shift to the left can be undone exactly where the product is a word. -/
theorem shiftLeft_undone_iff (h : 0 ≤ b.toInt ∧ b.toInt ≤ 63) :
    (a <<< b) >>> b = a ↔ Int64.minValue.toInt ≤ a.toInt * 2 ^ b.toInt.toNat ∧
      a.toInt * 2 ^ b.toInt.toNat ≤ Int64.maxValue.toInt := by
  constructor
  · intro hback
    rw [← toInt_shiftLeft_of_undone h hback]
    exact ⟨toInt_lower _, toInt_upper _⟩
  · rintro ⟨hmin, hmax⟩
    apply Int64.toInt.inj
    rw [toInt_shiftRight h, toInt_shiftLeft_of_fits h hmin hmax]
    exact Int.mul_ediv_cancel _ (by positivity)

namespace Saturating

theorem ofIntClamp_of_above (h : Int64.maxValue.toInt < n) :
    Int64.ofIntClamp n = Int64.maxValue := by
  apply Int64.le_antisymm
  · exact Int64.le_iff_toInt_le.mpr (toInt_upper _)
  · exact le_ofIntClamp (Int.le_of_lt h)

theorem ofIntClamp_of_below (h : n < Int64.minValue.toInt) :
    Int64.ofIntClamp n = Int64.minValue := by
  apply Int64.le_antisymm
  · exact ofIntClamp_le (Int.le_of_lt h)
  · exact Int64.le_iff_toInt_le.mpr (toInt_lower _)

/-- The saturating shift to the left clamps the product with a power of two. -/
theorem shiftLeft_eq_ofIntClamp (h : 0 ≤ b.toInt ∧ b.toInt ≤ 63) :
    shiftLeft a b = Int64.ofIntClamp (a.toInt * 2 ^ b.toInt.toNat) := by
  have hpos : (0 : Int) < 2 ^ b.toInt.toNat := by positivity
  have hdvd : (2 : Int) ^ b.toInt.toNat ∣ Int64.minValue.toInt := by
    rw [Int64.toInt_minValue]
    exact (Int.dvd_neg).mpr (pow_dvd_pow 2 (by omega))
  unfold shiftLeft
  split
  · rename_i hz
    rcases hz with rfl | rfl
    · rw [Int64.toInt_zero, Int.zero_mul]
      rfl
    · rw [Int64.toInt_zero, Int.toNat_zero, pow_zero, Int.mul_one, Int64.ofIntClamp_toInt]
  · rw [isBit_iff.mpr h]
    simp only [Bool.not_true, Bool.false_eq_true, if_false]
    split
    · rename_i hmax
      rw [gt_iff_lt, Int64.lt_iff_toInt_lt, toInt_shiftRight h, Int.ediv_lt_iff_lt_mul hpos] at hmax
      exact (ofIntClamp_of_above hmax).symm
    · rename_i hmax
      rw [gt_iff_lt, Int64.lt_iff_toInt_lt, toInt_shiftRight h, not_lt,
        Int.le_ediv_iff_mul_le hpos] at hmax
      split
      · rename_i hmin
        rw [Int64.lt_iff_toInt_lt, toInt_shiftRight h] at hmin
        have hlt := Int.mul_lt_mul_of_pos_right hmin hpos
        rw [Int.ediv_mul_cancel hdvd] at hlt
        exact (ofIntClamp_of_below hlt).symm
      · rename_i hmin
        rw [Int64.lt_iff_toInt_lt, toInt_shiftRight h, not_lt] at hmin
        have hle := Int.mul_le_mul_of_nonneg_right hmin hpos.le
        rw [Int.ediv_mul_cancel hdvd] at hle
        apply Int64.toInt.inj
        rw [Int64.toInt_ofIntClamp hle hmax, toInt_shiftLeft_of_fits h hle hmax]

/-- The saturating shift to the right goes by at most all the bits. -/
theorem toInt_shiftRight_of_isBit (h : 0 ≤ b.toInt ∧ b.toInt ≤ 63) :
    (shiftRight a b).toInt = a.toInt / 2 ^ b.toInt.toNat := by
  unfold shiftRight
  split
  · exact toInt_shiftRight h
  · rename_i hb
    rw [Int64.le_iff_toInt_le, Int64.lt_iff_toInt_lt] at hb
    have h63 : b = 63 := by
      apply Int64.toInt.inj
      have e63 : (63 : Int64).toInt = 63 := by decide
      have e0 : (0 : Int64).toInt = 0 := by decide
      omega
    subst h63
    exact toInt_shiftRight (by decide)

end Saturating

theorem toInt_ofIntClamp_eq (n : Int) :
    (Int64.ofIntClamp n).toInt = max Int64.minValue.toInt (min Int64.maxValue.toInt n) := by
  have hle : Int64.minValue.toInt ≤ Int64.maxValue.toInt := by decide
  by_cases hmin : n < Int64.minValue.toInt
  · rw [Saturating.ofIntClamp_of_below hmin]
    omega
  · by_cases hmax : Int64.maxValue.toInt < n
    · rw [Saturating.ofIntClamp_of_above hmax]
      omega
    · rw [Int64.toInt_ofIntClamp (by omega) (by omega)]
      omega

/-- The exact shift to the left has only the product with a power of two as its value. -/
theorem IntOp.eval_shiftLeft_eq_some {v : Int64} (h : IntOp.shiftLeft.eval a b = some v) :
    (0 ≤ b.toInt ∧ b.toInt ≤ 63) ∧ v.toInt = a.toInt * 2 ^ b.toInt.toNat := by
  rw [IntOp.eval, Option.ite_none_right_eq_some, Bool.and_eq_true, isBit_iff, beq_iff_eq] at h
  obtain ⟨⟨hb, hback⟩, ⟨⟩⟩ := h
  exact ⟨hb, toInt_shiftLeft_of_undone hb hback⟩

/-- The exact shift to the left has a value exactly where the amount names a bit and the product
with the power of two is a word, and the value is that product. The saturating shift clamps the
product, so the two shifts agree wherever the exact one has a value. -/
theorem IntOp.shiftLeft_agrees (a b : Int64) :
    (IntOp.shiftLeft.eval a b ≠ none ↔ (0 ≤ b.toInt ∧ b.toInt ≤ 63) ∧
      Int64.minValue.toInt ≤ a.toInt * 2 ^ b.toInt.toNat ∧
        a.toInt * 2 ^ b.toInt.toNat ≤ Int64.maxValue.toInt) ∧
    (∀ v, IntOp.shiftLeft.eval a b = some v →
      v.toInt = a.toInt * 2 ^ b.toInt.toNat ∧ Saturating.shiftLeft a b = v) ∧
    (0 ≤ b.toInt ∧ b.toInt ≤ 63 → (Saturating.shiftLeft a b).toInt =
      max Int64.minValue.toInt (min Int64.maxValue.toInt (a.toInt * 2 ^ b.toInt.toNat))) := by
  refine ⟨?_, fun v hv => ?_, fun hb => ?_⟩
  · rw [← and_congr_right fun hb => shiftLeft_undone_iff (a := a) hb, ← isBit_iff, IntOp.eval]
    simp
  · obtain ⟨hb, hv⟩ := IntOp.eval_shiftLeft_eq_some hv
    rw [Saturating.shiftLeft_eq_ofIntClamp hb]
    exact ⟨hv, (eq_ofIntClamp hv).symm⟩
  · rw [Saturating.shiftLeft_eq_ofIntClamp hb, toInt_ofIntClamp_eq]

end Ci
