-- Interval arithmetic is monotone. Wider operands have bounds wherever narrower ones
-- have, and the bounds are wider. Where bounds are best possible, there are simply
-- more results to hold. Remainders and bits are looked at on their own.
import Ci.Proofs.Interval.Tightness

namespace Ci.BitBounds

variable {b b' l l' r r' : BitBounds} {u v w x y z : UInt64} {i : Nat} {parts : List Interval}

/-! ## Words -/

theorem min_le_word : min x y ≤ x ∧ min x y ≤ y := by
  simp only [min]
  split
  · exact ⟨UInt64.le_refl x, ‹_›⟩
  · exact ⟨UInt64.le_of_lt (UInt64.not_le.1 ‹_›), UInt64.le_refl y⟩

theorem le_max_word : x ≤ max x y ∧ y ≤ max x y := by
  simp only [max]
  split
  · exact ⟨‹_›, UInt64.le_refl y⟩
  · exact ⟨UInt64.le_refl x, UInt64.le_of_lt (UInt64.not_le.1 ‹_›)⟩

/-! ## The bound of a disjunction is reached -/

/-- One operand gives up its highest bit in common with the other one, and takes all the bits
below it. -/
def traded (u w : UInt64) : UInt64 :=
  (u &&& ~~~smear (u &&& w)) ||| (smear (u &&& w) >>> 1)

theorem bit_traded (u w : UInt64) (i : Nat) : bit (traded u w) i =
    ((bit u i && !bit (smear (u &&& w)) i) || bit (smear (u &&& w)) (i + 1)) := by
  have hshift : bit (smear (u &&& w) >>> 1) i = bit (smear (u &&& w)) (i + 1) := by
    unfold bit
    rw [UInt64.toNat_shiftRight, Nat.testBit_shiftRight, Nat.add_comm]
    rfl
  rw [traded, bit_or, bit_and, bit_not, hshift]
  cases hu : bit u i with
  | false => simp
  | true => simp [lt_of_bit hu]

theorem traded_le (u w : UInt64) : traded u w ≤ u := by
  by_contra hlt
  obtain ⟨i, hui, hti, habove⟩ := exists_bit_of_lt (UInt64.not_le.1 hlt)
  rw [bit_traded, hui, Bool.false_and, Bool.false_or] at hti
  obtain ⟨k, hk, hcommon⟩ := (bit_smear _ _).1 hti
  -- the highest bit in common is above, and there the operands differ after all
  obtain ⟨j, hj, htop⟩ := exists_top_bit (v := u &&& w) (by rintro h0; simp [h0, bit] at hcommon)
  have hij : i < j := by
    by_contra hle
    rw [htop k (by omega)] at hcommon
    cases hcommon
  have hnone : bit (smear (u &&& w)) (j + 1) = false := by
    by_contra hset
    obtain ⟨m, hm, hbit⟩ := (bit_smear _ _).1 (Bool.not_eq_false _ ▸ hset)
    rw [htop m (by omega)] at hbit
    cases hbit
  have hsame := habove j hij
  rw [bit_traded, (bit_smear _ j).2 ⟨j, le_refl j, hj⟩, hnone] at hsame
  rw [bit_and, Bool.and_eq_true] at hj
  simp [hj.1] at hsame

theorem traded_or (u w : UInt64) : traded u w ||| w = u ||| w ||| smear (u &&& w) := by
  refine eq_of_bit fun i => ?_
  rw [bit_or, bit_traded, bit_or, bit_or]
  cases hset : bit (smear (u &&& w)) i with
  | false =>
    have hnext : bit (smear (u &&& w)) (i + 1) = false := by
      by_contra hnext
      obtain ⟨j, hj, hbit⟩ := (bit_smear _ _).1 (Bool.not_eq_false _ ▸ hnext)
      rw [(bit_smear _ i).2 ⟨j, by omega, hbit⟩] at hset
      cases hset
    simp [hnext]
  | true =>
    cases hnext : bit (smear (u &&& w)) (i + 1) with
    | true => simp
    | false =>
      -- this is the highest bit in common, and the other operand keeps it
      obtain ⟨j, hj, hbit⟩ := (bit_smear _ _).1 hset
      obtain rfl : j = i := by
        by_contra hne
        rw [(bit_smear _ (i + 1)).2 ⟨j, by omega, hbit⟩] at hnext
        cases hnext
      rw [bit_and, Bool.and_eq_true] at hbit
      simp [hbit.2]

/-- The upper bound of a disjunction is the disjunction of two words below the upper bounds. -/
theorem exists_or_eq (u w : UInt64) :
    ∃ x y, x ≤ u ∧ y ≤ w ∧ x ||| y = u ||| w ||| smear (u &&& w) :=
  ⟨traded u w, w, traded_le u w, UInt64.le_refl w, traded_or u w⟩

/-- The upper bound of a disjunction is the greatest disjunction of two words below the upper
bounds. -/
theorem unsignedOr_hi_greatest (l r : BitBounds) :
    (∃ x y, x ≤ l.hi ∧ y ≤ r.hi ∧ x ||| y = (unsignedOr l r).hi) ∧
      ∀ x y, x ≤ l.hi → y ≤ r.hi → x ||| y ≤ (unsignedOr l r).hi :=
  ⟨exists_or_eq l.hi r.hi, fun _ _ => or_le_smear⟩

/-! ## Wider bounds -/

/-- The bounds hold a word, and they lie inside other bounds. -/
structure Within (b b' : BitBounds) : Prop where
  low : b'.lo ≤ b.lo
  valid : b.lo ≤ b.hi
  high : b.hi ≤ b'.hi

/-- The bounds on the left lie inside those on the right. -/
def Widens (b b' : BitBounds) : Prop := b'.lo ≤ b.lo ∧ b.hi ≤ b'.hi

namespace Within

theorem mem_lo (h : b.Within b') : b'.Mem b.lo := ⟨h.low, UInt64.le_trans h.valid h.high⟩

theorem mem_hi (h : b.Within b') : b'.Mem b.hi := ⟨UInt64.le_trans h.low h.valid, h.high⟩

/-- A bit that cannot change between wider bounds cannot change at all. -/
theorem fixed (h : b.Within b') (hf : bit b'.variableBits i = false) :
    bit b.variableBits i = false := by
  by_contra hset
  obtain ⟨j, hj, hbit⟩ := (bit_smear _ _).1 (Bool.not_eq_false _ ▸ hset)
  have hends := shiftRight_eq_of_fixed hf
  have hlow := shiftRight_le h.low i
  have hmid := shiftRight_le h.valid i
  have hhigh := shiftRight_le h.high i
  have heq : bit b.lo j = bit b.hi j := bit_eq_of_shiftRight_eq (k := i) (by omega) hj
  simp [bit_xor, heq] at hbit

theorem lo_fixed (h : b.Within b') (hb : bit (b'.lo &&& ~~~b'.variableBits) i = true) :
    bit (b.lo &&& ~~~b.variableBits) i = true := by
  simp only [bit_and, bit_not, Bool.and_eq_true, Bool.not_eq_true'] at hb ⊢
  exact ⟨by rw [bit_eq_lo h.mem_lo hb.2.2]; exact hb.1, hb.2.1, h.fixed hb.2.2⟩

theorem hi_or_variable (h : b.Within b') (hb : bit (b.hi ||| b.variableBits) i = true) :
    bit (b'.hi ||| b'.variableBits) i = true := by
  rw [bit_or] at hb ⊢
  cases hv : bit b'.variableBits i with
  | true => simp
  | false =>
    rw [h.fixed hv, Bool.or_false] at hb
    rw [← bit_eq_hi h.mem_hi hv, hb]
    rfl

end Within

theorem unsignedAnd_widens (hl : l.Within l') (hr : r.Within r') :
    (unsignedAnd l r).Widens (unsignedAnd l' r') := by
  constructor
  · refine le_of_bit fun i h => ?_
    simp only [unsignedAnd] at h ⊢
    rw [bit_and, Bool.and_eq_true] at h ⊢
    exact ⟨hl.lo_fixed h.1, hr.lo_fixed h.2⟩
  · refine le_min_word (le_min_word ?_ ?_) ?_
    · refine UInt64.le_trans (UInt64.le_trans min_le_word.1 min_le_word.1) (le_of_bit fun i h => ?_)
      rw [bit_and, Bool.and_eq_true] at h ⊢
      exact ⟨hl.hi_or_variable h.1, hr.hi_or_variable h.2⟩
    · exact UInt64.le_trans (UInt64.le_trans min_le_word.1 min_le_word.2) hl.high
    · exact UInt64.le_trans min_le_word.2 hr.high

theorem unsignedOr_widens (hl : l.Within l') (hr : r.Within r') :
    (unsignedOr l r).Widens (unsignedOr l' r') := by
  constructor
  · refine max_le_word (max_le_word ?_ ?_) ?_
    · refine UInt64.le_trans (le_of_bit fun i h => ?_) (UInt64.le_trans le_max_word.1 le_max_word.1)
      rw [bit_or, Bool.or_eq_true] at h ⊢
      exact h.imp hl.lo_fixed hr.lo_fixed
    · exact UInt64.le_trans hl.low (UInt64.le_trans le_max_word.2 le_max_word.1)
    · exact UInt64.le_trans hr.low le_max_word.2
  · -- the narrower bound is reached, so it is a result that the wider bound holds
    obtain ⟨x, y, hx, hy, heq⟩ := exists_or_eq l.hi r.hi
    show l.hi ||| r.hi ||| smear (l.hi &&& r.hi) ≤ _
    rw [← heq]
    exact or_le_smear (UInt64.le_trans hx hl.high) (UInt64.le_trans hy hr.high)

theorem unsignedXor_widens (hl : l.Within l') (hr : r.Within r') :
    (unsignedXor l r).Widens (unsignedXor l' r') := by
  constructor
  · refine le_of_bit fun i h => ?_
    simp only [unsignedXor, bit_and, bit_not, bit_or, bit_xor, Bool.and_eq_true,
      Bool.not_eq_true', Bool.or_eq_false_iff] at h ⊢
    rw [bit_eq_lo hl.mem_lo h.2.2.1, bit_eq_lo hr.mem_lo h.2.2.2]
    exact ⟨h.1, h.2.1, hl.fixed h.2.2.1, hr.fixed h.2.2.2⟩
  · refine le_of_bit fun i h => ?_
    simp only [unsignedXor, bit_or, bit_xor] at h ⊢
    cases hlv : bit l'.variableBits i with
    | true => simp
    | false =>
      cases hrv : bit r'.variableBits i with
      | true => simp
      | false =>
        rw [hl.fixed hlv, hr.fixed hrv, bit_eq_hi hl.mem_hi hlv, bit_eq_hi hr.mem_hi hrv] at h
        simpa using h

end Ci.BitBounds

namespace Ci.Interval

open BitBounds

variable {i j p q l l' r r' : Interval} {op : BitBounds → BitBounds → BitBounds}

theorem Valid.of_contains (h : i.Valid) (hc : j.contains i = true) : j.Valid := by
  rw [valid_iff] at h ⊢
  rw [contains_iff] at hc
  omega

theorem Mem.of_contains {v : Int64} (h : i.Mem v) (hc : j.contains i = true) : j.Mem v := by
  rw [mem_iff] at h ⊢
  rw [contains_iff] at hc
  omega

theorem words_subset (hc : j.contains i = true) : i.words ⊆ j.words := fun _ h => h.of_contains hc

theorem results_subset {f : Int → Int → Int} {R R' : Set Int64} (hc : l'.contains l = true)
    (hR : R ⊆ R') : results f l R ⊆ results f l' R' := by
  rintro _ ⟨a, b, ha, hb, rfl⟩
  exact ⟨a, b, ha.of_contains hc, hR hb, rfl⟩

/-! ## Bits -/

/-- Each part of one sign lies in a part of that sign of a wider interval. -/
theorem exists_sign_around (hl : l.Valid) (hc : l'.contains l = true) (hp : p ∈ l.signs) :
    ∃ p' ∈ l'.signs, ∃ s, (ofInterval p).HasSign s ∧ (ofInterval p').HasSign s ∧
      (ofInterval p).Within (ofInterval p') := by
  have em1 : (-1 : Int64).toInt = -1 := by decide
  have e0 : (0 : Int64).toInt = 0 := by decide
  have hpv := valid_iff.1 (hl.of_mem_signs hp)
  have hps := sign_of_mem_signs hp (hl.of_mem_signs hp)
  rw [contains_iff] at hc
  -- it is enough to find a part that is wider and has the same sign
  suffices h : ∃ p' ∈ l'.signs, p'.contains p = true ∧
      (p'.min.toInt < 0 ↔ p.min.toInt < 0) ∧ (p'.max.toInt < 0 ↔ p.min.toInt < 0) by
    obtain ⟨p', hp', hcp, hmin, hmax⟩ := h
    have hs : (ofInterval p').HasSign (decide (p.min.toInt < 0)) := by
      have := hasSign_ofInterval (hmin.trans hmax.symm)
      rwa [decide_eq_decide.2 hmin] at this
    rw [contains_iff] at hcp
    refine ⟨p', hp', _, hasSign_ofInterval hps, hs, ?_, ?_, ?_⟩
    · exact (toUInt64_le_iff hmin).2 (Int64.le_iff_toInt_le.2 hcp.1)
    · exact (toUInt64_le_iff hps).2 (Int64.le_iff_toInt_le.2 hpv)
    · exact (toUInt64_le_iff (hps.symm.trans hmax.symm)).2 (Int64.le_iff_toInt_le.2 hcp.2)
  simp only [signs, List.mem_append, Option.mem_toList, negative, nonNegative,
    Option.ite_none_right_eq_some, Option.some.injEq] at hp ⊢
  rw [valid_iff] at hl
  obtain ⟨hneg, rfl⟩ | ⟨hpos, rfl⟩ := hp
  · have hlt := Int64.lt_iff_toInt_lt.1 hneg
    refine ⟨_, .inl ⟨Int64.lt_iff_toInt_lt.2 (by omega), rfl⟩, ?_⟩
    simp only [contains_iff, toInt_min]
    omega
  · have hle := Int64.le_iff_toInt_le.1 hpos
    refine ⟨_, .inr ⟨Int64.le_iff_toInt_le.2 (by omega), rfl⟩, ?_⟩
    simp only [contains_iff, toInt_max]
    omega

/-- Bounds of one sign that are wider as patterns are wider as signed words. -/
theorem contains_toInterval {b : BitBounds} {s : Bool} (hs : b.HasSign s) (hs' : b'.HasSign s)
    (h : b.Widens b') : b'.toInterval.contains b.toInterval = true := by
  have hle : ∀ {v w : UInt64}, bit v 63 = s → bit w 63 = s → v ≤ w → v.toInt64 ≤ w.toInt64 := by
    intro v w hv hw hvw
    have hsign : v.toInt64.toInt < 0 ↔ w.toInt64.toInt < 0 := by
      rw [← hw, ← UInt64.toUInt64_toInt64 v, ← UInt64.toUInt64_toInt64 w, bit_top_toUInt64,
        bit_top_toUInt64, decide_eq_decide] at hv
      simpa using hv
    exact (toUInt64_le_iff hsign).1 (by simpa using hvw)
  rw [contains_iff, ← Int64.le_iff_toInt_le, ← Int64.le_iff_toInt_le]
  exact ⟨hle hs'.1 hs.1 h.1, hle hs.2 hs'.2 h.2⟩

/-- The bounds of a union are bounds of its members. -/
theorem unionAll_ends (h : parts ≠ []) :
    (∃ i ∈ parts, (unionAll parts).min = i.min) ∧ ∃ i ∈ parts, (unionAll parts).max = i.max := by
  cases parts with
  | nil => exact absurd rfl h
  | cons i rest =>
    clear h
    induction rest generalizing i with
    | nil => exact ⟨⟨i, by simp, rfl⟩, ⟨i, by simp, rfl⟩⟩
    | cons j _ ih =>
      -- the first two members stand for one
      obtain ⟨⟨a, ha, hmin⟩, ⟨b, hb, hmax⟩⟩ := ih (i.union j)
      have hpick : (i.union j).min = i.min ∨ (i.union j).min = j.min := by
        simp only [union, Min.min]
        split <;> simp
      have hpick' : (i.union j).max = i.max ∨ (i.union j).max = j.max := by
        simp only [union, Max.max]
        split <;> simp
      refine ⟨?_, ?_⟩
      · rcases List.mem_cons.1 ha with rfl | ha
        · rcases hpick with hu | hu
          · exact ⟨i, by simp, hmin.trans hu⟩
          · exact ⟨j, by simp, hmin.trans hu⟩
        · exact ⟨a, by simp [ha], hmin⟩
      · rcases List.mem_cons.1 hb with rfl | hb
        · rcases hpick' with hu | hu
          · exact ⟨i, by simp, hmax.trans hu⟩
          · exact ⟨j, by simp, hmax.trans hu⟩
        · exact ⟨b, by simp [hb], hmax⟩

theorem contains_unionAll {parts' : List Interval} (hne : parts ≠ [])
    (hv : ∀ i ∈ parts, i.Valid) (h : ∀ i ∈ parts, ∃ j ∈ parts', j.contains i = true) :
    (unionAll parts').contains (unionAll parts) = true := by
  have hmem : ∀ i ∈ parts, ∀ v, i.Mem v → (unionAll parts').Mem v := by
    intro i hi v hv
    obtain ⟨j, hj, hc⟩ := h i hi
    exact mem_unionAll hj (hv.of_contains hc)
  obtain ⟨⟨i, hi, hmin⟩, ⟨j, hj, hmax⟩⟩ := unionAll_ends hne
  rw [contains_iff, hmin, hmax]
  exact ⟨(mem_iff.1 (hmem i hi _ (hv i hi).mem_min)).1,
    (mem_iff.1 (hmem j hj _ (hv j hj).mem_max)).2⟩

/-- Bitwise operators are monotone, if their bounds on patterns of one sign are. -/
theorem contains_bitwise {f : UInt64 → UInt64 → UInt64} {g : Bool → Bool → Bool}
    (hop : BoundsBits op f g)
    (hw : ∀ {l l' r r' : BitBounds}, l.Within l' → r.Within r' → (op l r).Widens (op l' r'))
    (hl : l.Valid) (hr : r.Valid) (hll : l'.contains l = true) (hrr : r'.contains r = true) :
    (bitwise op l' r').contains (bitwise op l r) = true := by
  refine contains_unionAll ?_ (fun i hi => hl.of_mem_bitwiseParts hop hr hi) fun i hi => ?_
  · obtain ⟨p, hp, -⟩ := exists_signs hl.mem_min
    obtain ⟨q, hq, -⟩ := exists_signs hr.mem_min
    exact List.ne_nil_of_mem (List.mem_flatMap.2 ⟨p, hp, List.mem_map.2 ⟨q, hq, rfl⟩⟩)
  · simp only [bitwiseParts, List.mem_flatMap, List.mem_map] at hi ⊢
    obtain ⟨p, hp, q, hq, rfl⟩ := hi
    obtain ⟨p', hp', s, hps, hps', hpp⟩ := exists_sign_around hl hll hp
    obtain ⟨q', hq', t, hqt, hqt', hqq⟩ := exists_sign_around hr hrr hq
    refine ⟨_, ⟨p', hp', q', hq', rfl⟩, contains_toInterval (s := g s t) ?_ ?_ (hw hpp hqq)⟩
    · exact (hop hps hqt ⟨UInt64.le_refl _, hpp.valid⟩ ⟨UInt64.le_refl _, hqq.valid⟩).2
    · exact (hop hps' hqt' hpp.mem_lo hqq.mem_lo).2

/-! ## Remainders -/

theorem remainderBound_mono (hc : r'.contains r = true) :
    r.remainderBound.toInt ≤ r'.remainderBound.toInt := by
  rw [contains_iff] at hc
  have hneg : (Saturating.neg r'.max).toInt ≤ (Saturating.neg r.max).toInt :=
    Int64.le_iff_toInt_le.1 (ofIntClamp_mono (by omega))
  simp only [remainderBound, toInt_complement, toInt_min]
  omega

theorem contains_rem (hll : l'.contains l = true) (hrr : r'.contains r = true)
    (h : l.rem r = .ok i) : ∃ i', l'.rem r' = .ok i' ∧ i'.contains i = true := by
  have hbound := remainderBound_mono hrr
  simp only [rem] at h ⊢
  by_cases hneg : r.remainderBound < 0
  · simp [hneg] at h
  · rw [if_neg hneg] at h
    cases h
    have hnn := Int64.le_iff_toInt_le.1 (Int64.not_lt.1 hneg)
    rw [Int64.toInt_zero] at hnn
    have hnn' : ¬ r'.remainderBound < 0 := by
      rw [Int64.lt_iff_toInt_lt, Int64.toInt_zero]
      omega
    have hopp := toInt_neg_of_nonneg hnn
    have hopp' := toInt_neg_of_nonneg (a := r'.remainderBound) (by omega)
    rw [if_neg hnn']
    refine ⟨_, rfl, ?_⟩
    rw [contains_iff] at hll ⊢
    simp only [Int64.le_iff_toInt_le, Int64.lt_iff_toInt_lt, Int64.toInt_zero] at *
    constructor
    · split <;> split <;> simp only [toInt_max, hopp, hopp', Int64.toInt_zero, le_refl] <;> omega
    · split <;> split <;> simp only [toInt_min, Int64.toInt_zero, le_refl] <;> omega

/-! ## Shifts -/

theorem full_contains (i : Interval) : full.contains i = true :=
  contains_iff.2 ⟨toInt_lower _, toInt_upper _⟩

/-- Wider amounts name bits only if the narrower ones do. -/
theorem areBits_of_contains (hc : r'.contains r = true) (h : r'.areBits = true) :
    r.areBits = true := by
  rw [areBits_iff] at h ⊢
  rw [contains_iff] at hc
  omega

theorem contains_shiftLeft (hl : l.Valid) (hr : r.Valid) (hll : l'.contains l = true)
    (hrr : r'.contains r = true) : (l'.shiftLeft r').contains (l.shiftLeft r) = true := by
  by_cases hbits : r'.areBits = true
  · have hnarrow := isHull_shiftLeft hl hr (areBits_of_contains hrr hbits)
    have hwide := isHull_shiftLeft (hl.of_contains hll) (hr.of_contains hrr) hbits
    exact hnarrow.contains hwide (results_subset hll (words_subset hrr))
  · simp only [shiftLeft, hbits]
    exact full_contains _

/-- The amounts of a shift to the right that count. -/
def amounts (r : Interval) : Interval := if r.areBits then r else ⟨0, 63⟩

theorem areBits_amounts (r : Interval) : r.amounts.areBits = true := by
  unfold amounts
  split
  · assumption
  · rfl

theorem Valid.amounts (h : r.Valid) : r.amounts.Valid := by
  unfold Interval.amounts
  split
  · exact h
  · decide

theorem shiftRight_amounts (l r : Interval) : l.shiftRight r.amounts = l.shiftRight r := by
  have heq : (if r.amounts.areBits then r.amounts else ⟨0, 63⟩) = r.amounts :=
    if_pos (areBits_amounts r)
  simp only [shiftRight, heq]
  rfl

theorem contains_amounts (hrr : r'.contains r = true) : r'.amounts.contains r.amounts = true := by
  by_cases hbits : r'.areBits = true
  · rw [amounts, amounts, if_pos hbits, if_pos (areBits_of_contains hrr hbits)]
    exact hrr
  · rw [show r'.amounts = ⟨0, 63⟩ from if_neg hbits]
    exact contains_iff.2 (areBits_iff.1 (areBits_amounts r))

section

variable (hl : l.Valid) (hr : r.Valid) (hll : l'.contains l = true) (hrr : r'.contains r = true)

include hl hr hll hrr

theorem contains_shiftRight : (l'.shiftRight r').contains (l.shiftRight r) = true := by
  rw [← shiftRight_amounts l r, ← shiftRight_amounts l' r']
  have hnarrow := isHull_shiftRight hl hr.amounts (areBits_amounts r)
  have hwide := isHull_shiftRight (hl.of_contains hll) (hr.of_contains hrr).amounts
    (areBits_amounts r')
  exact hnarrow.contains hwide (results_subset hll (words_subset (contains_amounts hrr)))

/-! ## All operators -/

theorem contains_div (h : l.div r = .ok i) : ∃ i', l'.div r' = .ok i' ∧ i'.contains i = true := by
  have hzero : r ≠ point 0 := by
    rintro rfl
    rw [div_point_zero] at h
    cases h
  have hzero' : r' ≠ point 0 := by
    rintro rfl
    obtain ⟨b, hb, h0⟩ := exists_divisor hr hzero
    have hmem := hb.of_contains hrr
    exact h0 (asPoint_eq_some (i := point 0) rfl hmem)
  obtain ⟨j, hj, hnarrow⟩ := isHull_div hl hr hzero
  obtain ⟨j', hj', hwide⟩ := isHull_div (hl.of_contains hll) (hr.of_contains hrr) hzero'
  cases hj.symm.trans h
  refine ⟨j', hj', hnarrow.contains hwide (results_subset hll ?_)⟩
  exact Set.sdiff_subset_sdiff_left (words_subset hrr)

theorem contains_bound {o : IntOp} (h : bound o l r = .ok i) :
    ∃ i', bound o l' r' = .ok i' ∧ i'.contains i = true := by
  have hl' := hl.of_contains hll
  have hr' := hr.of_contains hrr
  have hsub := words_subset hrr
  cases o with
  | add =>
    cases h
    exact ⟨_, rfl, (isHull_add hl hr).contains (isHull_add hl' hr') (results_subset hll hsub)⟩
  | sub =>
    cases h
    exact ⟨_, rfl, (isHull_sub hl hr).contains (isHull_sub hl' hr') (results_subset hll hsub)⟩
  | mul =>
    cases h
    exact ⟨_, rfl, (isHull_mul hl hr).contains (isHull_mul hl' hr') (results_subset hll hsub)⟩
  | div => exact contains_div hl hr hll hrr h
  | mod => exact contains_rem hll hrr h
  | and =>
    cases h
    exact ⟨_, rfl, contains_bitwise boundsBits_and unsignedAnd_widens hl hr hll hrr⟩
  | or =>
    cases h
    exact ⟨_, rfl, contains_bitwise boundsBits_or unsignedOr_widens hl hr hll hrr⟩
  | xor =>
    cases h
    exact ⟨_, rfl, contains_bitwise boundsBits_xor unsignedXor_widens hl hr hll hrr⟩
  | shiftLeft =>
    cases h
    exact ⟨_, rfl, contains_shiftLeft hl hr hll hrr⟩
  | shiftRight =>
    cases h
    exact ⟨_, rfl, contains_shiftRight hl hr hll hrr⟩

end

/-- A collapsed interval that holds a word is contained in no other collapsed one. -/
theorem eq_of_asPoint {a : Int64} (hi : i.Valid) (hc : j.contains i = true)
    (hj : j.asPoint = some a) : i = j := by
  have hmin := asPoint_eq_some hj (hi.mem_min.of_contains hc)
  have hmax := asPoint_eq_some hj (hi.mem_max.of_contains hc)
  have hjv := hi.of_contains hc
  have hmin' := asPoint_eq_some hj hjv.mem_min
  have hmax' := asPoint_eq_some hj hjv.mem_max
  cases i
  cases j
  simp_all

/-- Interval arithmetic is monotone. If operands have bounds, then wider operands have bounds, and
the latter contain the former. The exact values of collapsed operands are no exception. -/
theorem apply_monotone (o : IntOp) (l r l' r' i : Interval) (hl : l.Valid) (hr : r.Valid)
    (hll : l'.contains l = true) (hrr : r'.contains r = true) (h : apply o l r = .ok i) :
    ∃ i', apply o l' r' = .ok i' ∧ i'.contains i = true := by
  cases hexact' : exactPoint o l' r' with
  | some v =>
    -- the wider operands are collapsed, so the narrower ones are the same
    have hpoints := hexact'
    simp only [exactPoint, Option.bind_eq_bind, Option.bind_eq_some_iff] at hpoints
    obtain ⟨a, ha, b, hb, -⟩ := hpoints
    obtain rfl := eq_of_asPoint hl hll ha
    obtain rfl := eq_of_asPoint hr hrr hb
    exact ⟨i, h, by simp [contains]⟩
  | none =>
    simp only [apply, hexact']
    unfold apply at h
    split at h
    · -- an exact value is held by all sound bounds
      rename_i v hv
      cases h
      simp only [exactPoint, Option.bind_eq_bind, Option.bind_eq_some_iff] at hv
      obtain ⟨a, ha, b, hb, hv⟩ := hv
      rw [← asPoint_eq_some ha hl.mem_min, ← asPoint_eq_some hb hr.mem_min] at hv
      obtain ⟨i', hi', hmem⟩ :=
        bound_mem (hl.mem_min.of_contains hll) (hr.mem_min.of_contains hrr) hv
      exact ⟨i', hi', contains_iff.2 (mem_iff.1 hmem)⟩
    · exact contains_bound hl hr hll hrr h

/-- Operands with words of both signs, and wider ones. -/
theorem apply_monotone_or : Valid ⟨-5, 12⟩ ∧ Valid ⟨-3, 4611686018427387904⟩ ∧
    contains ⟨-1099511627776, 20⟩ ⟨-5, 12⟩ = true ∧
    contains ⟨-3, 4611686018427387905⟩ ⟨-3, 4611686018427387904⟩ = true ∧
    ∃ i i', apply .or ⟨-5, 12⟩ ⟨-3, 4611686018427387904⟩ = .ok i ∧
      apply .or ⟨-1099511627776, 20⟩ ⟨-3, 4611686018427387905⟩ = .ok i' ∧ i'.contains i = true := by
  refine ⟨by decide, by decide, by decide, by decide, ⟨-5, 4611686018427387916⟩, ?_⟩
  obtain ⟨i', hi', hc⟩ := apply_monotone .or ⟨-5, 12⟩ ⟨-3, 4611686018427387904⟩
    ⟨-1099511627776, 20⟩ ⟨-3, 4611686018427387905⟩ ⟨-5, 4611686018427387916⟩ (by decide) (by decide)
    (by decide) (by decide) (by decide)
  exact ⟨i', by decide, hi', hc⟩

end Ci.Interval
