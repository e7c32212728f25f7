-- Interval arithmetic is sound. If an operator has a value on a word of one
-- interval and a word of another, its bounds hold that value. The bounds are
-- those of the intervals only; collapsed operands are looked at last.
import Ci.Interval.Arithmetic
import Ci.Number.Relation
import Ci.Proofs.Interval.Bits
import Ci.Proofs.Interval.Words

namespace Ci.Interval

variable {i j l r : Interval} {a v b : Int64} {vs : List Int64} {x d m n : Int} {op : IntOp}

theorem mem_iff : i.Mem a ↔ i.min.toInt ≤ a.toInt ∧ a.toInt ≤ i.max.toInt := by
  unfold Mem
  rw [Int64.le_iff_toInt_le, Int64.le_iff_toInt_le]

/-! ## Hulls and unions -/

theorem foldl_min_le (rest : List Int64) (a : Int64) :
    rest.foldl (fun x y => if y < x then y else x) a ≤ a ∧
      ∀ c ∈ rest, rest.foldl (fun x y => if y < x then y else x) a ≤ c := by
  induction rest generalizing a with
  | nil => exact ⟨Int64.le_refl a, by simp⟩
  | cons b _ ih =>
    obtain ⟨hfirst, hrest⟩ := ih (if b < a then b else a)
    have hboth : (if b < a then b else a) ≤ a ∧ (if b < a then b else a) ≤ b := by
      split
      · exact ⟨Int64.le_of_lt ‹_›, Int64.le_refl b⟩
      · exact ⟨Int64.le_refl a, Int64.not_lt.mp ‹_›⟩
    rw [List.foldl_cons]
    refine ⟨Int64.le_trans hfirst hboth.1, ?_⟩
    intro c hc
    rcases List.mem_cons.mp hc with rfl | hc
    · exact Int64.le_trans hfirst hboth.2
    · exact hrest c hc

theorem le_foldl_max (rest : List Int64) (a : Int64) :
    a ≤ rest.foldl (fun x y => if x < y then y else x) a ∧
      ∀ c ∈ rest, c ≤ rest.foldl (fun x y => if x < y then y else x) a := by
  induction rest generalizing a with
  | nil => exact ⟨Int64.le_refl a, by simp⟩
  | cons b _ ih =>
    obtain ⟨hfirst, hrest⟩ := ih (if a < b then b else a)
    have hboth : a ≤ (if a < b then b else a) ∧ b ≤ (if a < b then b else a) := by
      split
      · exact ⟨Int64.le_of_lt ‹_›, Int64.le_refl b⟩
      · exact ⟨Int64.le_refl a, Int64.not_lt.mp ‹_›⟩
    rw [List.foldl_cons]
    refine ⟨Int64.le_trans hboth.1 hfirst, ?_⟩
    intro c hc
    rcases List.mem_cons.mp hc with rfl | hc
    · exact Int64.le_trans hboth.2 hfirst
    · exact hrest c hc

/-- The hull goes from below every word of the list to above every word of it. -/
theorem hull_bounds {c : Int64} (h : c ∈ vs) : (hull vs).min ≤ c ∧ c ≤ (hull vs).max := by
  cases vs with
  | nil => cases h
  | cons a rest =>
    rcases List.mem_cons.mp h with rfl | h
    · exact ⟨(foldl_min_le rest c).1, (le_foldl_max rest c).1⟩
    · exact ⟨(foldl_min_le rest a).2 c h, (le_foldl_max rest a).2 c h⟩

theorem mem_hull (hlow : ∃ c ∈ vs, c ≤ v) (hhigh : ∃ c ∈ vs, v ≤ c) : (hull vs).Mem v := by
  obtain ⟨c, hc, hcv⟩ := hlow
  obtain ⟨d, hd, hvd⟩ := hhigh
  exact ⟨Int64.le_trans (hull_bounds hc).1 hcv, Int64.le_trans hvd (hull_bounds hd).2⟩

theorem mem_union_left (h : i.Mem v) : (i.union j).Mem v := by
  rw [mem_iff] at h ⊢
  rw [union, toInt_min, toInt_max]
  omega

theorem mem_union_right (h : j.Mem v) : (i.union j).Mem v := by
  rw [mem_iff] at h ⊢
  rw [union, toInt_min, toInt_max]
  omega

theorem mem_foldl_union (rest : List Interval) (i : Interval)
    (h : i.Mem v ∨ ∃ j ∈ rest, j.Mem v) : (rest.foldl union i).Mem v := by
  induction rest generalizing i with
  | nil =>
    rcases h with h | ⟨j, hj, _⟩
    · exact h
    · cases hj
  | cons _ _ ih =>
    rw [List.foldl_cons]
    apply ih
    rcases h with h | ⟨k, hk, hv⟩
    · exact Or.inl (mem_union_left h)
    · rcases List.mem_cons.mp hk with rfl | hk
      · exact Or.inl (mem_union_right hv)
      · exact Or.inr ⟨k, hk, hv⟩

/-- The union of a list holds what a member of the list holds. -/
theorem mem_unionAll {parts : List Interval} (hi : i ∈ parts) (hv : i.Mem v) :
    (unionAll parts).Mem v := by
  cases parts with
  | nil => cases hi
  | cons j rest =>
    rcases List.mem_cons.mp hi with rfl | hi
    · exact mem_foldl_union rest i (Or.inl hv)
    · exact mem_foldl_union rest j (Or.inr ⟨i, hi, hv⟩)

/-! ## One operand -/

theorem neg_mem (ha : i.Mem a) (hv : v.toInt = -a.toInt) : i.neg.Mem v := by
  rw [mem_iff] at ha
  exact ⟨ofIntClamp_le (by omega), le_ofIntClamp (by omega)⟩

theorem toInt_complement (a : Int64) : (~~~a).toInt = -a.toInt - 1 := by
  have hlow := toInt_lower a
  have hhigh := toInt_upper a
  rw [Int64.toInt_minValue] at hlow
  rw [Int64.toInt_maxValue] at hhigh
  rw [Int64.toInt_not, Int.bmod_eq_of_le (by push_cast; omega) (by push_cast; omega)]

theorem complement_mem (ha : i.Mem a) : i.complement.Mem (~~~a) := by
  rw [mem_iff] at ha ⊢
  simp only [complement, toInt_complement]
  omega

/-! ## Sums and differences -/

theorem add_mem (ha : l.Mem a) (hb : r.Mem b) :
    (l.add r).Mem (Int64.ofIntClamp (a.toInt + b.toInt)) := by
  rw [mem_iff] at ha hb
  exact ⟨ofIntClamp_mono (by omega), ofIntClamp_mono (by omega)⟩

theorem sub_mem (ha : l.Mem a) (hb : r.Mem b) :
    (l.sub r).Mem (Int64.ofIntClamp (a.toInt - b.toInt)) := by
  rw [mem_iff] at ha hb
  exact ⟨ofIntClamp_mono (by omega), ofIntClamp_mono (by omega)⟩

/-! ## Corners -/

/-- The function goes one way from one end to the other. -/
def OneWay (f : Int → Int) (lo hi : Int) : Prop :=
  MonotoneOn f (Set.Icc lo hi) ∨ AntitoneOn f (Set.Icc lo hi)

/-- A function that goes one way has its extreme values at the ends. -/
theorem OneWay.ends {f : Int → Int} {lo hi a : Int} (h : OneWay f lo hi) (ha : a ∈ Set.Icc lo hi) :
    (∃ x, (x = lo ∨ x = hi) ∧ f x ≤ f a) ∧ ∃ x, (x = lo ∨ x = hi) ∧ f a ≤ f x := by
  have hends : lo ≤ hi := le_trans ha.1 ha.2
  have hlo : lo ∈ Set.Icc lo hi := ⟨le_refl lo, hends⟩
  have hhi : hi ∈ Set.Icc lo hi := ⟨hends, le_refl hi⟩
  rcases h with h | h
  · exact ⟨⟨lo, Or.inl rfl, h hlo ha ha.1⟩, ⟨hi, Or.inr rfl, h ha hhi ha.2⟩⟩
  · exact ⟨⟨hi, Or.inr rfl, h ha hhi ha.2⟩, ⟨lo, Or.inl rfl, h hlo ha ha.1⟩⟩

/-- The clamped values at the four corners of two intervals. -/
def corners (f : Int → Int → Int) (l r : Interval) : List Int64 :=
  [Int64.ofIntClamp (f l.min.toInt r.min.toInt), Int64.ofIntClamp (f l.min.toInt r.max.toInt),
    Int64.ofIntClamp (f l.max.toInt r.min.toInt), Int64.ofIntClamp (f l.max.toInt r.max.toInt)]

theorem mem_corners (f : Int → Int → Int) (l r : Interval) {y : Int}
    (hx : x = l.min.toInt ∨ x = l.max.toInt) (hy : y = r.min.toInt ∨ y = r.max.toInt) :
    Int64.ofIntClamp (f x y) ∈ corners f l r := by
  rcases hx with rfl | rfl <;> rcases hy with rfl | rfl <;> simp [corners]

/-- Where a function of two numbers goes one way in each of them, its values lie between its
values at the corners. -/
theorem corners_around {f : Int → Int → Int} (hfirst : ∀ y, y ∈ Set.Icc r.min.toInt r.max.toInt →
      OneWay (fun x => f x y) l.min.toInt l.max.toInt)
    (hsecond : ∀ x, OneWay (f x) r.min.toInt r.max.toInt) (ha : l.Mem a) (hb : r.Mem b) :
    (∃ c ∈ corners f l r, c ≤ Int64.ofIntClamp (f a.toInt b.toInt)) ∧
      ∃ c ∈ corners f l r, Int64.ofIntClamp (f a.toInt b.toInt) ≤ c := by
  rw [mem_iff] at ha hb
  obtain ⟨⟨x, hx, hxa⟩, ⟨z, hz, haz⟩⟩ := (hfirst b.toInt hb).ends ha
  obtain ⟨y, hy, hyb⟩ := ((hsecond x).ends hb).1
  obtain ⟨w, hw, hbw⟩ := ((hsecond z).ends hb).2
  constructor
  · exact ⟨_, mem_corners f l r hx hy, ofIntClamp_mono (by omega)⟩
  · exact ⟨_, mem_corners f l r hz hw, ofIntClamp_mono (by omega)⟩

/-! ## Products -/

theorem oneWay_mul_left (y lo hi : Int) : OneWay (fun x => x * y) lo hi := by
  rcases Int.le_total 0 y with hy | hy
  · exact Or.inl fun a _ b _ hab => Int.mul_le_mul_of_nonneg_right hab hy
  · exact Or.inr fun a _ b _ hab => Int.mul_le_mul_of_nonpos_right hab hy

theorem oneWay_mul_right (x lo hi : Int) : OneWay (fun y => x * y) lo hi := by
  simp only [Int.mul_comm x]
  exact oneWay_mul_left x lo hi

theorem mul_mem (ha : l.Mem a) (hb : r.Mem b) :
    (l.mul r).Mem (Int64.ofIntClamp (a.toInt * b.toInt)) := by
  have h := corners_around (f := (· * ·)) (fun y _ => oneWay_mul_left y _ _)
    (fun x => oneWay_mul_right x _ _) ha hb
  exact mem_hull h.1 h.2

/-! ## Quotients -/

theorem tdiv_le_tdiv_of_neg {a b : Int} (hd : d < 0) (hab : a ≤ b) : b.tdiv d ≤ a.tdiv d := by
  have h := Int.tdiv_le_tdiv (c := -d) (by omega) hab
  rw [Int.tdiv_neg, Int.tdiv_neg] at h
  omega

/-- A larger divisor of a dividend that is not negative gives a smaller quotient. -/
theorem tdiv_antitone {e : Int} (hx : 0 ≤ x) (hd : 0 < d) (hde : d ≤ e) : x.tdiv e ≤ x.tdiv d := by
  rw [Int.tdiv_eq_ediv_of_nonneg hx, Int.tdiv_eq_ediv_of_nonneg hx, Int.le_ediv_iff_mul_le hd]
  calc x / e * d ≤ x / e * e :=
        Int.mul_le_mul_of_nonneg_left hde (Int.ediv_nonneg hx (by omega))
    _ ≤ x := Int.ediv_mul_le x (by omega)

theorem tdiv_monotone {e : Int} (hx : x ≤ 0) (hd : 0 < d) (hde : d ≤ e) : x.tdiv d ≤ x.tdiv e := by
  have h := tdiv_antitone (x := -x) (by omega) hd hde
  rw [Int.neg_tdiv, Int.neg_tdiv] at h
  omega

theorem oneWay_tdiv_left {y : Int} (hy : y ≠ 0) (lo hi : Int) :
    OneWay (fun x => x.tdiv y) lo hi := by
  rcases Int.lt_or_gt_of_ne hy with hy | hy
  · exact Or.inr fun a _ b _ hab => tdiv_le_tdiv_of_neg hy hab
  · exact Or.inl fun a _ b _ hab => Int.tdiv_le_tdiv hy hab

/-- The quotients of one dividend go one way over divisors of one sign. -/
theorem oneWay_tdiv_right (x : Int) {lo hi : Int} (h : hi < 0 ∨ 0 < lo) :
    OneWay (fun y => x.tdiv y) lo hi := by
  have hflip : ∀ d e : Int, x.tdiv (-e) ≤ x.tdiv (-d) ↔ x.tdiv d ≤ x.tdiv e := by
    intro d e
    rw [Int.tdiv_neg, Int.tdiv_neg]
    omega
  rcases Int.le_total 0 x with hx | hx <;> rcases h with h | h
  · right
    intro d hd e he hde
    simp only [Set.mem_Icc] at hd he
    exact (hflip e d).mp (tdiv_antitone hx (by omega) (by omega))
  · right
    intro d hd e he hde
    simp only [Set.mem_Icc] at hd he
    exact tdiv_antitone hx (by omega) hde
  · left
    intro d hd e he hde
    simp only [Set.mem_Icc] at hd he
    exact (hflip d e).mp (tdiv_monotone hx (by omega) (by omega))
  · left
    intro d hd e he hde
    simp only [Set.mem_Icc] at hd he
    exact tdiv_monotone hx (by omega) hde

/-- Each divisor but zero is in a part of one sign. -/
theorem exists_divisors (hb : r.Mem b) (h0 : b ≠ 0) :
    ∃ d ∈ r.divisors, d.Mem b ∧ (d.max.toInt < 0 ∨ 0 < d.min.toInt) := by
  have hne : b.toInt ≠ 0 := fun h => h0 (Int64.toInt.inj h)
  have e1 : (1 : Int64).toInt = 1 := by decide
  have em1 : (-1 : Int64).toInt = -1 := by decide
  have e0 : (0 : Int64).toInt = 0 := by decide
  rw [mem_iff] at hb
  rcases Int.lt_or_gt_of_ne hne with hneg | hpos
  · have hmin : r.min < 0 := Int64.lt_iff_toInt_lt.mpr (by omega)
    refine ⟨⟨r.min, Min.min r.max (-1)⟩, by simp [divisors, negative, hmin], ?_, ?_⟩
    · rw [mem_iff, toInt_min]
      dsimp only
      omega
    · rw [toInt_min]
      omega
  · have hmax : 0 < r.max := Int64.lt_iff_toInt_lt.mpr (by omega)
    refine ⟨⟨Max.max (Max.max r.min 0) 1, r.max⟩, ?_, ?_, ?_⟩
    · simp [divisors, positive, nonNegative, hmax, Int64.le_of_lt hmax]
    · rw [mem_iff, toInt_max, toInt_max]
      dsimp only
      omega
    · rw [toInt_max]
      omega

theorem div_mem (ha : l.Mem a) (hb : r.Mem b) (h0 : b ≠ 0) :
    ∃ i, l.div r = .ok i ∧ i.Mem (Int64.ofIntClamp (a.toInt.tdiv b.toInt)) := by
  obtain ⟨d, hd, hdb, hsign⟩ := exists_divisors hb h0
  obtain ⟨⟨c, hc, hcv⟩, ⟨e, he, hve⟩⟩ := corners_around (f := Int.tdiv)
    (fun y hy => oneWay_tdiv_left (by simp only [Set.mem_Icc] at hy; omega) _ _)
    (fun x => oneWay_tdiv_right x hsign) ha hdb
  have hall : ∀ c ∈ corners Int.tdiv l d, c ∈ r.divisors.flatMap l.quotientCorners :=
    fun c hc => List.mem_flatMap.mpr ⟨d, hd, hc⟩
  unfold div
  split
  · rename_i hnone
    exact absurd (hall c hc) (by rw [hnone]; simp)
  · exact ⟨_, rfl, mem_hull ⟨c, hall c hc, hcv⟩ ⟨e, hall e he, hve⟩⟩

/-! ## Remainders -/

/-- A remainder of a dividend that is not negative lies from zero up to the dividend, below the
divisor. -/
theorem tmod_bounds {a : Int} (b : Int) (ha : 0 ≤ a) :
    0 ≤ a.tmod b ∧ a.tmod b ≤ a ∧ (b ≠ 0 → a.tmod b < b.natAbs) := by
  have heq : a.tmod b = a.tmod b.natAbs := by
    rcases Int.natAbs_eq b with h | h
    · rw [← h]
    · conv_lhs => rw [h]
      rw [Int.tmod_neg]
  rw [heq, Int.tmod_eq_emod_of_nonneg ha]
  refine ⟨?_, ?_, ?_⟩
  · rcases Nat.eq_zero_or_pos b.natAbs with h0 | hpos
    · rw [h0]
      simpa using ha
    · exact Int.emod_nonneg a (by omega)
  · rw [← Int.natAbs_of_nonneg ha]
    exact_mod_cast Nat.mod_le _ _
  · intro hb
    exact Int.emod_lt_of_pos a (by omega)

/-- The bound of the remainders is below no divisor less one. -/
theorem le_remainderBound (hb : r.Mem b) : (b.toInt.natAbs : Int) - 1 ≤ r.remainderBound.toInt := by
  rw [mem_iff] at hb
  unfold remainderBound
  rw [toInt_complement, toInt_min]
  have hneg : (Saturating.neg r.max).toInt ≤ -r.max.toInt ∨ r.max.toInt < 0 := by
    by_cases h : r.max.toInt < 0
    · exact Or.inr h
    · have hhigh := toInt_upper r.max
      rw [Int64.toInt_maxValue] at hhigh
      left
      unfold Saturating.neg
      rw [Int64.toInt_ofIntClamp (by rw [Int64.toInt_minValue]; omega)
        (by rw [Int64.toInt_maxValue]; omega)]
  omega

theorem toInt_neg_of_nonneg (h : 0 ≤ a.toInt) : (-a).toInt = -a.toInt := by
  have hhigh := toInt_upper a
  rw [Int64.toInt_maxValue] at hhigh
  rw [Int64.toInt_neg, Int.bmod_eq_of_le (by push_cast; omega) (by push_cast; omega)]

theorem rem_mem (ha : l.Mem a) (hb : r.Mem b) (h0 : b ≠ 0)
    (hv : v.toInt = a.toInt.tmod b.toInt) : ∃ i, l.rem r = .ok i ∧ i.Mem v := by
  have hne : b.toInt ≠ 0 := fun h => h0 (Int64.toInt.inj h)
  have hbound := le_remainderBound hb
  have hnn : ¬ r.remainderBound < 0 := by
    rw [Int64.lt_iff_toInt_lt]
    have e0 : (0 : Int64).toInt = 0 := by decide
    omega
  have hneg := toInt_neg_of_nonneg (a := r.remainderBound) (by omega)
  rw [mem_iff] at ha
  unfold rem
  simp only [if_neg hnn]
  refine ⟨_, rfl, ?_⟩
  rw [mem_iff]
  rcases Int.le_total 0 a.toInt with hsign | hsign
  · obtain ⟨h1, h2, h3⟩ := tmod_bounds b.toInt hsign
    have h3 := h3 hne
    constructor
    · dsimp only
      split <;> rename_i hmin <;> rw [Int64.le_iff_toInt_le] at hmin
      · simp only [Int64.toInt_zero] at *
        omega
      · rw [toInt_max, hneg]
        simp only [Int64.toInt_zero] at *
        omega
    · dsimp only
      split <;> rename_i hmax <;> rw [Int64.lt_iff_toInt_lt] at hmax
      · simp only [Int64.toInt_zero] at *
        omega
      · rw [toInt_min]
        omega
  · obtain ⟨h1, h2, h3⟩ := tmod_bounds (a := -a.toInt) b.toInt (by omega)
    have h3 := h3 hne
    rw [Int.neg_tmod] at h1 h2 h3
    constructor
    · dsimp only
      split <;> rename_i hmin <;> rw [Int64.le_iff_toInt_le] at hmin
      · simp only [Int64.toInt_zero] at *
        have : a.toInt = 0 := by omega
        rw [this, Int.zero_tmod] at hv
        omega
      · rw [toInt_max, hneg]
        omega
    · dsimp only
      split <;> rename_i hmax <;> rw [Int64.lt_iff_toInt_lt] at hmax
      · simp only [Int64.toInt_zero] at *
        omega
      · rw [toInt_min]
        simp only [Int64.toInt_zero] at *
        omega

/-! ## Shifts -/

theorem areBits_iff : r.areBits = true ↔ 0 ≤ r.min.toInt ∧ r.max.toInt ≤ 63 := by
  unfold areBits
  rw [Bool.and_eq_true, decide_eq_true_iff, decide_eq_true_iff, Int64.le_iff_toInt_le,
    Int64.le_iff_toInt_le]
  rfl

theorem mem_full (v : Int64) : full.Mem v :=
  mem_iff.mpr ⟨toInt_lower v, toInt_upper v⟩

theorem pow_le_pow_toNat (h : m ≤ n) : (2 : Int) ^ m.toNat ≤ 2 ^ n.toNat :=
  pow_le_pow_right₀ (by omega) (by omega)

/-- Among products of a bound with powers of two, the one to take depends on its sign. -/
theorem mul_pow_le (hmn : m ≤ n) :
    (x < 0 → x * 2 ^ n.toNat ≤ x * 2 ^ m.toNat) ∧ (0 ≤ x → x * 2 ^ m.toNat ≤ x * 2 ^ n.toNat) := by
  have hpow := pow_le_pow_toNat hmn
  exact ⟨fun hx => Int.mul_le_mul_of_nonpos_left (by omega) hpow,
    fun hx => Int.mul_le_mul_of_nonneg_left hpow hx⟩

theorem shiftLeft_mem (ha : l.Mem a) (hb : r.Mem b) :
    (l.shiftLeft r).Mem (Int64.ofIntClamp (a.toInt * 2 ^ b.toInt.toNat)) := by
  unfold shiftLeft
  split
  · rename_i hbits
    rw [areBits_iff] at hbits
    rw [mem_iff] at ha hb
    have hpos : (0 : Int) ≤ 2 ^ b.toInt.toNat := by positivity
    have hlow := Int.mul_le_mul_of_nonneg_right ha.1 hpos
    have hhigh := Int.mul_le_mul_of_nonneg_right ha.2 hpos
    constructor
    · dsimp only
      split <;> rename_i hsign <;> rw [Int64.lt_iff_toInt_lt] at hsign
      · have := (mul_pow_le (x := l.min.toInt) hb.2).1 hsign
        rw [Saturating.shiftLeft_eq_ofIntClamp (by omega)]
        exact ofIntClamp_mono (by omega)
      · have := (mul_pow_le (x := l.min.toInt) hb.1).2 (by simpa using hsign)
        rw [Saturating.shiftLeft_eq_ofIntClamp (by omega)]
        exact ofIntClamp_mono (by omega)
    · dsimp only
      split <;> rename_i hsign <;> rw [Int64.lt_iff_toInt_lt] at hsign
      · have := (mul_pow_le (x := l.max.toInt) hb.1).1 hsign
        rw [Saturating.shiftLeft_eq_ofIntClamp (by omega)]
        exact ofIntClamp_mono (by omega)
      · have := (mul_pow_le (x := l.max.toInt) hb.2).2 (by simpa using hsign)
        rw [Saturating.shiftLeft_eq_ofIntClamp (by omega)]
        exact ofIntClamp_mono (by omega)
  · exact mem_full _

/-- Among quotients of a bound by powers of two, the one to take depends on its sign. -/
theorem ediv_pow_le (hmn : m ≤ n) :
    (x < 0 → x / 2 ^ m.toNat ≤ x / 2 ^ n.toNat) ∧ (0 ≤ x → x / 2 ^ n.toNat ≤ x / 2 ^ m.toNat) := by
  have hpow := pow_le_pow_toNat hmn
  have hm : (0 : Int) < 2 ^ m.toNat := by positivity
  have hn : (0 : Int) < 2 ^ n.toNat := by positivity
  constructor
  · intro hx
    rw [Int.le_ediv_iff_mul_le hn]
    calc x / 2 ^ m.toNat * 2 ^ n.toNat ≤ x / 2 ^ m.toNat * 2 ^ m.toNat :=
          Int.mul_le_mul_of_nonpos_left (Int.le_of_lt (Int.ediv_neg_of_neg_of_pos hx hm)) hpow
      _ ≤ x := Int.ediv_mul_le x hm.ne'
  · intro hx
    rw [Int.le_ediv_iff_mul_le hm]
    calc x / 2 ^ n.toNat * 2 ^ m.toNat ≤ x / 2 ^ n.toNat * 2 ^ n.toNat :=
          Int.mul_le_mul_of_nonneg_left hpow (Int.ediv_nonneg hx hn.le)
      _ ≤ x := Int.ediv_mul_le x hn.ne'

theorem shiftRight_mem (ha : l.Mem a) (hb : r.Mem b)
    (hbit : 0 ≤ b.toInt ∧ b.toInt ≤ 63) (hv : v.toInt = a.toInt / 2 ^ b.toInt.toNat) :
    (l.shiftRight r).Mem v := by
  -- the amounts that count are all bits, and the amount is one of them
  obtain ⟨s, hs, hbits, hbs⟩ : ∃ s, (if r.areBits then r else ⟨0, 63⟩) = s ∧
      (0 ≤ s.min.toInt ∧ s.max.toInt ≤ 63) ∧ s.Mem b := by
    refine ⟨_, rfl, ?_⟩
    split
    · exact ⟨areBits_iff.mp ‹_›, hb⟩
    · exact ⟨by decide, mem_iff.mpr hbit⟩
  unfold shiftRight
  simp only [hs]
  rw [mem_iff] at ha hbs
  have hpos : (0 : Int) < 2 ^ b.toInt.toNat := by positivity
  have hlow := Int.ediv_le_ediv hpos ha.1
  have hhigh := Int.ediv_le_ediv hpos ha.2
  rw [mem_iff]
  constructor
  · dsimp only
    split <;> rename_i hsign <;> rw [Int64.lt_iff_toInt_lt] at hsign
    · have := (ediv_pow_le (x := l.min.toInt) hbs.1).1 hsign
      rw [Saturating.toInt_shiftRight_of_isBit (by omega)]
      omega
    · have := (ediv_pow_le (x := l.min.toInt) hbs.2).2 (by simpa using hsign)
      rw [Saturating.toInt_shiftRight_of_isBit (by omega)]
      omega
  · dsimp only
    split <;> rename_i hsign <;> rw [Int64.lt_iff_toInt_lt] at hsign
    · have := (ediv_pow_le (x := l.max.toInt) hbs.2).1 hsign
      rw [Saturating.toInt_shiftRight_of_isBit (by omega)]
      omega
    · have := (ediv_pow_le (x := l.max.toInt) hbs.1).2 (by simpa using hsign)
      rw [Saturating.toInt_shiftRight_of_isBit (by omega)]
      omega

/-! ## Bitwise operators -/

open BitBounds in
/-- Bounds on unsigned words that hold every result, and have the sign of every result. -/
def BoundsBits (op : BitBounds → BitBounds → BitBounds) (f : UInt64 → UInt64 → UInt64)
    (g : Bool → Bool → Bool) : Prop :=
  ∀ {l r : BitBounds} {x y : UInt64} {s t : Bool}, l.HasSign s → r.HasSign t →
    l.Mem x → r.Mem y → (op l r).Mem (f x y) ∧ (op l r).HasSign (g s t)

theorem bit_top_toUInt64 (a : Int64) : BitBounds.bit a.toUInt64 63 = decide (a.toInt < 0) := by
  rw [Bool.eq_iff_iff, BitBounds.bit_top_iff, decide_eq_true_iff]
  have hcond : a.toInt = if 2 * a.toUInt64.toNat < 2 ^ 64 then (a.toUInt64.toNat : Int)
      else (a.toUInt64.toNat : Int) - (2 ^ 64 : Nat) := a.toBitVec.toInt_eq_toNat_cond
  have hlt := a.toUInt64.toNat_lt
  rw [hcond]
  split <;> push_cast <;> omega

/-- Among words of one sign, the order of the numbers is the order of the patterns. -/
theorem toUInt64_le_iff (h : a.toInt < 0 ↔ b.toInt < 0) : a.toUInt64 ≤ b.toUInt64 ↔ a ≤ b := by
  have ha : a.toInt = if 2 * a.toUInt64.toNat < 2 ^ 64 then (a.toUInt64.toNat : Int)
      else (a.toUInt64.toNat : Int) - (2 ^ 64 : Nat) := a.toBitVec.toInt_eq_toNat_cond
  have hb : b.toInt = if 2 * b.toUInt64.toNat < 2 ^ 64 then (b.toUInt64.toNat : Int)
      else (b.toUInt64.toNat : Int) - (2 ^ 64 : Nat) := b.toBitVec.toInt_eq_toNat_cond
  have hla := a.toUInt64.toNat_lt
  have hlb := b.toUInt64.toNat_lt
  rw [UInt64.le_iff_toNat_le, Int64.le_iff_toInt_le]
  split at ha <;> split at hb <;> push_cast at ha hb <;> omega

/-- Each word is in a part of one sign, and its pattern is between those of the part. -/
theorem exists_signs (ha : l.Mem a) :
    ∃ p ∈ l.signs, ∃ s, (BitBounds.ofInterval p).HasSign s ∧
    (BitBounds.ofInterval p).Mem a.toUInt64 := by
  have em1 : (-1 : Int64).toInt = -1 := by decide
  have e0 : (0 : Int64).toInt = 0 := by decide
  rw [mem_iff] at ha
  -- a part all of whose words have the sign of this one
  suffices h : ∃ p ∈ l.signs, p.Mem a ∧ (p.min.toInt < 0 ↔ a.toInt < 0) ∧
      (p.max.toInt < 0 ↔ a.toInt < 0) by
    obtain ⟨p, hp, hmem, hmin, hmax⟩ := h
    refine ⟨p, hp, decide (a.toInt < 0), ⟨?_, ?_⟩, ⟨?_, ?_⟩⟩
    · rw [BitBounds.ofInterval, bit_top_toUInt64, decide_eq_decide]
      exact hmin
    · rw [BitBounds.ofInterval, bit_top_toUInt64, decide_eq_decide]
      exact hmax
    · exact (toUInt64_le_iff hmin).mpr hmem.1
    · exact (toUInt64_le_iff hmax.symm).mpr hmem.2
  by_cases hneg : a.toInt < 0
  · have hmin : l.min < 0 := Int64.lt_iff_toInt_lt.mpr (by omega)
    refine ⟨⟨l.min, Min.min l.max (-1)⟩, by simp [signs, negative, hmin], ?_⟩
    rw [mem_iff, toInt_min]
    dsimp only
    omega
  · have hmax : 0 ≤ l.max := Int64.le_iff_toInt_le.mpr (by omega)
    refine ⟨⟨Max.max l.min 0, l.max⟩, by simp [signs, nonNegative, hmax], ?_⟩
    rw [mem_iff, toInt_max]
    dsimp only
    omega

/-- The signed words with patterns of one sign are in the order of the patterns. -/
theorem toInterval_mem {b : BitBounds} {s : Bool} (hs : b.HasSign s)
    (hv : b.Mem v.toUInt64) : b.toInterval.Mem v := by
  have hsign : ∀ w : UInt64, BitBounds.bit w 63 = s → (w.toInt64.toInt < 0 ↔ v.toInt < 0) := by
    intro w hw
    have hbit := hs.bit_eq hv
    rw [bit_top_toUInt64] at hbit
    rw [← UInt64.toUInt64_toInt64 w, bit_top_toUInt64, ← hbit, decide_eq_decide] at hw
    exact hw
  exact ⟨(toUInt64_le_iff (hsign _ hs.1)).mp hv.1, (toUInt64_le_iff (hsign _ hs.2).symm).mp hv.2⟩

theorem bitwise_mem {op : BitBounds → BitBounds → BitBounds} {f : UInt64 → UInt64 → UInt64}
    {g : Bool → Bool → Bool} (hop : BoundsBits op f g)
    (ha : l.Mem a) (hb : r.Mem b) (hv : v.toUInt64 = f a.toUInt64 b.toUInt64) :
    (bitwise op l r).Mem v := by
  obtain ⟨p, hp, s, hps, hpa⟩ := exists_signs ha
  obtain ⟨q, hq, t, hqt, hqb⟩ := exists_signs hb
  obtain ⟨hmem, hsign⟩ := hop hps hqt hpa hqb
  have hpart : (op (.ofInterval p) (.ofInterval q)).toInterval ∈ bitwiseParts op l r :=
    List.mem_flatMap.mpr ⟨p, hp, List.mem_map.mpr ⟨q, hq, rfl⟩⟩
  exact mem_unionAll hpart (toInterval_mem hsign (hv ▸ hmem))

theorem boundsBits_and : BoundsBits .unsignedAnd (· &&& ·) (· && ·) :=
  fun hl hr hx hy => ⟨BitBounds.unsignedAnd_mem hx hy, BitBounds.unsignedAnd_sign hl hr⟩

theorem boundsBits_or : BoundsBits .unsignedOr (· ||| ·) (· || ·) :=
  fun hl hr hx hy => ⟨BitBounds.unsignedOr_mem hx hy, BitBounds.unsignedOr_sign hl hr⟩

theorem boundsBits_xor : BoundsBits .unsignedXor (· ^^^ ·) (· ^^ ·) :=
  fun hl hr hx hy => ⟨BitBounds.unsignedXor_mem hx hy, BitBounds.unsignedXor_sign hl hr⟩

/-! ## All operators -/

/-- The bounds that are found from the bounds of the operands only hold every value. -/
theorem bound_mem (ha : l.Mem a) (hb : r.Mem b)
    (hv : op.eval a b = some v) : ∃ i, bound op l r = .ok i ∧ i.Mem v := by
  cases op with
  | add => exact ⟨_, rfl, eq_ofIntClamp (IntOp.exact_eq_some hv) ▸ add_mem ha hb⟩
  | sub => exact ⟨_, rfl, eq_ofIntClamp (IntOp.exact_eq_some hv) ▸ sub_mem ha hb⟩
  | mul => exact ⟨_, rfl, eq_ofIntClamp (IntOp.exact_eq_some hv) ▸ mul_mem ha hb⟩
  | div =>
    obtain ⟨h0, hquot⟩ := IntOp.quotient_eq_some hv
    exact eq_ofIntClamp hquot ▸ div_mem ha hb h0
  | mod =>
    obtain ⟨q, hq, rfl⟩ := Option.map_eq_some_iff.mp hv
    exact rem_mem ha hb (IntOp.quotient_eq_some hq).1 (toInt_ofInt_tmod a b)
  | and =>
    cases hv
    exact ⟨_, rfl, bitwise_mem boundsBits_and ha hb (Int64.toUInt64_and a b)⟩
  | or =>
    cases hv
    exact ⟨_, rfl, bitwise_mem boundsBits_or ha hb (Int64.toUInt64_or a b)⟩
  | xor =>
    cases hv
    exact ⟨_, rfl, bitwise_mem boundsBits_xor ha hb (Int64.toUInt64_xor a b)⟩
  | shiftLeft =>
    exact ⟨_, rfl, eq_ofIntClamp (IntOp.eval_shiftLeft_eq_some hv).2 ▸ shiftLeft_mem ha hb⟩
  | shiftRight =>
    simp only [IntOp.eval] at hv
    split at hv
    · rename_i h
      rw [isBit_iff] at h
      cases hv
      exact ⟨_, rfl, shiftRight_mem ha hb h (toInt_shiftRight h)⟩
    · cases hv

theorem asPoint_eq_some {x : Int64} (h : i.asPoint = some x) (ha : i.Mem a) : a = x := by
  unfold asPoint at h
  split at h
  · rename_i heq
    cases h
    exact Int64.le_antisymm (heq ▸ ha.2) ha.1
  · cases h

theorem mem_point (v : Int64) : (point v).Mem v := ⟨Int64.le_refl v, Int64.le_refl v⟩

/-- On collapsed operands the exact value is that of the only words. -/
theorem exactPoint_eq {w : Int64} (ha : l.Mem a) (hb : r.Mem b)
    (hv : op.eval a b = some v) (hw : exactPoint op l r = some w) : w = v := by
  unfold exactPoint at hw
  simp only [Option.bind_eq_bind, Option.bind_eq_some_iff] at hw
  obtain ⟨x, hx, y, hy, heval⟩ := hw
  rw [← asPoint_eq_some hx ha, ← asPoint_eq_some hy hb, hv] at heval
  cases heval
  rfl

/-- The bounds that look at collapsed operands first hold every value. -/
theorem apply_mem (ha : l.Mem a) (hb : r.Mem b)
    (hv : op.eval a b = some v) : ∃ i, apply op l r = .ok i ∧ i.Mem v := by
  unfold apply
  split
  · rename_i w hw
    exact ⟨_, rfl, exactPoint_eq ha hb hv hw ▸ mem_point w⟩
  · exact bound_mem ha hb hv

/-- If an operator has a value on words of two intervals, then it has bounds on the intervals,
and the bounds hold the value. This is so of the bounds that look at collapsed operands first,
and of those that do not. -/
theorem apply_and_bound_sound (op : IntOp) (l r : Interval) (a b v : Int64) (ha : l.Mem a)
    (hb : r.Mem b) (hv : op.eval a b = some v) :
    (∃ i, apply op l r = .ok i ∧ i.Mem v) ∧ ∃ i, bound op l r = .ok i ∧ i.Mem v :=
  ⟨apply_mem ha hb hv, bound_mem ha hb hv⟩

/-- Bits of words of both signs, from intervals that hold words of both signs. -/
theorem apply_and_bound_sound_xor :
    ((∃ i, apply .xor ⟨-1099511627776, 1125899906842624⟩ ⟨-3, 4611686018427387904⟩ = .ok i ∧
        i.Mem (-9)) ∧
      ∃ i, bound .xor ⟨-1099511627776, 1125899906842624⟩ ⟨-3, 4611686018427387904⟩ = .ok i ∧
        i.Mem (-9)) :=
  apply_and_bound_sound .xor ⟨-1099511627776, 1125899906842624⟩ ⟨-3, 4611686018427387904⟩
    (-5) 12 (-9) (by decide) (by decide) (by decide)

/-! ## Comparisons -/

theorem ne_of_disjoint (hd : i.disjoint j) (ha : i.Mem a) (hb : j.Mem b) : a ≠ b := by
  rw [mem_iff] at ha hb
  simp only [disjoint, Bool.or_eq_true, decide_eq_true_eq, Int64.lt_iff_toInt_lt] at hd
  rintro rfl
  omega

end Ci.Interval

namespace Ci.Relation

theorem holds_of_always {r : Relation} (h : r.always i j)
    (ha : i.Mem a) (hb : j.Mem b) : r.holds a b = true := by
  rw [Interval.mem_iff] at ha hb
  cases r <;>
    simp only [always, holds, decide_eq_true_eq, Int64.lt_iff_toInt_lt, Int64.le_iff_toInt_le]
      at h ⊢ <;> omega

theorem holds_opposite (r : Relation) (a b : Int64) : r.opposite.holds a b = !r.holds a b := by
  cases r <;> simp [opposite, holds, ← decide_not]

/-- A comparison that is decided for two intervals has that result for all their words. -/
theorem holds_of_decide? {r : Relation} {known : Bool}
    (h : r.decide? i j = some known) (ha : i.Mem a) (hb : j.Mem b) : r.holds a b = known := by
  unfold decide? at h
  split at h
  · cases h
    exact holds_of_always ‹_› ha hb
  · split at h
    · cases h
      have := holds_of_always ‹_› ha hb
      simpa [holds_opposite] using this
    · cases h

end Ci.Relation
