import Formulae.Number.Decimal
import Formulae.Proofs.Number.Scientific

/-!
# Proofs.Number.Shortest — the shortest digits round to the double

The digits are searched on ever finer decimal grids. Whichever grid is the first to have a point in the
interval of the double, that point rounds to the double; and one of the grids has, since the finest of
them is as fine as the interval.

* `Interval.Contains`: a rational number lies in the interval.
* `exists_nearest?`: a grid no coarser than the lower part of the interval has a point in it.
* `shortest_roundsTo`: the shortest digits of a positive double round to it.
-/

namespace Formulae.Number

namespace Interval

variable {i : Interval} {n : Nat} {v : ℚ}

/-- The number lies in the interval. -/
structure Contains (i : Interval) (v : ℚ) : Prop where
  above : i.low ≤ v * i.denominator
  below : v * i.denominator ≤ i.high
  strict : i.closed = false → i.low < v * i.denominator ∧ v * i.denominator < i.high

theorem holds_iff : i.holds n = true ↔ i.Contains n := by
  have hlow : (i.low : ℚ) ≤ n * i.denominator ↔ i.low ≤ n * i.denominator := by exact_mod_cast Iff.rfl
  have hhigh : (n * i.denominator : ℚ) ≤ i.high ↔ n * i.denominator ≤ i.high := by
    exact_mod_cast Iff.rfl
  have hlow' : (i.low : ℚ) < n * i.denominator ↔ i.low < n * i.denominator := by
    exact_mod_cast Iff.rfl
  have hhigh' : (n * i.denominator : ℚ) < i.high ↔ n * i.denominator < i.high := by
    exact_mod_cast Iff.rfl
  unfold holds
  cases hc : i.closed with
  | true =>
    simp only [if_true, Bool.and_eq_true, decide_eq_true_eq]
    constructor
    · rintro ⟨h, h'⟩
      exact ⟨hlow.mpr h, hhigh.mpr h', fun hopen => by simp [hc] at hopen⟩
    · rintro ⟨h, h', -⟩
      exact ⟨hlow.mp h, hhigh.mp h'⟩
  | false =>
    simp only [Bool.false_eq_true, if_false, Bool.and_eq_true, decide_eq_true_eq]
    constructor
    · rintro ⟨h, h'⟩
      exact ⟨hlow.mpr h.le, hhigh.mpr h'.le, fun _ => ⟨hlow'.mpr h, hhigh'.mpr h'⟩⟩
    · rintro ⟨-, -, hopen⟩
      exact ⟨hlow'.mp (hopen hc).1, hhigh'.mp (hopen hc).2⟩

/-- In other units it is another number of them that lies in the interval. -/
theorem contains_of_inUnits {exponent : Int} (h : (i.inUnits exponent).Contains v) :
    i.Contains (v * 10 ^ exponent) := by
  obtain ⟨above, below, strict⟩ := h
  have hup : (0 : ℚ) < 10 ^ (-exponent).toNat := by positivity
  have hscale : v * ((i.inUnits exponent).denominator : ℚ) =
      v * 10 ^ exponent * i.denominator * 10 ^ (-exponent).toNat := by
    rw [zpow_eq_div (b := 10) (by norm_num)]
    simp only [inUnits, Nat.pow_eq]
    push_cast
    field_simp
  rw [hscale] at above below strict
  simp only [inUnits, Nat.pow_eq, Nat.cast_mul, Nat.cast_pow, Nat.cast_ofNat] at above below strict
  refine ⟨le_of_mul_le_mul_right above hup, le_of_mul_le_mul_right below hup, fun hopen => ?_⟩
  obtain ⟨hlow, hhigh⟩ := strict hopen
  exact ⟨lt_of_mul_lt_mul_right hlow hup.le, lt_of_mul_lt_mul_right hhigh hup.le⟩

theorem holds_of_nearest? (h : i.nearest? = some n) : i.holds n = true := by
  simp only [nearest?] at h
  cases hbelow : i.holds (i.value / i.denominator) <;>
    cases habove : i.holds (i.value / i.denominator + 1) <;> simp only [hbelow, habove] at h
  · cases h
  · exact Option.some.inj h ▸ habove
  · exact Option.some.inj h ▸ hbelow
  · split at h
    · exact Option.some.inj h ▸ hbelow
    · exact Option.some.inj h ▸ habove

/-- If a unit is no larger than the lower part of the interval, some number of units lies in it. -/
theorem exists_nearest? (pos : 0 < i.denominator) (fine : i.low + i.denominator ≤ i.value)
    (lt : i.value < i.high) : ∃ n, i.nearest? = some n := by
  have hbelow : i.holds (i.value / i.denominator) = true := by
    have hdiv : i.value / i.denominator * i.denominator + i.value % i.denominator = i.value :=
      Nat.div_add_mod' _ _
    have hmod := Nat.mod_lt i.value pos
    unfold holds
    split <;> simp only [Bool.and_eq_true, decide_eq_true_eq] <;> omega
  simp only [nearest?]
  cases habove : i.holds (i.value / i.denominator + 1) <;> simp only [hbelow]
  · exact ⟨_, rfl⟩
  · split <;> exact ⟨_, rfl⟩

end Interval

/-! ### The grids -/

section Grids

variable {i : Interval}

/-- If one of the grids has a point in the interval, the first such grid gives one. -/
theorem holds_firstGrid {n k : Nat} {exponent : Int} (lt : k < n)
    (h : ∃ digits, (i.inUnits (exponent - k)).nearest? = some digits) :
    (i.inUnits (firstGrid i n exponent).exponent).holds (firstGrid i n exponent).digits = true := by
  induction n generalizing k exponent with
  | zero => omega
  | succ n ih =>
    unfold firstGrid
    cases hfirst : (i.inUnits exponent).nearest? with
    | some digits => exact Interval.holds_of_nearest? hfirst
    | none =>
      cases k with
      | zero =>
        obtain ⟨digits, hdigits⟩ := h
        simp [hfirst] at hdigits
      | succ k =>
        refine ih (k := k) (by omega) ?_
        rwa [show exponent - 1 - k = exponent - (k + 1 : Nat) by omega]

/-- Zeros at the end do not count. -/
theorem Decimal.trim_value (n : Nat) (d : Decimal) :
    ((d.trim n).digits : ℚ) * 10 ^ (d.trim n).exponent = d.digits * 10 ^ d.exponent := by
  induction n generalizing d with
  | zero => rfl
  | succ n ih =>
    unfold Decimal.trim
    split
    · rename_i hzero
      have hdigits : (d.digits : ℚ) = (d.digits / 10 : Nat) * 10 := by
        exact_mod_cast (Nat.div_mul_cancel (Nat.dvd_of_mod_eq_zero hzero)).symm
      rw [ih, hdigits, zpow_add₀ (by norm_num), zpow_one]
      push_cast
      ring
    · rfl

end Grids

/-! ### The interval of a double -/

section Double

variable {d : Dyadic} {v : ℚ}

/-- The interval is measured in quarters of a unit in the last place. -/
theorem quarters (d : Dyadic) :
    (2 : ℚ) ^ d.exponent * (Interval.ofDyadic d).denominator = 4 * 2 ^ (d.exponent - 2).toNat := by
  have hsplit := zpow_eq_div (b := 2) (by norm_num) (d.exponent - 2)
  rw [show -(d.exponent - 2) = 2 - d.exponent by omega, eq_div_iff (by positivity)] at hsplit
  rw [← hsplit, show d.exponent = 2 + (d.exponent - 2) by omega, two_zpow_add]
  simp only [Interval.ofDyadic, Nat.pow_eq]
  push_cast
  norm_num
  ring_nf

theorem low_ofDyadic (pos : 0 < d.significand) :
    ((Interval.ofDyadic d).low : ℚ) =
      (d.significand - gapBelow d.significand d.exponent) * 2 ^ d.exponent *
        (Interval.ofDyadic d).denominator := by
  rw [mul_assoc, quarters]
  have hcond : (decide (d.significand = Dyadic.hidden) && decide (-1074 < d.exponent)) = true ↔
      d.significand = 2 ^ 52 ∧ -1074 < d.exponent := by
    rw [Bool.and_eq_true, decide_eq_true_iff, decide_eq_true_iff]
    exact Iff.rfl
  unfold gapBelow
  simp only [Interval.ofDyadic, hcond, Nat.pow_eq, Nat.cast_mul, Nat.cast_pow, Nat.cast_ofNat]
  split
  · rw [Nat.cast_sub (by omega)]
    push_cast
    ring
  · rw [Nat.cast_sub (by omega)]
    push_cast
    ring

theorem high_ofDyadic (d : Dyadic) :
    ((Interval.ofDyadic d).high : ℚ) =
      (d.significand + 1 / 2) * 2 ^ d.exponent * (Interval.ofDyadic d).denominator := by
  rw [mul_assoc, quarters]
  simp only [Interval.ofDyadic, Nat.pow_eq]
  push_cast
  ring

/-- What lies in the interval of a double rounds to it. -/
theorem roundsTo_of_contains (pos : 0 < d.significand) (h : (Interval.ofDyadic d).Contains v) :
    RoundsTo v d.significand d.exponent := by
  have hden : (0 : ℚ) < (Interval.ofDyadic d).denominator := by
    simp only [Interval.ofDyadic, Nat.pow_eq]
    positivity
  obtain ⟨above, below, strict⟩ := h
  rw [low_ofDyadic pos] at above strict
  rw [high_ofDyadic] at below strict
  refine ⟨le_of_mul_le_mul_right above hden, le_of_mul_le_mul_right below hden, fun hodd => ?_⟩
  obtain ⟨hlow, hhigh⟩ := strict (by simp [Interval.ofDyadic, hodd])
  exact ⟨lt_of_mul_lt_mul_right hlow hden.le, lt_of_mul_lt_mul_right hhigh hden.le⟩

/-- A grid as fine as a quarter of a unit in the last place has a point in the interval. -/
theorem exists_nearest?_inUnits (pos : 0 < d.significand) {exponent : Int}
    (fine : (10 : ℚ) ^ exponent ≤ 2 ^ (d.exponent - 2)) :
    ∃ digits, ((Interval.ofDyadic d).inUnits exponent).nearest? = some digits := by
  have hfine : 2 ^ (2 - d.exponent).toNat * 10 ^ exponent.toNat ≤
      2 ^ (d.exponent - 2).toNat * 10 ^ (-exponent).toNat := by
    rw [zpow_eq_div (b := 10) (by norm_num), zpow_eq_div (b := 2) (by norm_num),
      div_le_div_iff₀ (by positivity) (by positivity),
      show -(d.exponent - 2) = 2 - d.exponent by omega] at fine
    rw [Nat.mul_comm]
    exact_mod_cast fine
  have hunit : 0 < 2 ^ (d.exponent - 2).toNat * 10 ^ (-exponent).toNat := by positivity
  refine Interval.exists_nearest? ?_ ?_ ?_
  · simp only [Interval.inUnits, Interval.ofDyadic, Nat.pow_eq]
    positivity
  · simp only [Interval.inUnits, Interval.ofDyadic, Nat.pow_eq, Nat.mul_assoc]
    generalize 2 ^ (d.exponent - 2).toNat * 10 ^ (-exponent).toNat = unit at *
    refine le_trans (Nat.add_le_add_left hfine _) ?_
    rw [← Nat.succ_mul, ← Nat.mul_assoc]
    refine Nat.mul_le_mul_right _ ?_
    split <;> omega
  · simp only [Interval.inUnits, Interval.ofDyadic, Nat.pow_eq, Nat.mul_assoc]
    generalize 2 ^ (d.exponent - 2).toNat * 10 ^ (-exponent).toNat = unit at *
    rw [← Nat.mul_assoc]
    exact Nat.mul_lt_mul_of_pos_right (by omega) hunit

/-- A power of ten is below a power of two with more than `10 / 3` of its exponent, or `33 / 10` if the
exponents are negative. -/
theorem ten_zpow_le_two_zpow {a b : Int} (h : 10 * a ≤ 3 * b) (h' : 33 * a ≤ 10 * b) :
    (10 : ℚ) ^ a ≤ 2 ^ b := by
  rcases le_total 0 a with ha | ha
  · obtain ⟨n, rfl⟩ := Int.eq_ofNat_of_zero_le ha
    have hcube : ((10 : ℚ) ^ (n : Int)) ^ 3 ≤ (2 ^ b) ^ 3 := calc
      ((10 : ℚ) ^ (n : Int)) ^ 3 = (10 ^ 3) ^ n := by rw [zpow_natCast, ← pow_mul, ← pow_mul, mul_comm]
      _ ≤ (2 ^ 10) ^ n := pow_le_pow_left₀ (by norm_num) (by norm_num) n
      _ = 2 ^ (10 * n : Int) := by rw [← pow_mul]; exact_mod_cast rfl
      _ ≤ 2 ^ (3 * b) := two_zpow_le h
      _ = (2 ^ b) ^ 3 := by rw [mul_comm, zpow_mul]; norm_cast
    exact le_of_pow_le_pow_left₀ (by norm_num) (by positivity) hcube
  · obtain ⟨n, rfl⟩ : ∃ n : Nat, a = -n := ⟨(-a).toNat, by omega⟩
    have htenth : ((10 : ℚ) ^ (-n : Int)) ^ 10 ≤ (2 ^ b) ^ 10 := calc
      ((10 : ℚ) ^ (-n : Int)) ^ 10 = ((10 ^ 10) ^ n)⁻¹ := by
        rw [zpow_neg, zpow_natCast, inv_pow, ← pow_mul, ← pow_mul, mul_comm]
      _ ≤ ((2 ^ 33) ^ n)⁻¹ :=
        inv_anti₀ (by positivity) (pow_le_pow_left₀ (by norm_num) (by norm_num) n)
      _ = 2 ^ (33 * -n : Int) := by rw [← pow_mul, mul_neg, zpow_neg]; norm_cast
      _ ≤ 2 ^ (10 * b) := two_zpow_le h'
      _ = (2 ^ b) ^ 10 := by rw [mul_comm, zpow_mul]; norm_cast
    exact le_of_pow_le_pow_left₀ (by norm_num) (by positivity) htenth

/-- The last grid that is tried is fine enough. -/
theorem last_grid_le (hc : IsCanonical d.significand d.exponent) (he : d.exponent ≤ 971) :
    (10 : ℚ) ^ (leadingExponent d - (21 : Nat)) ≤ 2 ^ (d.exponent - 2) := by
  have hlog := hc.log2_lt
  have hleast := hc.least
  unfold leadingExponent
  refine ten_zpow_le_two_zpow ?_ ?_ <;> omega

/-- The shortest digits of a double round to it. -/
theorem shortest_roundsTo (hc : IsCanonical d.significand d.exponent) (he : d.exponent ≤ 971) :
    RoundsTo ((shortest d).digits * 10 ^ (shortest d).exponent) d.significand d.exponent := by
  have hholds := holds_firstGrid (n := 22) (k := 21) (by norm_num)
    (exists_nearest?_inUnits hc.pos (last_grid_le hc he))
  have hcontains := Interval.contains_of_inUnits (Interval.holds_iff.mp hholds)
  rw [shortest, Decimal.trim_value]
  exact roundsTo_of_contains hc.pos hcontains

end Double

end Formulae.Number
