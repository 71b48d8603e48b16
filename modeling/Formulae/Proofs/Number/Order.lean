import Formulae.Proofs.Number.Finite

/-!
# Proofs.Number.Order — whole numbers keep their order as doubles

A whole number beyond `2 ^ 53` may have no double of its own. A larger one still never rounds to a smaller
double, so whatever is above the double of a whole number is above the doubles of all smaller ones.

* `RoundsTo.le_of_le`: the doubles that two numbers round to, in the order of the numbers.
* `exists_roundsTo_whole`: every whole number from one on rounds to some significand and exponent.
* `ofNat_lt_of_le`: what is above the double of a whole number.
-/

namespace Formulae.Number

open Float.Model Float.Model.UnpackedFloat

/-! ### The order of rounded numbers -/

section Order

variable {v v' : ℚ} {m m' : Nat} {e e' : Int}

/-- What rounds to a double lies above what rounds to a lower one. Between neighbours, of which one is odd,
they may meet in the middle. -/
theorem roundings_apart (hc : IsCanonical m e) (hc' : IsCanonical m' e')
    (h : e' < e ∨ e' = e ∧ m' < m) :
    ((m' : ℚ) + 1 / 2) * 2 ^ e' ≤ (m - gapBelow m e) * 2 ^ e ∧
      (m % 2 = 0 → m' % 2 = 0 → ((m' : ℚ) + 1 / 2) * 2 ^ e' < (m - gapBelow m e) * 2 ^ e) := by
  have hexp := two_zpow_pos e'
  rcases h with hlt | ⟨rfl, hlt⟩
  · have hleast := hc'.least
    have hnormal : 2 ^ 52 ≤ m := by
      by_contra hsub
      have := hc.normal (by omega)
      omega
    -- a unit of the higher double is at least two units of the lower one
    have hunit : 2 * (2 : ℚ) ^ e' ≤ 2 ^ e := by
      rw [← zpow_one_add₀ (by norm_num)]
      exact two_zpow_le (by omega)
    have hlow : (2 : ℚ) ^ 52 - 1 / 4 ≤ m - gapBelow m e := by
      unfold gapBelow
      split
      · rename_i hmin
        rw [hmin.1]
        norm_num
      · rename_i hmin
        have hm : 2 ^ 52 + 1 ≤ m := by omega
        have : (2 : ℚ) ^ 52 + 1 ≤ m := by exact_mod_cast hm
        linarith
    have hstep : ((2 : ℚ) ^ 53 - 1 / 2) * 2 ^ e' ≤ (m - gapBelow m e) * 2 ^ e := calc
      ((2 : ℚ) ^ 53 - 1 / 2) * 2 ^ e' = (2 ^ 52 - 1 / 4) * (2 * 2 ^ e') := by ring
      _ ≤ (m - gapBelow m e) * 2 ^ e :=
        mul_le_mul hlow hunit (by positivity) (le_trans (by norm_num) hlow)
    refine ⟨le_trans (mul_le_mul_of_nonneg_right ?_ hexp.le) hstep, fun _ heven =>
      lt_of_lt_of_le (mul_lt_mul_of_pos_right ?_ hexp) hstep⟩
    · have hm' : (m' : ℚ) + 1 ≤ 2 ^ 53 := by exact_mod_cast hc'.lt
      linarith
    · have htop := hc'.lt
      have hm' : m' + 2 ≤ 2 ^ 53 := by omega
      have : (m' : ℚ) + 2 ≤ 2 ^ 53 := by exact_mod_cast hm'
      linarith
  · have hgap := gapBelow_le m e'
    refine ⟨mul_le_mul_of_nonneg_right ?_ hexp.le, fun heven heven' =>
      mul_lt_mul_of_pos_right ?_ hexp⟩
    · have : (m' : ℚ) + 1 ≤ m := by exact_mod_cast hlt
      linarith
    · have hm : m' + 2 ≤ m := by omega
      have : (m' : ℚ) + 2 ≤ m := by exact_mod_cast hm
      linarith

/-- A larger number rounds to a double that is no smaller. -/
theorem RoundsTo.le_of_le (hc : IsCanonical m e) (hc' : IsCanonical m' e') (hr : RoundsTo v m e)
    (hr' : RoundsTo v' m' e') (h : v ≤ v') : e < e' ∨ e = e' ∧ m ≤ m' := by
  by_contra hlt
  obtain ⟨hle, hstrict⟩ := roundings_apart hc hc' (by omega)
  have habove := hr.above
  have hbelow := hr'.below
  rcases Nat.mod_two_eq_zero_or_one m with heven | hodd
  · rcases Nat.mod_two_eq_zero_or_one m' with heven' | hodd'
    · have := hstrict heven heven'
      linarith
    · have := (hr'.strict hodd').2
      linarith
  · have := (hr.strict hodd).1
    linarith

end Order

/-! ### Whole numbers as doubles -/

section Whole

variable {k m : Nat} {e : Int}

/-- A whole number of more than 53 bits rounds to its leading ones, or to the next significand above them. -/
theorem roundsTo_leading {q r t : Nat} (hr : r < 2 ^ t) (hk : k = q * 2 ^ t + r) (hlow : 2 ^ 52 ≤ q)
    (hhigh : q < 2 ^ 53) (ht : 0 < t) :
    ∃ m e, IsCanonical m e ∧ 2 ^ 52 ≤ m ∧ RoundsTo k m e := by
  have hpow : (0 : ℚ) < 2 ^ t := by positivity
  have hvalue : (k : ℚ) = q * 2 ^ t + r := by exact_mod_cast hk
  have hrest : (0 : ℚ) ≤ r := by positivity
  have hrest' : (r : ℚ) < 2 ^ t := by exact_mod_cast hr
  by_cases hdown : 2 * r < 2 ^ t ∨ 2 * r = 2 ^ t ∧ q % 2 = 0
  · -- down to the leading ones
    have hhalf : 2 * (r : ℚ) ≤ 2 ^ t := by
      have : 2 * r ≤ 2 ^ t := by omega
      exact_mod_cast this
    have hgap : 0 < gapBelow q t := by
      unfold gapBelow
      split <;> norm_num
    refine ⟨q, t, ⟨by omega, hhigh, by omega, fun hsub => by omega⟩, hlow, ?_, ?_, fun hodd => ⟨?_, ?_⟩⟩
    · rw [zpow_natCast]
      nlinarith
    · rw [zpow_natCast]
      linarith
    · rw [zpow_natCast]
      nlinarith
    · have hless : 2 * r < 2 ^ t := by omega
      have : 2 * (r : ℚ) < 2 ^ t := by exact_mod_cast hless
      rw [zpow_natCast]
      linarith
  · have hhalf : (2 : ℚ) ^ t ≤ 2 * r := by
      have : 2 ^ t ≤ 2 * r := by omega
      exact_mod_cast this
    by_cases hcarry : q + 1 = 2 ^ 53
    · -- up to a power of two, which has the next exponent
      have hq : (q : ℚ) = 2 ^ 53 - 1 := by
        have : (q : ℚ) + 1 = 2 ^ 53 := by exact_mod_cast hcarry
        linarith
      have hexp : (2 : ℚ) ^ ((t : Int) + 1) = 2 * 2 ^ t := by
        rw [two_zpow_add, zpow_natCast, zpow_one, mul_comm]
      refine ⟨2 ^ 52, t + 1, ⟨by norm_num, by norm_num, by omega, fun hsub => by omega⟩, le_refl _, ?_, ?_,
        fun hodd => by norm_num at hodd⟩
      · rw [gapBelow, if_pos ⟨rfl, by omega⟩, hexp, hvalue, hq]
        push_cast
        linarith
      · rw [hexp, hvalue, hq]
        push_cast
        linarith
    · have hgap : gapBelow (q + 1) t = 1 / 2 := by
        rw [gapBelow, if_neg (by omega)]
      refine ⟨q + 1, t, ⟨by omega, by omega, by omega, fun hsub => by omega⟩, by omega, ?_, ?_,
        fun hodd => ⟨?_, ?_⟩⟩
      · rw [hgap, zpow_natCast]
        push_cast
        linarith
      · rw [zpow_natCast]
        push_cast
        linarith
      · have hmore : 2 ^ t < 2 * r := by omega
        have : (2 : ℚ) ^ t < 2 * r := by exact_mod_cast hmore
        rw [hgap, zpow_natCast]
        push_cast
        linarith
      · rw [zpow_natCast]
        push_cast
        linarith

/-- Every whole number from one on rounds to some significand and exponent, though the exponent may be too
large for a double. -/
theorem exists_roundsTo_whole (pos : 0 < k) :
    ∃ m e, IsCanonical m e ∧ 2 ^ 52 ≤ m ∧ RoundsTo k m e := by
  rcases Nat.lt_or_ge k (2 ^ 53) with hsmall | hlarge
  · have hself := roundsTo_self (k * 2 ^ (52 - k.log2)) (k.log2 - 52)
    rw [whole_value hsmall] at hself
    exact ⟨_, _, isCanonical_whole pos hsmall, two_pow_le_whole pos hsmall, hself⟩
  · have hlog : 53 ≤ k.log2 := (Nat.le_log2 pos.ne').mpr hlarge
    have hlow : 2 ^ 52 ≤ k / 2 ^ (k.log2 - 52) := by
      rw [Nat.le_div_iff_mul_le (Nat.two_pow_pos _), ← Nat.pow_add]
      refine le_trans (Nat.pow_le_pow_right (by norm_num) ?_) (Nat.log2_self_le pos.ne')
      omega
    have hhigh : k / 2 ^ (k.log2 - 52) < 2 ^ 53 := by
      rw [Nat.div_lt_iff_lt_mul (Nat.two_pow_pos _), ← Nat.pow_add]
      refine lt_of_lt_of_le Nat.lt_log2_self (Nat.pow_le_pow_right (by norm_num) ?_)
      omega
    exact roundsTo_leading (Nat.mod_lt _ (Nat.two_pow_pos _)) (Nat.div_add_mod' k _).symm hlow hhigh
      (by omega)

/-- The double of a whole number, infinite where the exponent is too large. -/
theorem ofNat_eq_packed (hc : IsCanonical m e) (hr : RoundsTo k m e) (pos : 0 < k) :
    Float.ofNat k = packed (.finite .positive m e hc.pos) := by
  by_cases he : e ≤ 971
  · obtain ⟨u, hu, hrounded⟩ := ofScientific_eq_packed pos false 0
    have hvalue : (k : ℚ) * 10 ^ tenExponent false 0 = k := by simp [tenExponent]
    exact hu.trans (congrArg packed (hrounded.eq_finite hc he (hvalue.symm ▸ hr)))
  · -- such a number is out of the range of the short way
    have hlarge : ¬ (k < 2 ^ 53 ∧ 0 ≤ 22) := by
      rintro ⟨hsmall, -⟩
      have hk : (k : ℚ) < 2 ^ (53 : Int) := by exact_mod_cast hsmall
      have hm : (1 : ℚ) / 2 ≤ m - gapBelow m e := by
        have hm : (1 : ℚ) ≤ m := by exact_mod_cast hc.pos
        have := gapBelow_le m e
        linarith
      have hlow : (1 : ℚ) / 2 * 2 ^ e ≤ k :=
        le_trans (mul_le_mul_of_nonneg_right hm (two_zpow_pos e).le) hr.above
      have hexp : (2 : ℚ) ^ (1 + 53 : Int) ≤ 2 ^ e := two_zpow_le (by omega)
      rw [two_zpow_add, zpow_one] at hexp
      linarith
    have hfine : 2 ^ 52 ≤ (k <<< 53) * 10 ^ (0 : Int).toNat := by
      rw [Nat.shiftLeft_eq, Int.toNat_zero, pow_zero, mul_one]
      omega
    have hvalue : ((k <<< 53 : Nat) : ℚ) * 2 ^ (-53 : Int) *
        ((10 ^ (0 : Int).toNat : Nat) * 2 ^ (0 : Int)) = k := by
      rw [Nat.shiftLeft_eq, Int.toNat_zero]
      push_cast
      norm_num
      ring
    have hsum : UnpackedFloat.ofScientific Format.binary64 k 0 = .finite .positive m e hc.pos := by
      unfold UnpackedFloat.ofScientific
      rw [dif_neg pos.ne', if_neg (by decide), if_neg (by show ¬ (0 : Int) < -(2 ^ 11 + k.log2); omega),
        if_pos (le_refl _)]
      exact mul_eq .positive .positive _ _ hfine hc (hvalue.symm ▸ hr)
    show Float.ofScientific k false 0 = _
    unfold Float.ofScientific
    rw [dif_neg hlarge]
    exact congrArg packed hsum

end Whole

/-! ### Comparisons -/

/-- Two unpacked numbers without a sign, in their order. -/
inductive Precedes : UnpackedFloat → UnpackedFloat → Prop where
  | zero {u : UnpackedFloat} (h : IsUnsigned u) : Precedes (.zero .positive) u
  | infinity {u : UnpackedFloat} (h : IsUnsigned u) : Precedes u (.infinity .positive)
  | finite {m m' : Nat} {e e' : Int} (pos : 0 < m) (pos' : 0 < m') (h : e < e' ∨ e = e' ∧ m ≤ m') :
      Precedes (.finite .positive m e pos) (.finite .positive m' e' pos')

theorem infinity_not_lt (u : UnpackedFloat) : (UnpackedFloat.infinity .positive).lt u = false := by
  cases u with
  | infinity sign => cases sign <;> rfl
  | _ => rfl

theorem finite_lt_finite_iff {m m' : Nat} {e e' : Int} (pos : 0 < m) (pos' : 0 < m') :
    (UnpackedFloat.finite .positive m e pos).lt (.finite .positive m' e' pos') = true ↔
      e < e' ∨ e = e' ∧ m < m' := by
  show (some ((compare e e').then (compare m m')) == some Ordering.lt) = true ↔ _
  rw [beq_iff_eq, Option.some.injEq, Ordering.then_eq_lt, Int.compare_eq_lt, Int.compare_eq_eq,
    Nat.compare_eq_lt]

/-- Only infinity and positive numbers are above a positive number. -/
theorem positive_of_finite_lt {m : Nat} {e : Int} {pos : 0 < m} {u : UnpackedFloat}
    (h : (UnpackedFloat.finite .positive m e pos).lt u = true) :
    u = .infinity .positive ∨ ∃ m' e' pos', u = .finite .positive m' e' pos' := by
  cases u with
  | notANumber => cases h
  | zero sign => cases h
  | infinity sign =>
    cases sign with
    | positive => exact .inl rfl
    | negative => cases h
  | finite sign m' e' pos' =>
    cases sign with
    | positive => exact .inr ⟨m', e', pos', rfl⟩
    | negative => cases h

/-- What is above the larger one is above the smaller one. -/
theorem Precedes.lt {u v w : UnpackedFloat} (h : Precedes u v) (hlt : v.lt w = true) :
    u.lt w = true := by
  cases h with
  | zero h =>
    cases h with
    | zero => exact hlt
    | infinity =>
      rw [infinity_not_lt] at hlt
      cases hlt
    | finite =>
      rcases positive_of_finite_lt hlt with rfl | ⟨_, _, _, rfl⟩
      · rfl
      · rfl
  | infinity =>
    rw [infinity_not_lt] at hlt
    cases hlt
  | finite pos pos' h =>
    rcases positive_of_finite_lt hlt with rfl | ⟨_, _, pos'', rfl⟩
    · rfl
    · have hlt' := (finite_lt_finite_iff pos' pos'').mp hlt
      exact (finite_lt_finite_iff pos pos'').mpr (by omega)

theorem precedes_ofNat {m n : Nat} (h : m ≤ n) :
    Precedes (Float.ofNat m).toModel.unpack (Float.ofNat n).toModel.unpack := by
  rcases Nat.eq_zero_or_pos m with rfl | pos
  · have hzero : (Float.ofNat 0).toModel.unpack = .zero .positive := rfl
    exact hzero ▸ .zero (isUnsigned_ofNat n)
  · obtain ⟨p, e, hc, hnormal, hr⟩ := exists_roundsTo_whole pos
    obtain ⟨q, t, hc', hnormal', hr'⟩ := exists_roundsTo_whole (Nat.lt_of_lt_of_le pos h)
    have horder := hr.le_of_le hc hc' hr' (by exact_mod_cast h)
    rcases Int.lt_or_le 971 t with hover | hfits
    · rw [ofNat_eq_packed hc' hr' (Nat.lt_of_lt_of_le pos h), unpack_packed_of_gt .positive hc'.pos hover]
      exact .infinity (isUnsigned_ofNat m)
    · rw [ofNat_eq_packed hc hr pos, ofNat_eq_packed hc' hr' (Nat.lt_of_lt_of_le pos h),
        unpack_pack_normal hc (by omega) hnormal, unpack_pack_normal hc' hfits hnormal']
      exact .finite hc.pos hc'.pos horder

/-- What is above the double of a whole number is above those of all smaller ones. -/
theorem ofNat_lt_of_le {m n : Nat} (h : m ≤ n) {x : Float} (hx : Float.ofNat n < x) : Float.ofNat m < x :=
  have hlt : (Float.ofNat n).toModel.unpack.lt x.toModel.unpack = true := of_decide_eq_true hx
  decide_eq_true ((precedes_ofNat h).lt hlt)

end Formulae.Number
