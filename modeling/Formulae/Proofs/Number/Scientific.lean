import Formulae.Number.Numeral
import Formulae.Proofs.Number.Encoding

/-!
# Proofs.Number.Scientific — decimal numbers as doubles

A decimal number becomes the double that it rounds to. Below `2 ^ 53` and up to the power `10 ^ 22` that
is one multiplication or division of doubles, both of them exact; beyond, of significands of any length.

* `IsRounded`: a result of arithmetic is the double that a number rounds to.
* `ofScientific_eq_packed`: the double of a number in scientific form.
* `scaled_eq_packed`: the double of the digits of a numeral.
-/

namespace Formulae.Number

open Float.Model Float.Model.UnpackedFloat

/-- A double rounds to itself. -/
theorem roundsTo_self (m : Nat) (e : Int) : RoundsTo (m * 2 ^ e) m e := by
  have hexp := two_zpow_pos e
  have hgap : 0 < gapBelow m e := by
    unfold gapBelow
    split <;> norm_num
  have hlow : (m - gapBelow m e) * 2 ^ e < m * 2 ^ e := mul_lt_mul_of_pos_right (by linarith) hexp
  have hhigh : (m : ℚ) * 2 ^ e < (m + 1 / 2) * 2 ^ e := mul_lt_mul_of_pos_right (by linarith) hexp
  exact ⟨hlow.le, hhigh.le, fun _ => ⟨hlow, hhigh⟩⟩

/-! ### Whole numbers and powers of ten -/

section Whole

variable {n : Nat} (pos : 0 < n) (lt : n < 2 ^ 53)
include pos lt

theorem two_pow_le_whole : 2 ^ 52 ≤ n * 2 ^ (52 - n.log2) := by
  have hlog : n.log2 < 53 := (Nat.log2_lt pos.ne').mpr lt
  calc 2 ^ 52 = 2 ^ n.log2 * 2 ^ (52 - n.log2) := by rw [← Nat.pow_add]; congr 1; omega
    _ ≤ n * 2 ^ (52 - n.log2) := Nat.mul_le_mul_right _ (Nat.log2_self_le pos.ne')

theorem isCanonical_whole : IsCanonical (n * 2 ^ (52 - n.log2)) (n.log2 - 52) := by
  have hlog : n.log2 < 53 := (Nat.log2_lt pos.ne').mpr lt
  have hlow := two_pow_le_whole pos lt
  have hhigh : n * 2 ^ (52 - n.log2) < 2 ^ 53 := by
    calc n * 2 ^ (52 - n.log2) < 2 ^ (n.log2 + 1) * 2 ^ (52 - n.log2) :=
          Nat.mul_lt_mul_of_pos_right Nat.lt_log2_self (Nat.two_pow_pos _)
      _ = 2 ^ 53 := by rw [← Nat.pow_add]; congr 1; omega
  exact ⟨by omega, hhigh, by omega, fun hlt => by omega⟩

omit pos in
theorem whole_value : ((n * 2 ^ (52 - n.log2) : Nat) : ℚ) * 2 ^ ((n.log2 : Int) - 52) = n := by
  have hlog : n.log2 < 53 := by
    rcases Nat.eq_zero_or_pos n with rfl | pos
    · simp
    · exact (Nat.log2_lt pos.ne').mpr lt
  have hsum : ((52 - n.log2 : Nat) : Int) + (n.log2 - 52) = 0 := by omega
  push_cast
  rw [mul_assoc, ← zpow_natCast, ← two_zpow_add, hsum, zpow_zero, mul_one]

/-- A number that is whole below `2 ^ 53` is not rounded, however it is written. -/
theorem round_whole (sign : Sign) {k : Nat} {t : Int} (hk : 0 < k) (hn : (k : ℚ) * 2 ^ t = n) :
    UnpackedFloat.round Format.binary64 sign k t =
      .finite sign (n * 2 ^ (52 - n.log2)) (n.log2 - 52) (isCanonical_whole pos lt).pos := by
  refine round_eq sign hk (isCanonical_whole pos lt) ?_
  rw [hn, ← whole_value lt]
  exact roundsTo_self _ _

/-- A whole number below `2 ^ 53` is a double. -/
theorem unpack_whole :
    n.toUInt64.toFloat.toModel.unpack =
      .finite .positive (n * 2 ^ (52 - n.log2)) (n.log2 - 52) (isCanonical_whole pos lt).pos := by
  have hlog : n.log2 < 53 := (Nat.log2_lt pos.ne').mpr lt
  have hnat : n.toUInt64.toNat = n := by
    show n % 2 ^ 64 = n
    omega
  have hround : UnpackedFloat.ofUInt64 Format.binary64 n.toUInt64 =
      .finite .positive (n * 2 ^ (52 - n.log2)) (n.log2 - 52) (isCanonical_whole pos lt).pos := by
    have hcmp : compare (n : Int) 0 = .gt := by
      rw [Int.compare_eq_gt]
      omega
    unfold UnpackedFloat.ofUInt64 UnpackedFloat.ofNat UnpackedFloat.ofInt
      UnpackedFloat.normalize
    rw [hnat, hcmp]
    exact round_whole pos lt .positive pos (by rw [zpow_zero, mul_one, Int.toNat_natCast])
  show (packed (UnpackedFloat.ofUInt64 Format.binary64 n.toUInt64)).toModel.unpack = _
  rw [hround]
  exact unpack_pack_normal (isCanonical_whole pos lt) (by omega) (two_pow_le_whole pos lt)

end Whole

/-- The unpacked number is a power of ten, measured in whole numbers. -/
def isPowerOfTen (k : Nat) : UnpackedFloat → Bool
  | .finite .positive m e _ => m * 2 ^ e.toNat == 10 ^ k * 2 ^ (-e).toNat
  | _ => false

theorem isPowerOfTen_table : ∀ k : Fin Float.exactlyRepresentablePowersOfTen.size,
    isPowerOfTen k Float.exactlyRepresentablePowersOfTen[k].toModel.unpack = true := by
  decide +kernel

theorem zpow_eq_div {b : ℚ} (hb : b ≠ 0) (e : Int) : b ^ e = b ^ e.toNat / b ^ (-e).toNat := by
  rw [eq_div_iff (pow_ne_zero _ hb), ← zpow_natCast, ← zpow_natCast, ← zpow_add₀ hb]
  congr 1
  omega

theorem exists_of_isPowerOfTen {k : Nat} : ∀ {u}, isPowerOfTen k u = true →
    ∃ m e pos, u = .finite .positive m e pos ∧ (m : ℚ) * 2 ^ e = 10 ^ k
  | .finite .positive m e pos, h => by
    have hvalue : (m : ℚ) * 2 ^ e.toNat = 10 ^ k * 2 ^ (-e).toNat := by
      exact_mod_cast beq_iff_eq.mp h
    refine ⟨m, e, pos, rfl, ?_⟩
    rw [zpow_eq_div two_ne_zero, mul_div_assoc', hvalue, mul_div_cancel_right₀ _ (by positivity)]

/-- The powers of ten up to `10 ^ 22` are doubles. -/
theorem unpack_powerOfTen {k : Nat} (h : k < Float.exactlyRepresentablePowersOfTen.size) :
    ∃ m e pos, Float.exactlyRepresentablePowersOfTen[k].toModel.unpack = .finite .positive m e pos ∧
      (m : ℚ) * 2 ^ e = 10 ^ k :=
  exists_of_isPowerOfTen (isPowerOfTen_table ⟨k, h⟩)

/-! ### Bounds -/

section Bounds

variable {v : ℚ} {m : Nat} {e : Int} (hc : IsCanonical m e) (hr : RoundsTo v m e)
include hc hr

theorem RoundsTo.lt (he : e ≤ 971) : v < 2 ^ (1024 : Int) :=
  lt_of_lt_of_le (hr.lt_two_zpow hc) (two_zpow_le (by omega))

theorem RoundsTo.gt : 2 ^ (-1076 : Int) < v := by
  have hhalf : (2 : ℚ) ^ (-1 : Int) ≤ m - gapBelow m e := by
    have hm : (1 : ℚ) ≤ m := by exact_mod_cast hc.pos
    have hgap := gapBelow_le m e
    norm_num
    linarith
  have hleast := hc.least
  calc (2 : ℚ) ^ (-1076 : Int) < 2 ^ (-1 + e) :=
        zpow_lt_zpow_right₀ (by norm_num) (by omega)
    _ = 2 ^ (-1 : Int) * 2 ^ e := two_zpow_add (-1) e
    _ ≤ (m - gapBelow m e) * 2 ^ e := mul_le_mul_of_nonneg_right hhalf (two_zpow_pos e).le
    _ ≤ v := hr.above

omit hr in
/-- What rounds to a positive double has digits other than zero. -/
theorem RoundsTo.digits_pos {digits : Nat} {exponent : Int}
    (hr : RoundsTo (digits * 10 ^ exponent) m e) : 0 < digits := by
  refine Nat.pos_of_ne_zero ?_
  intro hzero
  have hgt := hr.gt hc
  have hpos := two_zpow_pos (-1076)
  rw [hzero, Nat.cast_zero, zero_mul] at hgt
  linarith

end Bounds

/-! ### Results of arithmetic -/

/-- The unpacked number has no sign bit, and is the double that `v` rounds to if there is one. -/
structure IsRounded (v : ℚ) (u : UnpackedFloat) : Prop where
  unsigned : IsUnsigned u
  eq_finite : ∀ {m e}, (hc : IsCanonical m e) → e ≤ 971 → RoundsTo v m e →
    u = .finite .positive m e hc.pos

section Rounded

variable {v : ℚ} {m₁ m₂ : Nat} {e₁ e₂ : Int}

theorem isRounded_infinity (h : 2 ^ (1024 : Int) ≤ v) : IsRounded v (.infinity .positive) := by
  refine ⟨.infinity, fun hc he hr => ?_⟩
  have hlt := hr.lt hc he
  linarith

theorem isRounded_zero (h : v ≤ 2 ^ (-1076 : Int)) : IsRounded v (.zero .positive) := by
  refine ⟨.zero, fun hc _ hr => ?_⟩
  have hgt := hr.gt hc
  linarith

theorem isRounded_mul (pos₁ : 0 < m₁) (pos₂ : 0 < m₂) (fine : 2 ^ 52 ≤ m₁)
    (hv : (m₁ : ℚ) * 2 ^ e₁ * (m₂ * 2 ^ e₂) = v) : IsRounded v
      (mul Format.binary64 (.finite .positive m₁ e₁ pos₁) (.finite .positive m₂ e₂ pos₂)) := by
  refine ⟨isUnsigned_roundWithAccuracy _ _ _, fun hc _ hr => ?_⟩
  have hfine : 2 ^ 52 ≤ m₁ * m₂ := le_trans fine (Nat.le_mul_of_pos_right _ pos₂)
  exact mul_eq .positive .positive pos₁ pos₂ hfine hc (hv ▸ hr)

theorem isRounded_div (pos₁ : 0 < m₁) (pos₂ : 0 < m₂)
    (hv : (m₁ : ℚ) * 2 ^ e₁ / (m₂ * 2 ^ e₂) = v) : IsRounded v
      (div Format.binary64 (.finite .positive m₁ e₁ pos₁) (.finite .positive m₂ e₂ pos₂)) := by
  refine ⟨isUnsigned_roundWithAccuracy _ _ _, fun hc _ hr => ?_⟩
  exact div_eq .positive .positive pos₁ pos₂ hc (hv ▸ hr)

end Rounded

/-! ### Scientific form -/

section Scientific

variable {m : Nat} (pos : 0 < m)

/-- Ten to a power is at least two to it, unless the power is negative. -/
theorem two_zpow_le_ten {n : Int} (h : 0 ≤ n) : (2 : ℚ) ^ n ≤ 10 ^ n := by
  obtain ⟨k, rfl⟩ := Int.eq_ofNat_of_zero_le h
  rw [zpow_natCast, zpow_natCast]
  exact pow_le_pow_left₀ (by norm_num) (by norm_num) k

theorem ten_zpow_le_two {n : Int} (h : n ≤ 0) : (10 : ℚ) ^ n ≤ 2 ^ n := by
  obtain ⟨k, rfl⟩ : ∃ k : Nat, n = -k := ⟨(-n).toNat, by omega⟩
  rw [zpow_neg, zpow_neg, zpow_natCast, zpow_natCast]
  exact inv_anti₀ (by positivity) (pow_le_pow_left₀ (by norm_num) (by norm_num) k)

theorem ten_zpow_toNat {n : Int} (h : 0 ≤ n) : (10 : ℚ) ^ n = 10 ^ n.toNat := by
  rw [← zpow_natCast, Int.toNat_of_nonneg h]

theorem ten_zpow_neg_toNat {n : Int} (h : n ≤ 0) : (10 : ℚ) ^ n = 1 / 10 ^ (-n).toNat := by
  rw [one_div, ← zpow_natCast, Int.toNat_of_nonneg (by omega), zpow_neg, inv_inv]

include pos

/-- With significands of any length. -/
theorem isRounded_ofScientific (n : Int) :
    IsRounded (m * 10 ^ n) (UnpackedFloat.ofScientific Format.binary64 m n) := by
  have hone : (1 : ℚ) ≤ m := by exact_mod_cast pos
  unfold UnpackedFloat.ofScientific
  rw [dif_neg pos.ne']
  show IsRounded _ (if n > 2 ^ 11 then _ else if n < -(2 ^ 11 + m.log2) then _ else
    if 0 ≤ n then _ else _)
  by_cases hhuge : n > 2 ^ 11
  · rw [if_pos hhuge]
    refine isRounded_infinity ?_
    calc (2 : ℚ) ^ (1024 : Int) ≤ 2 ^ n := two_zpow_le (by omega)
      _ ≤ 10 ^ n := two_zpow_le_ten (by omega)
      _ ≤ m * 10 ^ n := le_mul_of_one_le_left (by positivity) hone
  rw [if_neg hhuge]
  by_cases htiny : n < -(2 ^ 11 + m.log2)
  · rw [if_pos htiny]
    refine isRounded_zero ?_
    have hlog : (m : ℚ) ≤ 2 ^ ((m.log2 : Int) + 1) := by
      exact_mod_cast (Nat.lt_log2_self (n := m)).le
    calc (m : ℚ) * 10 ^ n ≤ 2 ^ ((m.log2 : Int) + 1) * 2 ^ n :=
          mul_le_mul hlog (ten_zpow_le_two (by omega)) (by positivity) (by positivity)
      _ = 2 ^ ((m.log2 : Int) + 1 + n) := (two_zpow_add _ _).symm
      _ ≤ 2 ^ (-1076 : Int) := two_zpow_le (by omega)
  rw [if_neg htiny]
  by_cases hn : 0 ≤ n
  · rw [if_pos hn]
    refine isRounded_mul _ _ ?_ ?_
    · show 2 ^ 52 ≤ m <<< 53
      rw [Nat.shiftLeft_eq]
      omega
    · show ((m <<< 53 : Nat) : ℚ) * 2 ^ (-53 : Int) * ((10 ^ n.toNat : Nat) * 2 ^ (0 : Int)) = _
      rw [ten_zpow_toNat hn, Nat.shiftLeft_eq]
      push_cast
      norm_num
      ring
  · rw [if_neg hn]
    refine isRounded_div _ _ ?_
    rw [ten_zpow_neg_toNat (by omega)]
    push_cast
    simp [div_eq_mul_inv]

/-- The exponent of ten in scientific form. -/
def tenExponent (negative : Bool) (k : Nat) : Int :=
  if negative then -k else k

/-- A number in scientific form becomes the double that it rounds to. -/
theorem ofScientific_eq_packed (negative : Bool) (k : Nat) :
    ∃ u, Float.ofScientific m negative k = packed u ∧
      IsRounded (m * 10 ^ tenExponent negative k) u := by
  unfold Float.ofScientific
  split
  · rename_i hfast
    obtain ⟨lt, hk⟩ := hfast
    have hwhole := unpack_whole pos lt
    have hvalue := whole_value lt
    have hsize : k < Float.exactlyRepresentablePowersOfTen.size := by
      simp [Float.exactlyRepresentablePowersOfTen]
      omega
    obtain ⟨p, x, ppos, hp, hten⟩ := unpack_powerOfTen hsize
    cases negative with
    | false =>
      refine ⟨mul Format.binary64 _ _, rfl, ?_⟩
      rw [hwhole, hp]
      refine isRounded_mul _ _ (two_pow_le_whole pos lt) ?_
      rw [hvalue, hten]
      simp [tenExponent]
    | true =>
      refine ⟨div Format.binary64 _ _, rfl, ?_⟩
      rw [hwhole, hp]
      refine isRounded_div _ _ ?_
      rw [hvalue, hten]
      simp [tenExponent, div_eq_mul_inv]
  · have hexp : (if negative = true then Int.negOfNat k else Int.ofNat k) =
        tenExponent negative k := by
      cases negative with
      | false => rfl
      | true => exact Int.negOfNat_eq
    refine ⟨UnpackedFloat.ofScientific Format.binary64 m _, rfl, ?_⟩
    rw [hexp]
    exact isRounded_ofScientific pos _

end Scientific

/-! ### Digits -/

section Digits

variable {digits : Nat} (pos : 0 < digits)

theorem lt_ten_pow_length (digits : Nat) : digits < 10 ^ (Nat.toDigits 10 digits).length :=
  (Nat.length_toDigits_le_iff (by norm_num) Nat.length_toDigits_pos).mp (Nat.le_refl _)

include pos

theorem ten_pow_le_digits : 10 ^ ((Nat.toDigits 10 digits).length - 1) ≤ digits := by
  rcases Nat.eq_zero_or_pos ((Nat.toDigits 10 digits).length - 1) with hzero | hlen
  · rw [hzero]
    exact pos
  · by_contra hlt
    have hle := (Nat.length_toDigits_le_iff (by norm_num) hlen).mpr (Nat.lt_of_not_le hlt)
    omega

omit pos in
theorem two_pow_le_ten_pow : (2 : ℚ) ^ 1080 ≤ 10 ^ 400 := by
  have hbase : (2 : ℚ) ^ 135 ≤ 10 ^ 50 := by norm_num
  calc (2 : ℚ) ^ 1080 = (2 ^ 135) ^ 8 := by rw [← pow_mul]
    _ ≤ (10 ^ 50) ^ 8 := pow_le_pow_left₀ (by positivity) hbase 8
    _ = 10 ^ 400 := by rw [← pow_mul]

omit pos in
/-- A decimal number is below the power of ten of its size. -/
theorem decimal_le_size (digits : Nat) (exponent : Int) :
    (digits : ℚ) * 10 ^ exponent ≤ 10 ^ ((Nat.toDigits 10 digits).length + exponent) := by
  have hdigits : (digits : ℚ) ≤ 10 ^ ((Nat.toDigits 10 digits).length : Int) := by
    exact_mod_cast (lt_ten_pow_length digits).le
  rw [zpow_add₀ (by norm_num)]
  exact mul_le_mul_of_nonneg_right hdigits (by positivity)

/-- Its leading digit is at least one. -/
theorem size_le_decimal (exponent : Int) :
    (10 : ℚ) ^ ((Nat.toDigits 10 digits).length - 1 + exponent) ≤ digits * 10 ^ exponent := by
  have hlen : 0 < (Nat.toDigits 10 digits).length := Nat.length_toDigits_pos
  have hpred : ((Nat.toDigits 10 digits).length : Int) - 1 =
      ((Nat.toDigits 10 digits).length - 1 : Nat) := by omega
  have hdigits : (10 : ℚ) ^ (((Nat.toDigits 10 digits).length : Int) - 1) ≤ digits := by
    rw [hpred]
    exact_mod_cast ten_pow_le_digits pos
  rw [zpow_add₀ (by norm_num)]
  exact mul_le_mul_of_nonneg_right hdigits (by positivity)

/-- The digits of a numeral become the double that they round to. -/
theorem scaled_eq_packed (exponent : Int) :
    ∃ u, Numeral.scaled digits exponent = packed u ∧ IsRounded (digits * 10 ^ exponent) u := by
  unfold Numeral.scaled
  simp only [pos.ne', decide_false, Bool.false_or, decide_eq_true_eq]
  split
  · rename_i htiny
    refine ⟨.zero .positive, by decide +kernel, isRounded_zero ?_⟩
    calc (digits : ℚ) * 10 ^ exponent
        ≤ 10 ^ ((Nat.toDigits 10 digits).length + exponent) := decimal_le_size digits exponent
      _ ≤ 10 ^ (-400 : Int) := zpow_le_zpow_right₀ (by norm_num) (by omega)
      _ ≤ 2 ^ (-1080 : Int) := inv_anti₀ (by positivity) two_pow_le_ten_pow
      _ ≤ 2 ^ (-1076 : Int) := two_zpow_le (by norm_num)
  · split
    · rename_i hhuge
      refine ⟨.infinity .positive, by decide +kernel, isRounded_infinity ?_⟩
      calc (2 : ℚ) ^ (1024 : Int) ≤ 2 ^ (1080 : Int) := two_zpow_le (by norm_num)
        _ ≤ 10 ^ (400 : Int) := two_pow_le_ten_pow
        _ ≤ 10 ^ ((Nat.toDigits 10 digits).length - 1 + exponent) :=
            zpow_le_zpow_right₀ (by norm_num) (by omega)
        _ ≤ digits * 10 ^ exponent := size_le_decimal pos exponent
    · split
      · have hexp : tenExponent true exponent.natAbs = exponent := by
          show -(exponent.natAbs : Int) = exponent
          omega
        have := ofScientific_eq_packed pos true exponent.natAbs
        rwa [hexp] at this
      · have hexp : tenExponent false exponent.natAbs = exponent := by
          show (exponent.natAbs : Int) = exponent
          omega
        have := ofScientific_eq_packed pos false exponent.natAbs
        rwa [hexp] at this

end Digits

end Formulae.Number
