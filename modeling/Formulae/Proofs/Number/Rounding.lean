import Mathlib.Algebra.Order.Field.Power
import Mathlib.Data.Rat.Cast.Order
import Mathlib.Tactic.FieldSimp
import Mathlib.Tactic.Linarith
import Mathlib.Tactic.NormNum
import Mathlib.Tactic.Positivity
import Mathlib.Tactic.Ring

/-!
# Proofs.Number.Rounding — what the arithmetic of floating-point numbers rounds to

A positive double is `m · 2 ^ e` for one canonical pair of a significand and an exponent
(`IsCanonical`). The numbers that round to it lie between the middles to its neighbours (`RoundsTo`); the
middles do if the significand is even.

* `Tells`: what the residual bits of a significand say of the fraction that was cut off.
* `roundWithAccuracy_eq`: a number that is known as accurately as that is rounded to the double that it
  rounds to.
* `round_eq`: so is a number with all of its bits.
* `div_eq`, `mul_eq`: so are quotients and products.
-/

namespace Formulae.Number

open Float.Model Float.Model.UnpackedFloat

/-- The significand and the exponent of a positive double. -/
structure IsCanonical (m : Nat) (e : Int) : Prop where
  pos : 0 < m
  lt : m < 2 ^ 53
  least : -1074 ≤ e
  /-- Only with the least exponent the leading bit may be missing. -/
  normal : m < 2 ^ 52 → e = -1074

/-- How far below the double the numbers lie that round to it, in units of the last place. -/
def gapBelow (m : Nat) (e : Int) : ℚ :=
  if m = 2 ^ 52 ∧ -1074 < e then 1 / 4 else 1 / 2

/-- The number rounds to `m · 2 ^ e`. -/
structure RoundsTo (v : ℚ) (m : Nat) (e : Int) : Prop where
  above : (m - gapBelow m e) * 2 ^ e ≤ v
  below : v ≤ (m + 1 / 2) * 2 ^ e
  strict : m % 2 = 1 → (m - gapBelow m e) * 2 ^ e < v ∧ v < (m + 1 / 2) * 2 ^ e

/-! ### Residual bits -/

/-- What is known of the fraction that was cut off. -/
def Tells : Accuracy → ℚ → Prop
  | .exact, f => f = 0
  | .inexact .lt, f => 0 < f ∧ f < 1 / 2
  | .inexact .eq, f => f = 1 / 2
  | .inexact .gt, f => 1 / 2 < f ∧ f < 1

theorem Tells.bounds {a : Accuracy} {f : ℚ} (h : Tells a f) : 0 ≤ f ∧ f < 1 := by
  rcases a with _ | _ | _ | _ <;> simp only [Tells] at h <;> constructor <;> linarith

theorem accuracy_ofMantissaAndAccuracy (m : Nat) (a : Accuracy) :
    (ExtendedMantissa.ofMantissaAndAccuracy m a).accuracy = a ∧
      (ExtendedMantissa.ofMantissaAndAccuracy m a).mantissa = m := by
  rcases a with _ | _ | _ | _ <;> exact ⟨rfl, rfl⟩

theorem tells_shiftRightOne {em : ExtendedMantissa} {x : ℚ}
    (h : Tells em.accuracy (x - em.mantissa)) :
    Tells em.shiftRightOne.accuracy (x / 2 - em.shiftRightOne.mantissa) := by
  obtain ⟨m, round, sticky⟩ := em
  have hsplit : (m : ℚ) = 2 * (m / 2 : Nat) + (m % 2 : Nat) := by
    exact_mod_cast (Nat.div_add_mod m 2).symm
  rcases Nat.mod_two_eq_zero_or_one m with hm | hm <;> rw [hm] at hsplit <;>
    cases round <;> cases sticky <;>
    simp_all [ExtendedMantissa.accuracy, ExtendedMantissa.shiftRightOne, Tells] <;>
    first | linarith | (constructor <;> linarith)

theorem tells_shiftRight {em : ExtendedMantissa} {x : ℚ} (h : Tells em.accuracy (x - em.mantissa))
    (n : Nat) : Tells (em >>> n).accuracy (x / 2 ^ n - (em >>> n).mantissa) := by
  show Tells (n.repeat ExtendedMantissa.shiftRightOne em).accuracy
    (x / 2 ^ n - (n.repeat ExtendedMantissa.shiftRightOne em).mantissa)
  induction n with
  | zero => simpa [Nat.repeat] using h
  | succ n ih =>
    have hnext := tells_shiftRightOne ih
    rwa [div_div, ← pow_succ] at hnext

theorem tells_accuracyOfFraction {num den : Nat} (h : num < den) :
    Tells (accuracyOfFraction num den) (num / den) := by
  have hden : (0 : ℚ) < den := by exact_mod_cast Nat.lt_of_le_of_lt (Nat.zero_le num) h
  unfold accuracyOfFraction
  by_cases hzero : num = 0
  · simp [hzero, Tells]
  · have hnum : (0 : ℚ) < num := by exact_mod_cast Nat.pos_of_ne_zero hzero
    have hlt : (num : ℚ) < den := by exact_mod_cast h
    rw [if_neg hzero]
    rcases hc : compare (2 * num) den with _ | _ | _
    · have hhalf : (2 * num : ℚ) < den := by exact_mod_cast Nat.compare_eq_lt.mp hc
      exact ⟨by positivity, by rw [div_lt_iff₀ hden]; linarith⟩
    · have hhalf : (2 * num : ℚ) = den := by exact_mod_cast Nat.compare_eq_eq.mp hc
      show (num : ℚ) / den = 1 / 2
      rw [div_eq_div_iff hden.ne' (by norm_num)]
      linarith
    · have hhalf : (den : ℚ) < 2 * num := by exact_mod_cast Nat.compare_eq_gt.mp hc
      exact ⟨by rw [lt_div_iff₀ hden]; linarith, by rw [div_lt_one hden]; exact hlt⟩

/-- A significand is rounded to the whole number nearest to it and to what was cut off, an even one if two
are. -/
theorem roundToNearestEven_eq {a : Accuracy} {whole m : Nat} {x : ℚ} (h : Tells a (x - whole))
    (above : (m : ℚ) - 1 / 2 ≤ x) (below : x ≤ m + 1 / 2)
    (strict : m % 2 = 1 → (m : ℚ) - 1 / 2 < x ∧ x < m + 1 / 2) :
    a.roundToNearestEven whole = m := by
  -- two whole numbers less than one apart are equal
  have hnear : ∀ k : Nat, (k : ℚ) < m + 1 → (m : ℚ) < k + 1 → k = m := by
    intro k hk hm
    have hk' : k < m + 1 := by exact_mod_cast hk
    have hm' : m < k + 1 := by exact_mod_cast hm
    omega
  rcases a with _ | _ | _ | _ <;> simp only [Tells] at h <;>
    simp only [Accuracy.roundToNearestEven]
  · exact hnear whole (by linarith) (by linarith)
  · exact hnear whole (by linarith) (by linarith)
  · -- a tie: the candidates are `whole` and `whole + 1`, and `m` is the even one
    have heven : m % 2 = 0 := by
      by_contra hodd
      obtain ⟨hlow, hhigh⟩ := strict (by omega)
      have hwhole := hnear whole (by linarith) (by linarith)
      rw [hwhole] at h
      linarith
    have hle : whole ≤ m := by
      have : (whole : ℚ) ≤ m := by linarith
      exact_mod_cast this
    have hle' : m ≤ whole + 1 := by
      have : (m : ℚ) ≤ whole + 1 := by linarith
      exact_mod_cast this
    omega
  · exact hnear (whole + 1) (by push_cast; linarith) (by push_cast; linarith)

/-! ### Rounding to a double -/

section Rounding

variable {whole m : Nat} {exponent e : Int} {a : Accuracy} {f v : ℚ}

theorem two_zpow_pos (n : Int) : (0 : ℚ) < 2 ^ n := by positivity

theorem two_zpow_add (a b : Int) : (2 : ℚ) ^ (a + b) = 2 ^ a * 2 ^ b :=
  zpow_add₀ (by norm_num) a b

theorem two_zpow_le {a b : Int} (h : a ≤ b) : (2 : ℚ) ^ a ≤ 2 ^ b :=
  zpow_le_zpow_right₀ (by norm_num) h

theorem mantissaBits_binary64 : (Format.binary64.mantissaBits : Int) = 53 := rfl

theorem minExponent_binary64 : Format.binary64.minExponent = -1074 := rfl

theorem targetExponent_eq (whole : Nat) (exponent : Int) :
    Format.binary64.targetExponent (totalExponent whole exponent) =
      max (whole.log2 + exponent - 52) (-1074) := by
  simp only [Format.targetExponent, totalExponent, mantissaBits_binary64, minExponent_binary64]
  omega

/-- What is known of a number whose significand still has too many bits. -/
structure Shows (whole : Nat) (exponent : Int) (a : Accuracy) (v : ℚ) : Prop where
  value : ∃ f, v = (whole + f) * 2 ^ exponent ∧ Tells a f
  fine : exponent ≤ max (whole.log2 + exponent - 52) (-1074)

/-- The exponent that the number is shifted to. -/
structure IsTarget (t : Int) (v : ℚ) : Prop where
  least : -1074 ≤ t
  lt : v < 2 ^ (53 + t)
  le : -1074 < t → 2 ^ (52 + t) ≤ v

theorem Shows.isTarget (h : Shows whole exponent a v) :
    IsTarget (max (whole.log2 + exponent - 52) (-1074)) v := by
  obtain ⟨⟨f, rfl, hf⟩, hfine⟩ := h
  obtain ⟨hf0, hf1⟩ := hf.bounds
  have hexp := two_zpow_pos exponent
  refine ⟨by omega, ?_, fun ht => ?_⟩
  · have hwhole : (whole : ℚ) + 1 ≤ 2 ^ ((whole.log2 : Int) + 1) := by
      exact_mod_cast Nat.lt_log2_self (n := whole)
    calc (whole + f) * 2 ^ exponent < (whole + 1) * 2 ^ exponent := by
          exact mul_lt_mul_of_pos_right (by linarith) hexp
      _ ≤ 2 ^ ((whole.log2 : Int) + 1) * 2 ^ exponent :=
          mul_le_mul_of_nonneg_right hwhole hexp.le
      _ = 2 ^ ((whole.log2 : Int) + 1 + exponent) := (two_zpow_add _ _).symm
      _ ≤ _ := two_zpow_le (by omega)
  · have hne : whole ≠ 0 := by
      rintro rfl
      simp at hfine ht
      omega
    have hwhole : (2 : ℚ) ^ (whole.log2 : Int) ≤ whole := by
      exact_mod_cast Nat.log2_self_le hne
    calc (2 : ℚ) ^ (52 + max ((whole.log2 : Int) + exponent - 52) (-1074))
        = 2 ^ ((whole.log2 : Int) + exponent) := by congr 1; omega
      _ = 2 ^ (whole.log2 : Int) * 2 ^ exponent := two_zpow_add _ _
      _ ≤ (whole + f) * 2 ^ exponent := mul_le_mul_of_nonneg_right (by linarith) hexp.le

theorem Shows.shift (h : Shows whole exponent a v) :
    let t := max ((whole.log2 : Int) + exponent - 52) (-1074)
    (shiftToTargetExponent Format.binary64 whole exponent a).2 = t ∧
      Tells (shiftToTargetExponent Format.binary64 whole exponent a).1.accuracy
        (v / 2 ^ t - (shiftToTargetExponent Format.binary64 whole exponent a).1.mantissa) := by
  intro t
  obtain ⟨⟨f, rfl, hf⟩, hfine⟩ := h
  obtain ⟨hacc, hwhole⟩ := accuracy_ofMantissaAndAccuracy whole a
  unfold shiftToTargetExponent shiftToExponent
  simp only [targetExponent_eq]
  refine ⟨by omega, ?_⟩
  have hstart : Tells (ExtendedMantissa.ofMantissaAndAccuracy whole a).accuracy
      ((whole + f) - (ExtendedMantissa.ofMantissaAndAccuracy whole a).mantissa : ℚ) := by
    rw [hacc, hwhole, add_sub_cancel_left]
    exact hf
  have hshift := tells_shiftRight hstart (t - exponent).toNat
  have hscale : ((whole + f) * 2 ^ exponent / 2 ^ t : ℚ) = (whole + f) / 2 ^ (t - exponent).toNat := by
    have hpow : (2 : ℚ) ^ t = 2 ^ (t - exponent).toNat * 2 ^ exponent := by
      rw [← zpow_natCast, ← two_zpow_add]
      congr 1
      omega
    rw [hpow, mul_div_mul_right _ _ (two_zpow_pos exponent).ne']
  rw [hscale]
  exact hshift

theorem gapBelow_le (m : Nat) (e : Int) : gapBelow m e ≤ 1 / 2 := by
  unfold gapBelow
  split <;> norm_num

theorem RoundsTo.lt_two_zpow (hr : RoundsTo v m e) (hc : IsCanonical m e) : v < 2 ^ (53 + e) := by
  have hm : (m : ℚ) + 1 ≤ 2 ^ 53 := by exact_mod_cast hc.lt
  calc v ≤ (m + 1 / 2) * 2 ^ e := hr.below
    _ < 2 ^ 53 * 2 ^ e := mul_lt_mul_of_pos_right (by linarith) (two_zpow_pos e)
    _ = 2 ^ (53 + e) := by rw [two_zpow_add]; norm_num

/-- A number that rounds to a double is shifted to its exponent, or to the one below if it lies under the
double and its exponent changes there. -/
theorem IsTarget.eq_or {t : Int} (ht : IsTarget t v) (hc : IsCanonical m e) (hr : RoundsTo v m e) :
    t = e ∨ t = e - 1 ∧ m = 2 ^ 52 ∧ -1074 < e ∧ v < 2 ^ (52 + e) := by
  have hexp := two_zpow_pos e
  have hle : t ≤ e := by
    by_contra hlt
    have hlow := ht.le (by have := hc.least; omega)
    have hup := hr.lt_two_zpow hc
    have hstep := two_zpow_le (show 53 + e ≤ 52 + t by omega)
    linarith
  rcases Int.lt_or_eq_of_le hle with hlt | rfl
  · have hleast : -1074 < e := by have := ht.least; omega
    have hnormal : 2 ^ 52 ≤ m := by
      by_contra hsub
      have := hc.normal (by omega)
      omega
    have hup : v < 2 ^ (52 + e) :=
      lt_of_lt_of_le ht.lt (two_zpow_le (show 53 + t ≤ 52 + e by omega))
    have hunder : (m : ℚ) - gapBelow m e < 2 ^ 52 := by
      have hv : (m - gapBelow m e) * 2 ^ e < 2 ^ 52 * 2 ^ e := calc
        (m - gapBelow m e) * 2 ^ e ≤ v := hr.above
        _ < 2 ^ (52 + e) := hup
        _ = 2 ^ 52 * 2 ^ e := by rw [two_zpow_add]; norm_num
      exact lt_of_mul_lt_mul_right hv hexp.le
    have heq : m = 2 ^ 52 := by
      have hgap := gapBelow_le m e
      have : (m : ℚ) < 2 ^ 52 + 1 := by linarith
      have : m < 2 ^ 52 + 1 := by exact_mod_cast this
      omega
    refine .inr ⟨?_, heq, hleast, hup⟩
    by_contra hne
    have hlow : (2 : ℚ) ^ 51 * 2 ^ e ≤ v := by
      have hgap := gapBelow_le m e
      refine le_trans (mul_le_mul_of_nonneg_right ?_ hexp.le) hr.above
      rw [heq]
      push_cast
      rw [heq] at hgap
      linarith
    have hsmall : v < 2 ^ 51 * 2 ^ e := calc
      v < 2 ^ (53 + t) := ht.lt
      _ ≤ 2 ^ (51 + e) := two_zpow_le (by omega)
      _ = 2 ^ 51 * 2 ^ e := by rw [two_zpow_add]; norm_num
    linarith
  · exact .inl rfl

theorem IsCanonical.target (hc : IsCanonical m e) : max ((m.log2 : Int) + e - 52) (-1074) = e := by
  have hleast := hc.least
  have hlog : m.log2 < 53 := (Nat.log2_lt hc.pos.ne').mpr hc.lt
  by_cases hnormal : m < 2 ^ 52
  · have hlog' : m.log2 < 52 := (Nat.log2_lt hc.pos.ne').mpr hnormal
    have := hc.normal hnormal
    omega
  · have hlog' : 52 ≤ m.log2 := (Nat.le_log2 hc.pos.ne').mpr (by omega)
    omega

/-- What is left of a double that is written with another exponent. -/
theorem mantissa_of_target (hle : exponent ≤ e)
    (ht : max ((whole.log2 : Int) + exponent - 52) (-1074) = e)
    (hv : (whole : ℚ) * 2 ^ exponent = m * 2 ^ e) :
    (shiftToTargetExponent Format.binary64 whole exponent .exact).2 = e ∧
      (shiftToTargetExponent Format.binary64 whole exponent .exact).1.mantissa = m := by
  have hshows : Shows whole exponent .exact (m * 2 ^ e) :=
    ⟨⟨0, by rw [← hv, add_zero], rfl⟩, by rw [ht]; exact hle⟩
  obtain ⟨hexp, htells⟩ := hshows.shift
  rw [ht] at hexp htells
  refine ⟨hexp, ?_⟩
  rw [mul_div_cancel_right₀ _ (two_zpow_pos e).ne'] at htells
  obtain ⟨hlow, hhigh⟩ := htells.bounds
  generalize (shiftToTargetExponent Format.binary64 whole exponent .exact).1.mantissa = k at *
  have hk : (k : ℚ) ≤ m := by linarith
  have hk' : (m : ℚ) < k + 1 := by linarith
  have hle : k ≤ m := by exact_mod_cast hk
  have hlt : m < k + 1 := by exact_mod_cast hk'
  omega

/-- The first shift and the rounding leave the double, or twice its significand below its exponent. -/
theorem Shows.rounded (hs : Shows whole exponent a v) (hc : IsCanonical m e) (hr : RoundsTo v m e) :
    let first := shiftToTargetExponent Format.binary64 whole exponent a
    first.2 ≤ e ∧
      max ((first.1.roundedMantissa.log2 : Int) + first.2 - 52) (-1074) = e ∧
      (first.1.roundedMantissa : ℚ) * 2 ^ first.2 = m * 2 ^ e := by
  intro first
  obtain ⟨hexp, htells⟩ := hs.shift
  have htarget := hs.isTarget
  generalize max ((whole.log2 : Int) + exponent - 52) (-1074) = t at *
  have hfirst : first.2 = t := hexp
  have htexp := two_zpow_pos t
  rw [hfirst]
  rcases htarget.eq_or hc hr with rfl | ⟨rfl, rfl, hleast, hunder⟩
  · have hround : first.1.roundedMantissa = m := by
      have hgap := gapBelow_le m t
      refine roundToNearestEven_eq htells ?_ ?_ fun hodd => ?_
      · rw [le_div_iff₀ htexp]
        exact le_trans (mul_le_mul_of_nonneg_right (by linarith) htexp.le) hr.above
      · rw [div_le_iff₀ htexp]
        exact hr.below
      · obtain ⟨hlow, hhigh⟩ := hr.strict hodd
        rw [lt_div_iff₀ htexp, div_lt_iff₀ htexp]
        exact ⟨lt_of_le_of_lt (mul_le_mul_of_nonneg_right (by linarith) htexp.le) hlow, hhigh⟩
    rw [hround]
    exact ⟨le_refl _, hc.target, rfl⟩
  · have hdouble : (2 : ℚ) ^ e = 2 * 2 ^ (e - 1) := by
      rw [← zpow_one_add₀ (by norm_num)]
      congr 1
      omega
    have hround : first.1.roundedMantissa = 2 ^ 53 := by
      refine roundToNearestEven_eq htells ?_ ?_ fun hodd => by omega
      · have hlow := hr.above
        rw [gapBelow, if_pos ⟨rfl, hleast⟩, hdouble] at hlow
        rw [le_div_iff₀ htexp]
        push_cast at hlow ⊢
        linarith
      · rw [two_zpow_add, hdouble] at hunder
        rw [div_le_iff₀ htexp]
        push_cast
        norm_num at hunder ⊢
        linarith
    rw [hround, hdouble, Nat.log2_two_pow]
    refine ⟨by omega, by push_cast; omega, ?_⟩
    push_cast
    ring

/-- A number that is known up to the residual bits is rounded to the double that it rounds to. -/
theorem roundWithAccuracy_eq (sign : Sign) (hs : Shows whole exponent a v) (hc : IsCanonical m e)
    (hr : RoundsTo v m e) :
    roundWithAccuracy Format.binary64 sign whole exponent a = .finite sign m e hc.pos := by
  obtain ⟨hle, htarget, hvalue⟩ := hs.rounded hc hr
  obtain ⟨rfl, rfl⟩ := mantissa_of_target hle htarget hvalue
  exact dif_neg hc.pos.ne'

theorem log2_mul_two_pow {n : Nat} (pos : 0 < n) (k : Nat) : (n * 2 ^ k).log2 = n.log2 + k := by
  induction k with
  | zero => simp
  | succ k ih =>
    have hne : n * 2 ^ k ≠ 0 := (Nat.mul_pos pos (Nat.two_pow_pos k)).ne'
    rw [Nat.pow_succ, ← Nat.mul_assoc, Nat.mul_comm, Nat.log2_two_mul hne, ih, Nat.add_assoc]

/-- Rounding first writes a number with all of its bits with as small an exponent as a double needs. -/
theorem exists_shows_round (sign : Sign) (pos : 0 < whole) (exponent : Int) :
    ∃ whole' exponent', Shows whole' exponent' .exact (whole * 2 ^ exponent) ∧
      UnpackedFloat.round Format.binary64 sign whole exponent =
        roundWithAccuracy Format.binary64 sign whole' exponent' .exact := by
  generalize hk : (exponent - max ((whole.log2 : Int) + exponent - 52) (-1074)).toNat = k
  have hlog := log2_mul_two_pow pos k
  refine ⟨whole * 2 ^ k, exponent - k, ⟨⟨0, ?_, rfl⟩, ?_⟩, ?_⟩
  · have hexp : exponent = k + (exponent - k) := by omega
    rw [add_zero]
    push_cast
    nth_rewrite 1 [hexp]
    rw [two_zpow_add, zpow_natCast, mul_assoc]
  · rw [hlog]
    omega
  · unfold UnpackedFloat.round decreaseExponent
    simp only [targetExponent_eq, Nat.shiftLeft_eq, hk]

/-- A number with all of its bits is rounded to the double that it rounds to. -/
theorem round_eq (sign : Sign) (pos : 0 < whole) (hc : IsCanonical m e)
    (hr : RoundsTo (whole * 2 ^ exponent) m e) :
    UnpackedFloat.round Format.binary64 sign whole exponent = .finite sign m e hc.pos := by
  obtain ⟨_, _, hshows, hround⟩ := exists_shows_round sign pos exponent
  exact hround.trans (roundWithAccuracy_eq sign hshows hc hr)

/-! ### Products and quotients -/

variable {m₁ m₂ : Nat} {e₁ e₂ : Int}

/-- A product of which the factors have enough bits together is rounded to what it rounds to. -/
theorem mul_eq (s₁ s₂ : Sign) (pos₁ : 0 < m₁) (pos₂ : 0 < m₂) (fine : 2 ^ 52 ≤ m₁ * m₂)
    (hc : IsCanonical m e) (hr : RoundsTo (m₁ * 2 ^ e₁ * (m₂ * 2 ^ e₂)) m e) :
    mul Format.binary64 (.finite s₁ m₁ e₁ pos₁) (.finite s₂ m₂ e₂ pos₂) =
      .finite (s₁ * s₂) m e hc.pos := by
  have hshows : Shows (m₁ * m₂) (e₁ + e₂) .exact (m₁ * 2 ^ e₁ * (m₂ * 2 ^ e₂)) := by
    have hlog : 52 ≤ (m₁ * m₂).log2 := (Nat.le_log2 (Nat.mul_pos pos₁ pos₂).ne').mpr fine
    refine ⟨⟨0, ?_, rfl⟩, by omega⟩
    rw [two_zpow_add]
    push_cast
    ring
  exact roundWithAccuracy_eq _ hshows hc hr

/-- The quotient of the significands has enough bits. -/
theorem shows_divCore (pos₁ : 0 < m₁) (pos₂ : 0 < m₂) :
    Shows (divCore Format.binary64 m₁ e₁ m₂ e₂).1 (divCore Format.binary64 m₁ e₁ m₂ e₂).2.1
      (divCore Format.binary64 m₁ e₁ m₂ e₂).2.2 (m₁ * 2 ^ e₁ / (m₂ * 2 ^ e₂)) := by
  have htarget : Format.binary64.targetExponent (totalExponent m₁ e₁ - totalExponent m₂ e₂) =
      max ((m₁.log2 : Int) + e₁ - (m₂.log2 + e₂) - 53) (-1074) := by
    simp only [Format.targetExponent, totalExponent, mantissaBits_binary64, minExponent_binary64]
    omega
  unfold divCore
  simp only [htarget, Nat.shiftLeft_eq]
  generalize ht : min (e₁ - e₂) (max ((m₁.log2 : Int) + e₁ - (m₂.log2 + e₂) - 53) (-1074)) = t
  generalize hs : (e₁ - e₂ - t).toNat = s
  have hsplit : e₁ = e₂ + (s + t) := by omega
  have hm₂ : (0 : ℚ) < m₂ := by exact_mod_cast pos₂
  constructor
  · refine ⟨((m₁ * 2 ^ s % m₂ : Nat) : ℚ) / m₂, ?_,
      tells_accuracyOfFraction (Nat.mod_lt _ pos₂)⟩
    have hdiv : (m₁ * 2 ^ s : ℚ) = m₂ * (m₁ * 2 ^ s / m₂ : Nat) + (m₁ * 2 ^ s % m₂ : Nat) := by
      exact_mod_cast (Nat.div_add_mod (m₁ * 2 ^ s) m₂).symm
    have hquotient : ((m₁ * 2 ^ s / m₂ : Nat) : ℚ) + ((m₁ * 2 ^ s % m₂ : Nat) : ℚ) / m₂ =
        m₁ * 2 ^ s / m₂ := by
      rw [hdiv]
      field_simp
    rw [hquotient, hsplit, two_zpow_add, two_zpow_add, zpow_natCast]
    have := two_zpow_pos e₂
    field_simp
  · by_cases hleast : t ≤ -1074
    · omega
    · have henough : 52 + m₂.log2 + 1 ≤ m₁.log2 + s := by omega
      have hwhole : 2 ^ 52 ≤ m₁ * 2 ^ s / m₂ := by
        rw [Nat.le_div_iff_mul_le pos₂]
        calc 2 ^ 52 * m₂ ≤ 2 ^ 52 * 2 ^ (m₂.log2 + 1) :=
              Nat.mul_le_mul_left _ Nat.lt_log2_self.le
          _ = 2 ^ (52 + m₂.log2 + 1) := by rw [← Nat.pow_add, Nat.add_assoc]
          _ ≤ 2 ^ (m₁.log2 + s) := Nat.pow_le_pow_right (by norm_num) henough
          _ = 2 ^ m₁.log2 * 2 ^ s := Nat.pow_add _ _ _
          _ ≤ m₁ * 2 ^ s := Nat.mul_le_mul_right _ (Nat.log2_self_le pos₁.ne')
      have hlog : 52 ≤ (m₁ * 2 ^ s / m₂).log2 := (Nat.le_log2 (by omega)).mpr hwhole
      omega

/-- A quotient is rounded to what it rounds to. -/
theorem div_eq (s₁ s₂ : Sign) (pos₁ : 0 < m₁) (pos₂ : 0 < m₂) (hc : IsCanonical m e)
    (hr : RoundsTo (m₁ * 2 ^ e₁ / (m₂ * 2 ^ e₂)) m e) :
    div Format.binary64 (.finite s₁ m₁ e₁ pos₁) (.finite s₂ m₂ e₂ pos₂) =
      .finite (s₁ / s₂) m e hc.pos :=
  roundWithAccuracy_eq _ (shows_divCore pos₁ pos₂) hc hr

end Rounding

end Formulae.Number
