import Formulae.Number.Truth
import Formulae.Proofs.Number.Scientific

/-!
# Proofs.Number.Finite — which doubles are finite

A double is finite if it is neither infinite nor not a number.

* `isFinite_of_checkFinite`: what passes the check is finite.
* `roundWithAccuracy_le`: a number that is no larger than a double is rounded to one with no greater
  exponent, so it does not overflow.
* `isFinite_add_ofNat`: counting up from a finite number, everything that is not above a finite one is
  finite.
* `ofNat_div_mem_unit`: a random number made of 53 bits lies from zero to one.
-/

namespace Formulae.Number

open Float.Model Float.Model.UnpackedFloat

/-! ### What is unpacked from bits -/

/-- A zero or a finite number of the given sign. -/
inductive IsFiniteOf (sign : Sign) : UnpackedFloat → Prop where
  | zero : IsFiniteOf sign (.zero sign)
  | finite (m : Nat) (e : Int) (pos : 0 < m) : IsFiniteOf sign (.finite sign m e pos)

theorem IsFiniteOf.isFinite {sign : Sign} {u : UnpackedFloat} (h : IsFiniteOf sign u) :
    u.isFinite = true := by
  cases h <;> rfl

theorem IsFiniteOf.isUnsigned {u : UnpackedFloat} (h : IsFiniteOf .positive u) : IsUnsigned u := by
  cases h with
  | zero => exact .zero
  | finite m e pos => exact .finite m e pos

/-- A zero, or a finite number with an exponent up to a bound. -/
inductive IsUpTo (sign : Sign) (bound : Int) : UnpackedFloat → Prop where
  | zero : IsUpTo sign bound (.zero sign)
  | finite (m : Nat) (e : Int) (pos : 0 < m) (le : e ≤ bound) :
      IsUpTo sign bound (.finite sign m e pos)

theorem IsUpTo.mono {sign : Sign} {bound bound' : Int} {u : UnpackedFloat} (h : IsUpTo sign bound u)
    (hb : bound ≤ bound') : IsUpTo sign bound' u := by
  cases h with
  | zero => exact .zero
  | finite m e pos le => exact .finite m e pos (by omega)

theorem isUpTo_dite {sign : Sign} {bound : Int} {p : Prop} [Decidable p] {m : Nat} {e : Int}
    (pos : ¬ p → 0 < m) (le : e ≤ bound) :
    IsUpTo sign bound (if h : p then .zero sign else .finite sign m e (pos h)) := by
  by_cases h : p
  · rw [dif_pos h]
    exact .zero
  · rw [dif_neg h]
    exact .finite m e (pos h) le

/-- What the bits of a double are unpacked to. -/
inductive Unpacks (bits : BitVec 64) : UnpackedFloat → Prop where
  | special {u : UnpackedFloat} (special : u.isFinite = false)
      (greatest : (@unpackExponent Format.binary64 bits).toNat = 2047) : Unpacks bits u
  | zero (least : (@unpackExponent Format.binary64 bits).toNat = 0)
      (none : (@unpackMantissa Format.binary64 bits).toNat = 0) :
      Unpacks bits (.zero (Sign.ofBitVec (@unpackSign Format.binary64 bits)))
  | subnormal (least : (@unpackExponent Format.binary64 bits).toNat = 0)
      (pos : 0 < (@unpackMantissa Format.binary64 bits).toNat) :
      Unpacks bits (.finite (Sign.ofBitVec (@unpackSign Format.binary64 bits))
        (@unpackMantissa Format.binary64 bits).toNat (-1074) pos)
  | normal (least : 0 < (@unpackExponent Format.binary64 bits).toNat)
      (greatest : (@unpackExponent Format.binary64 bits).toNat < 2047)
      (pos : 0 < 2 ^ 52 + (@unpackMantissa Format.binary64 bits).toNat) :
      Unpacks bits (.finite (Sign.ofBitVec (@unpackSign Format.binary64 bits))
        (2 ^ 52 + (@unpackMantissa Format.binary64 bits).toNat)
        ((@unpackExponent Format.binary64 bits).toNat - 1075) pos)

theorem finite_congr {sign : Sign} {m m' : Nat} {e e' : Int} {pos : 0 < m} {pos' : 0 < m'} (hm : m = m')
    (he : e = e') : UnpackedFloat.finite sign m e pos = .finite sign m' e' pos' := by
  subst hm he
  rfl

theorem unpacks (bits : BitVec 64) : Unpacks bits (UnpackedFloat.unpack Format.binary64 bits) := by
  have hexponent : (@unpackExponent Format.binary64 bits).toNat < 2 ^ 11 :=
    (@unpackExponent Format.binary64 bits).isLt
  delta UnpackedFloat.unpack
  dsimp only
  by_cases hgreatest : @unpackExponent Format.binary64 bits = -1#11
  · have hexp : (@unpackExponent Format.binary64 bits).toNat = 2047 := congrArg BitVec.toNat hgreatest
    rw [if_pos hgreatest]
    refine .special ?_ hexp
    split <;> rfl
  have hlt : (@unpackExponent Format.binary64 bits).toNat ≠ 2047 := fun heq =>
    hgreatest (BitVec.eq_of_toNat_eq heq)
  rw [if_neg hgreatest]
  by_cases hleast : @unpackExponent Format.binary64 bits = 0#11
  · have hexp : (@unpackExponent Format.binary64 bits).toNat = 0 := congrArg BitVec.toNat hleast
    have he : ((@unpackExponent Format.binary64 bits).toNat : Int) -
        (Format.binary64.exponentBias + Format.binary64.mantissaBitsWithoutImplicit) + 1 = -1074 := by
      rw [hexp]
      rfl
    rw [if_pos hleast]
    by_cases hnone : @unpackMantissa Format.binary64 bits = 0#52
    · rw [dif_pos hnone]
      exact .zero hexp (congrArg BitVec.toNat hnone)
    · rw [dif_neg hnone]
      have hpos : 0 < (@unpackMantissa Format.binary64 bits).toNat :=
        Nat.pos_of_ne_zero fun heq => hnone (BitVec.eq_of_toNat_eq heq)
      exact (congrArg (Unpacks bits) (finite_congr rfl he)).mpr (.subnormal hexp hpos)
  · have hexp : (@unpackExponent Format.binary64 bits).toNat ≠ 0 := fun heq =>
      hleast (BitVec.eq_of_toNat_eq heq)
    have hm : (1#1 ++ @unpackMantissa Format.binary64 bits).toNat =
        2 ^ 52 + (@unpackMantissa Format.binary64 bits).toNat := by
      rw [BitVec.toNat_append, ← Nat.shiftLeft_add_eq_or_of_lt (BitVec.isLt _), Nat.shiftLeft_eq]
      rfl
    rw [if_neg hleast]
    exact (congrArg (Unpacks bits) (finite_congr hm rfl)).mpr
      (.normal (by omega) (by omega) (by omega))

/-- Bits whose exponent is not the greatest one are those of a finite number. -/
theorem isFiniteOf_unpack {bits : BitVec 64} (h : @unpackExponent Format.binary64 bits ≠ -1#11) :
    IsFiniteOf (Sign.ofBitVec (@unpackSign Format.binary64 bits))
      (UnpackedFloat.unpack Format.binary64 bits) := by
  have hbits := unpacks bits
  generalize UnpackedFloat.unpack Format.binary64 bits = u at hbits
  cases hbits with
  | special _ greatest => exact absurd (BitVec.eq_of_toNat_eq greatest) h
  | zero => exact .zero
  | subnormal _ pos => exact .finite _ _ pos
  | normal _ _ pos => exact .finite _ _ pos

theorem isFiniteOf_packComponents (sign : Sign) {exponent : BitVec 11} (mantissa : BitVec 52)
    (h : exponent ≠ -1#11) :
    IsFiniteOf sign (UnpackedFloat.unpack Format.binary64
      (packComponents Format.binary64 sign exponent mantissa)) := by
  have hexponent : @unpackExponent Format.binary64
      (packComponents Format.binary64 sign exponent mantissa) ≠ -1#11 :=
    ne_of_eq_of_ne unpackExponent_packComponents h
  have hfinite := isFiniteOf_unpack hexponent
  rwa [unpackSign_packed] at hfinite

/-- What is packed with an exponent in the range of doubles stays finite. -/
theorem isFiniteOf_packed (sign : Sign) {m : Nat} {e : Int} (pos : 0 < m) (he : e ≤ 971) :
    IsFiniteOf sign (packed (.finite sign m e pos)).toModel.unpack := by
  have hfits : ¬ 2 ^ Format.binary64.exponentBits ≤ (e + Format.binary64.exponentBias +
      Format.binary64.mantissaBitsWithoutImplicit).toNat + 1 := by
    show ¬ 2 ^ 11 ≤ (e + 1023 + 52).toNat + 1
    omega
  have hne : BitVec.ofNat 11 (e + Format.binary64.exponentBias +
      Format.binary64.mantissaBitsWithoutImplicit).toNat ≠ -1#11 := by
    intro heq
    have hnat := congrArg BitVec.toNat heq
    rw [BitVec.toNat_ofNat] at hnat
    change (e + 1023 + 52).toNat % 2 ^ 11 = 2047 at hnat
    omega
  show IsFiniteOf sign (UnpackedFloat.unpack Format.binary64
    (UnpackedFloat.pack Format.binary64 (.finite sign m e pos)))
  unfold UnpackedFloat.pack
  dsimp only
  rw [if_neg hfits]
  split
  · exact isFiniteOf_packComponents sign _ hne
  · exact isFiniteOf_packComponents sign _ (by decide)

theorem IsUpTo.unpack_packed {sign : Sign} {u : UnpackedFloat} (h : IsUpTo sign 971 u) :
    IsFiniteOf sign (packed u).toModel.unpack := by
  cases h with
  | zero =>
    have hzero : (packed (.zero sign)).toModel.unpack = .zero sign := by cases sign <;> rfl
    rw [hzero]
    exact .zero
  | finite m e pos le => exact isFiniteOf_packed sign pos le

/-- Beyond that range it is infinite. -/
theorem unpack_packed_of_gt (sign : Sign) {m : Nat} {e : Int} (pos : 0 < m) (he : 971 < e) :
    (packed (.finite sign m e pos)).toModel.unpack = .infinity sign := by
  have hover : 2 ^ Format.binary64.exponentBits ≤ (e + Format.binary64.exponentBias +
      Format.binary64.mantissaBitsWithoutImplicit).toNat + 1 := by
    show 2 ^ 11 ≤ (e + 1023 + 52).toNat + 1
    omega
  show UnpackedFloat.unpack Format.binary64
    (UnpackedFloat.pack Format.binary64 (.finite sign m e pos)) = _
  unfold UnpackedFloat.pack
  dsimp only
  rw [if_pos hover]
  cases sign <;> rfl

/-- Packing keeps a number without a sign such a number. -/
theorem IsUnsigned.unpack_packed {u : UnpackedFloat} (h : IsUnsigned u) :
    IsUnsigned (packed u).toModel.unpack := by
  cases h with
  | zero =>
    have hzero : (packed (.zero .positive)).toModel.unpack = .zero .positive := rfl
    exact hzero ▸ .zero
  | infinity =>
    have hinf : (packed (.infinity .positive)).toModel.unpack = .infinity .positive := rfl
    exact hinf ▸ .infinity
  | finite m e pos =>
    rcases Int.lt_or_le 971 e with hgt | hle
    · rw [unpack_packed_of_gt .positive pos hgt]
      exact .infinity
    · exact (isFiniteOf_packed .positive pos hle).isUnsigned

/-- The significand and the exponent of a double are canonical. -/
theorem isCanonical_of_unpack {x : Float} {sign : Sign} {m : Nat} {e : Int} {pos : 0 < m}
    (h : x.toModel.unpack = .finite sign m e pos) : IsCanonical m e ∧ e ≤ 971 := by
  have hbits : Unpacks x.toModel.toBits.toBitVec (.finite sign m e pos) := h ▸ unpacks _
  have hmantissa : (@unpackMantissa Format.binary64 x.toModel.toBits.toBitVec).toNat < 2 ^ 52 :=
    (@unpackMantissa Format.binary64 x.toModel.toBits.toBitVec).isLt
  cases hbits with
  | special special => cases special
  | subnormal => exact ⟨⟨pos, by omega, by omega, fun _ => rfl⟩, by omega⟩
  | normal => exact ⟨⟨pos, by omega, by omega, fun hlt => by omega⟩, by omega⟩

/-! ### Checks -/

theorem isFinite_eq_unpack (x : Float) : x.isFinite = x.toModel.unpack.isFinite := rfl

/-- A finite double is zero or has a significand. -/
theorem unpack_of_isFinite {x : Float} (h : x.isFinite = true) :
    (∃ sign, x.toModel.unpack = .zero sign) ∨
      ∃ sign m e pos, x.toModel.unpack = .finite sign m e pos := by
  rw [isFinite_eq_unpack] at h
  cases hu : x.toModel.unpack with
  | notANumber => rw [hu] at h; cases h
  | infinity => rw [hu] at h; cases h
  | zero sign => exact .inl ⟨sign, rfl⟩
  | finite sign m e pos => exact .inr ⟨sign, m, e, pos, rfl⟩

/-- What passes the check is finite. -/
theorem isFinite_of_checkFinite {x y : Float} (h : checkFinite x = .ok y) : y.isFinite = true := by
  unfold checkFinite at h
  split at h
  · cases h
  · split at h
    · cases h
    · rename_i hnan hinf
      obtain rfl := Except.ok.inj h
      change ¬ x.toModel.unpack.isNaN = true at hnan
      change ¬ x.toModel.unpack.isInf = true at hinf
      rw [isFinite_eq_unpack]
      cases hu : x.toModel.unpack with
      | notANumber => exact absurd (congrArg UnpackedFloat.isNaN hu) hnan
      | infinity sign => exact absurd (congrArg UnpackedFloat.isInf hu) hinf
      | zero => rfl
      | finite => rfl

theorem checkFinite_of_isFinite {x : Float} (h : x.isFinite = true) : checkFinite x = .ok x := by
  have hnan : x.isNaN = false := by
    show x.toModel.unpack.isNaN = false
    rcases unpack_of_isFinite h with ⟨sign, hu⟩ | ⟨sign, m, e, pos, hu⟩ <;> rw [hu] <;> rfl
  have hinf : x.isInf = false := by
    show x.toModel.unpack.isInf = false
    rcases unpack_of_isFinite h with ⟨sign, hu⟩ | ⟨sign, m, e, pos, hu⟩ <;> rw [hu] <;> rfl
  unfold checkFinite
  rw [hnan, hinf]
  rfl

theorem isFinite_ofBool (b : Bool) : (ofBool b).isFinite = true := by
  cases b <;> decide +kernel

/-- The numbers from zero to one are finite. -/
theorem isFinite_of_mem_unit {x : Float} (hlow : 0.0 ≤ x) (hhigh : x < 1.0) : x.isFinite = true := by
  have hzero : (0.0 : Float).toModel.unpack = .zero .positive := rfl
  have hone : (1.0 : Float).toModel.unpack = .finite .positive (2 ^ 52) (-52) (by norm_num) := rfl
  have hlow' : (0.0 : Float).toModel.unpack.le x.toModel.unpack = true := of_decide_eq_true hlow
  have hhigh' : x.toModel.unpack.lt (1.0 : Float).toModel.unpack = true := of_decide_eq_true hhigh
  rw [hzero] at hlow'
  rw [hone] at hhigh'
  rw [isFinite_eq_unpack]
  generalize x.toModel.unpack = u at *
  cases u with
  | notANumber => cases hhigh'
  | infinity sign =>
    cases sign with
    | positive => cases hhigh'
    | negative => cases hlow'
  | zero => rfl
  | finite => rfl

/-! ### Sums -/

theorem two_zpow_split {t e : Int} (h : t ≤ e) : (2 : ℚ) ^ e = 2 ^ (e - t).toNat * 2 ^ t := by
  rw [← zpow_natCast, ← two_zpow_add]
  congr 1
  omega

section Rounding

variable {whole m : Nat} {exponent e : Int} {a : Accuracy} {v : ℚ}

/-- Rounding to a whole number does not pass one that is at least as large. -/
theorem roundToNearestEven_le {bound : Nat} {x : ℚ} (h : Tells a (x - whole)) (hx : x ≤ bound) :
    a.roundToNearestEven whole ≤ bound := by
  have hwhole : whole ≤ bound := by
    have : (whole : ℚ) ≤ bound := by linarith [h.bounds.1]
    exact_mod_cast this
  -- what is cut off leaves room for one more
  have hnext : 0 < x - whole → whole + 1 ≤ bound := by
    intro hpos
    have : (whole : ℚ) < bound := by linarith
    have : whole < bound := by exact_mod_cast this
    omega
  rcases a with _ | _ | _ | _ <;> simp only [Tells] at h <;>
    simp only [Accuracy.roundToNearestEven]
  · exact hwhole
  · exact hwhole
  · have := hnext (by linarith)
    omega
  · exact hnext (by linarith)

/-- In units that are no greater than its own, a double has room for the bits of whatever it bounds. -/
theorem log2_add_le {k : Nat} {t : Int} (hc : IsCanonical m e) (ht : t ≤ e)
    (hk : k ≤ m * 2 ^ (e - t).toNat) : (k.log2 : Int) + t - 52 ≤ e := by
  rcases Nat.eq_zero_or_pos k with rfl | pos
  · simp only [Nat.log2_zero]
    omega
  · have hlt : k < 2 ^ (53 + (e - t).toNat) := by
      rw [Nat.pow_add]
      exact lt_of_le_of_lt hk (Nat.mul_lt_mul_of_pos_right hc.lt (Nat.two_pow_pos _))
    have := (Nat.log2_lt pos.ne').mpr hlt
    omega

/-- A number that is no larger than a double is rounded to one with no greater exponent. -/
theorem roundWithAccuracy_le (sign : Sign) (hs : Shows whole exponent a v) (hc : IsCanonical m e)
    (hv : v ≤ m * 2 ^ e) :
    IsUpTo sign e (roundWithAccuracy Format.binary64 sign whole exponent a) := by
  obtain ⟨hexp, htells⟩ := hs.shift
  have htarget := hs.isTarget
  generalize max ((whole.log2 : Int) + exponent - 52) (-1074) = t at *
  have hleast := hc.least
  have hm : (m : ℚ) < 2 ^ 53 := by exact_mod_cast hc.lt
  have hte : t ≤ e := by
    by_contra hlt
    have hlow := htarget.le (by omega)
    have hup : (m : ℚ) * 2 ^ e < 2 ^ (53 + e) := by
      rw [two_zpow_add]
      exact mul_lt_mul_of_pos_right (by exact_mod_cast hm) (two_zpow_pos e)
    have hstep := two_zpow_le (show 53 + e ≤ 52 + t by omega)
    linarith
  -- measured in the units of the shifted number, the double is whole
  have hbound : v / 2 ^ t ≤ (m * 2 ^ (e - t).toNat : Nat) := by
    rw [div_le_iff₀ (two_zpow_pos t)]
    push_cast
    rw [mul_assoc, ← two_zpow_split hte]
    exact hv
  have hrounded := roundToNearestEven_le htells hbound
  unfold roundWithAccuracy
  dsimp only
  refine isUpTo_dite _ ?_
  show (shiftToTargetExponent Format.binary64 _ (shiftToTargetExponent Format.binary64 whole exponent
    a).2 .exact).2 ≤ e
  rw [hexp]
  unfold shiftToTargetExponent shiftToExponent
  simp only [targetExponent_eq]
  have hfinal := log2_add_le hc hte hrounded
  unfold shiftToTargetExponent shiftToExponent at hfinal
  unfold ExtendedMantissa.roundedMantissa
  simp only [targetExponent_eq] at hfinal
  omega

/-- The same for a number with all of its bits. -/
theorem round_le (sign : Sign) (pos : 0 < whole) (hc : IsCanonical m e)
    (hv : (whole : ℚ) * 2 ^ exponent ≤ m * 2 ^ e) :
    IsUpTo sign e (UnpackedFloat.round Format.binary64 sign whole exponent) := by
  obtain ⟨_, _, hshows, hround⟩ := exists_shows_round sign pos exponent
  exact hround ▸ roundWithAccuracy_le sign hshows hc hv

end Rounding

/-- A sum of a double and a number without a sign, both in units of `2 ^ t`. -/
theorem normalize_le (sign : Sign) {m b : Nat} {e t n : Int} (hc : IsCanonical m e) (he : e ≤ 971)
    (ht : t ≤ e) (hn : sign.apply (m * 2 ^ (e - t).toNat : Nat) + b = n) :
    IsUnsigned (UnpackedFloat.normalize Format.binary64 n t .positive) ∨
      ∃ s, IsUpTo s 971 (UnpackedFloat.normalize Format.binary64 n t .positive) := by
  unfold UnpackedFloat.normalize
  rcases hcmp : compare n 0 with _ | _ | _
  · -- less than zero, so the double is, and the sum lies between them
    have hneg : n < 0 := Int.compare_eq_lt.mp hcmp
    have hle : (-n).toNat ≤ m * 2 ^ (e - t).toNat := by
      cases sign <;> simp only [Sign.apply] at hn <;> omega
    refine .inr ⟨.negative, IsUpTo.mono (round_le .negative (by omega) hc ?_) he⟩
    rw [two_zpow_split ht, ← mul_assoc]
    exact mul_le_mul_of_nonneg_right (by exact_mod_cast hle) (two_zpow_pos t).le
  · exact .inl .zero
  · exact .inl (isUnsigned_roundWithAccuracy _ _ _)

theorem isUnsigned_ofNat (k : Nat) : IsUnsigned (Float.ofNat k).toModel.unpack := by
  rcases Nat.eq_zero_or_pos k with rfl | pos
  · have hzero : (Float.ofNat 0).toModel.unpack = .zero .positive := rfl
    exact hzero ▸ .zero
  · obtain ⟨u, hu, hrounded⟩ := ofScientific_eq_packed pos false 0
    have hpacked : Float.ofNat k = packed u := hu
    rw [hpacked]
    exact hrounded.unsigned.unpack_packed

/-- Two numbers are added in units of the smaller exponent. -/
theorem add_finite {s s' : Sign} {m m' : Nat} {e e' t : Int} (pos : 0 < m) (pos' : 0 < m')
    (ht : min e e' = t) :
    UnpackedFloat.add Format.binary64 (.finite s m e pos) (.finite s' m' e' pos') =
      UnpackedFloat.normalize Format.binary64 (s.apply (m * 2 ^ (e - t).toNat : Nat) +
        s'.apply (m' * 2 ^ (e' - t).toNat : Nat)) t .positive := by
  subst ht
  rw [← Nat.shiftLeft_eq, ← Nat.shiftLeft_eq]
  rfl

/-- The sum of a finite double and a number without a sign has no sign or is not far below zero. -/
theorem add_unsigned {x : Float} (hx : x.isFinite = true) {v : UnpackedFloat} (hv : IsUnsigned v) :
    IsUnsigned (UnpackedFloat.add Format.binary64 x.toModel.unpack v) ∨
      ∃ sign, IsUpTo sign 971 (UnpackedFloat.add Format.binary64 x.toModel.unpack v) := by
  rcases unpack_of_isFinite hx with ⟨sign, hu⟩ | ⟨sign, m, e, pos, hu⟩
  · rw [hu]
    cases hv with
    | zero =>
      cases sign
      · exact .inl .zero
      · exact .inl .zero
    | finite m e pos => exact .inl (.finite m e pos)
    | infinity => exact .inl .infinity
  · obtain ⟨hc, he⟩ := isCanonical_of_unpack hu
    rw [hu]
    cases hv with
    | zero => exact .inr ⟨sign, .finite m e pos he⟩
    | infinity => exact .inl .infinity
    | finite m' e' pos' =>
      rw [add_finite pos pos' rfl]
      exact normalize_le sign hc he (by omega) rfl

/-- Counting up from a finite number, everything that is not above a finite one is finite. -/
theorem isFinite_add_ofNat {lower upper : Float} {k : Nat} (hlower : lower.isFinite = true)
    (hupper : upper.isFinite = true) (h : ¬ upper < lower + Float.ofNat k) :
    (lower + Float.ofNat k).isFinite = true := by
  have hsum : lower + Float.ofNat k = packed (UnpackedFloat.add Format.binary64 lower.toModel.unpack
    (Float.ofNat k).toModel.unpack) := rfl
  have hlt : ¬ upper.toModel.unpack.lt (lower + Float.ofNat k).toModel.unpack = true := by
    intro hlt
    exact h (decide_eq_true hlt)
  rw [isFinite_eq_unpack]
  rcases add_unsigned hlower (isUnsigned_ofNat k) with hunsigned | ⟨sign, hle⟩
  · have := hunsigned.unpack_packed
    rw [← hsum] at this
    generalize (lower + Float.ofNat k).toModel.unpack = u at *
    cases this with
    | zero => rfl
    | finite => rfl
    | infinity =>
      refine absurd ?_ hlt
      rcases unpack_of_isFinite hupper with ⟨sign, hu⟩ | ⟨sign, m, e, pos, hu⟩
      · rw [hu]
        rfl
      · rw [hu]
        rfl
  · rw [hsum]
    exact hle.unpack_packed.isFinite

/-! ### Fractions of `2 ^ 53` -/

/-- A natural number below `2 ^ 53` is a double. -/
theorem unpack_ofNat {n : Nat} (pos : 0 < n) (lt : n < 2 ^ 53) :
    (Float.ofNat n).toModel.unpack =
      .finite .positive (n * 2 ^ (52 - n.log2)) (n.log2 - 52) (isCanonical_whole pos lt).pos := by
  have hc := isCanonical_whole pos lt
  have hlog := (Nat.log2_lt pos.ne').mpr lt
  obtain ⟨u, hu, hrounded⟩ := ofScientific_eq_packed pos false 0
  have hpacked : Float.ofNat n = packed u := hu
  have hvalue : (n : ℚ) * 10 ^ tenExponent false 0 =
      (n * 2 ^ (52 - n.log2) : Nat) * 2 ^ ((n.log2 : Int) - 52) := by
    rw [whole_value lt]
    simp [tenExponent]
  have hfinite := hrounded.eq_finite hc (by omega) (hvalue ▸ roundsTo_self _ _)
  rw [hpacked, hfinite]
  exact unpack_pack_normal hc (by omega) (two_pow_le_whole pos lt)

/-- Divided by `2 ^ 53` it keeps its significand. -/
theorem unpack_ofNat_div {n : Nat} (pos : 0 < n) (lt : n < 2 ^ 53) :
    (Float.ofNat n / 9007199254740992.0).toModel.unpack =
      .finite .positive (n * 2 ^ (52 - n.log2)) (n.log2 - 52 - 53) (isCanonical_whole pos lt).pos := by
  have hc := isCanonical_whole pos lt
  have hlog := (Nat.log2_lt pos.ne').mpr lt
  have hc' : IsCanonical (n * 2 ^ (52 - n.log2)) (n.log2 - 52 - 53) :=
    ⟨hc.pos, hc.lt, by omega, fun h => by have := two_pow_le_whole pos lt; omega⟩
  have hunit : (9007199254740992.0 : Float).toModel.unpack =
      .finite .positive (2 ^ 52) 1 (by norm_num) := rfl
  have hvalue : ((n * 2 ^ (52 - n.log2) : Nat) : ℚ) * 2 ^ ((n.log2 : Int) - 52) /
      ((2 ^ 52 : Nat) * 2 ^ (1 : Int)) =
        (n * 2 ^ (52 - n.log2) : Nat) * 2 ^ ((n.log2 : Int) - 52 - 53) := by
    have hsplit : ((n.log2 : Int) - 52) = n.log2 - 52 - 53 + 53 := by omega
    rw [div_eq_iff (by positivity)]
    nth_rewrite 1 [hsplit]
    rw [two_zpow_add, mul_assoc]
    norm_num
  have hpacked : Float.ofNat n / 9007199254740992.0 = packed (UnpackedFloat.div Format.binary64
    (Float.ofNat n).toModel.unpack (9007199254740992.0 : Float).toModel.unpack) := rfl
  rw [hpacked, unpack_ofNat pos lt, hunit,
    div_eq .positive .positive hc.pos (by norm_num) hc' (hvalue ▸ roundsTo_self _ _)]
  exact unpack_pack_normal hc' (by omega) (two_pow_le_whole pos lt)

/-- A natural number below `2 ^ 53`, divided by that, lies from zero, inclusive, to one, exclusive. -/
theorem ofNat_div_mem_unit {n : Nat} (lt : n < 2 ^ 53) :
    0.0 ≤ Float.ofNat n / 9007199254740992.0 ∧ Float.ofNat n / 9007199254740992.0 < 1.0 := by
  rcases Nat.eq_zero_or_pos n with rfl | pos
  · exact ⟨by decide +kernel, by decide +kernel⟩
  · have hlog := (Nat.log2_lt pos.ne').mpr lt
    have hzero : (0.0 : Float).toModel.unpack = .zero .positive := rfl
    have hone : (1.0 : Float).toModel.unpack = .finite .positive (2 ^ 52) (-52) (by norm_num) := rfl
    have hle : (0.0 : Float).toModel.unpack.le
        (Float.ofNat n / 9007199254740992.0).toModel.unpack = true := by
      rw [hzero, unpack_ofNat_div pos lt]
      rfl
    have hlt : (Float.ofNat n / 9007199254740992.0).toModel.unpack.lt
        (1.0 : Float).toModel.unpack = true := by
      have hcmp : compare ((n.log2 : Int) - 52 - 53) (-52) = .lt :=
        Int.compare_eq_lt.mpr (by omega)
      rw [unpack_ofNat_div pos lt, hone]
      show (some ((compare ((n.log2 : Int) - 52 - 53) (-52)).then _) == some Ordering.lt) = true
      rw [hcmp]
      rfl
    exact ⟨decide_eq_true hle, decide_eq_true hlt⟩

end Formulae.Number
