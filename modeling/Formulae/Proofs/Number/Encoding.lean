import Formulae.Number.Dyadic
import Formulae.Proofs.Number.Rounding

/-!
# Proofs.Number.Encoding — doubles and their bits

The bits of a double are its sign, its biased exponent and the significand without its leading bit.

* `ofFloat?_eq_some`: a positive double that is decoded has a canonical significand and exponent and is
  encoded as those again.
* `unpack_pack_normal`: arithmetic sees of a double what was packed into it.
* `IsUnsigned`: results of arithmetic without a sign bit.
-/

namespace Formulae.Number

open Float.Model Float.Model.UnpackedFloat

/-- Doubles of the same bits are the same. -/
theorem eq_of_toBits {x y : Float} (h : x.toBits.toNat = y.toBits.toNat) : x = y := by
  obtain ⟨⟨bits, valid⟩⟩ := x
  obtain ⟨⟨bits', valid'⟩⟩ := y
  obtain rfl : bits = bits' := UInt64.toNat_inj.mp h
  rfl

/-- The double of an unpacked number. -/
def packed (u : UnpackedFloat) : Float :=
  Float.ofModel (Float.Model.pack u)

theorem toNat_packed (u : UnpackedFloat) :
    (packed u).toBits.toNat = (UnpackedFloat.pack Format.binary64 u).toNat := rfl

theorem toNat_packComponents (sign : Sign) (exponent : BitVec 11) (mantissa : BitVec 52) :
    (packComponents Format.binary64 sign exponent mantissa).toNat =
      sign.toBitVec.toNat * 2 ^ 63 + exponent.toNat * 2 ^ 52 + mantissa.toNat := by
  have happend : ∀ {w v : Nat} (a : BitVec w) (b : BitVec v),
      (a ++ b).toNat = a.toNat * 2 ^ v + b.toNat := by
    intro w v a b
    rw [BitVec.toNat_append, ← Nat.shiftLeft_add_eq_or_of_lt b.isLt, Nat.shiftLeft_eq]
  show (sign.toBitVec ++ exponent ++ mantissa).toNat = _
  rw [happend, happend]
  ring

theorem unpackSign_packed (sign : Sign) (exponent : BitVec 11) (mantissa : BitVec 52) :
    Sign.ofBitVec (unpackSign (packComponents Format.binary64 sign exponent mantissa)) = sign := by
  have hbits : unpackSign (packComponents Format.binary64 sign exponent mantissa) =
      sign.toBitVec := by
    have hexp := exponent.isLt
    have hmantissa := mantissa.isLt
    refine BitVec.eq_of_toNat_eq ?_
    unfold unpackSign
    rw [BitVec.toNat_cast, BitVec.extractLsb_toNat, toNat_packComponents, Nat.shiftRight_eq_div_pow]
    show (_ * 2 ^ 63 + _ * 2 ^ 52 + _) / 2 ^ 63 % 2 = _
    have hsign := sign.toBitVec.isLt
    omega
  rw [hbits]
  cases sign <;> rfl

section Finite

/-- The bits of a finite double without its sign. -/
def magnitudeBits (m : Nat) (e : Int) : Nat :=
  if m < 2 ^ 52 then m else (e + 1075).toNat * 2 ^ 52 + (m - 2 ^ 52)

variable {m : Nat} {e : Int} (hc : IsCanonical m e) (he : e ≤ 971)
include hc

theorem IsCanonical.log2_lt : m.log2 < 53 :=
  (Nat.log2_lt hc.pos.ne').mpr hc.lt

include he in
theorem pack_finite (sign : Sign) :
    UnpackedFloat.pack Format.binary64 (.finite sign m e hc.pos) =
      if m < 2 ^ 52 then packComponents Format.binary64 sign (0#11) (BitVec.ofNat 52 m)
      else packComponents Format.binary64 sign (BitVec.ofNat 11 (e + 1075).toNat)
        (BitVec.ofNat 52 m) := by
  have hbiased : (e + Format.binary64.exponentBias +
      Format.binary64.mantissaBitsWithoutImplicit).toNat = (e + 1075).toNat := by
    show (e + 1023 + 52).toNat = _
    omega
  have hfits : ¬ 2 ^ Format.binary64.exponentBits ≤ (e + 1075).toNat + 1 := by
    show ¬ 2 ^ 11 ≤ (e + 1075).toNat + 1
    omega
  unfold UnpackedFloat.pack
  dsimp only
  rw [hbiased, if_neg hfits]
  show (if m.log2 + 1 = 53 then _ else _) = _
  by_cases hsub : m < 2 ^ 52
  · have hlog : m.log2 < 52 := (Nat.log2_lt hc.pos.ne').mpr hsub
    rw [if_neg (by omega), if_pos hsub]
  · have hlog : 52 ≤ m.log2 := (Nat.le_log2 hc.pos.ne').mpr (by omega)
    have hlog' := hc.log2_lt
    rw [if_pos (by omega), if_neg hsub]

include he in
/-- The bits of a finite double. -/
theorem toNat_packed_finite (sign : Sign) :
    (packed (.finite sign m e hc.pos)).toBits.toNat =
      sign.toBitVec.toNat * 2 ^ 63 + magnitudeBits m e := by
  have hlt := hc.lt
  rw [toNat_packed, pack_finite hc he]
  unfold magnitudeBits
  by_cases hsub : m < 2 ^ 52
  · have hmantissa : (BitVec.ofNat 52 m).toNat = m := by
      rw [BitVec.toNat_ofNat, Nat.mod_eq_of_lt hsub]
    rw [if_pos hsub, if_pos hsub, toNat_packComponents, hmantissa]
    show _ + 0 * 2 ^ 52 + m = _
    omega
  · have hexp : (e + 1075).toNat % 2 ^ 11 = (e + 1075).toNat := Nat.mod_eq_of_lt (by omega)
    have hmantissa : m % 2 ^ 52 = m - 2 ^ 52 := by omega
    rw [if_neg hsub, if_neg hsub, toNat_packComponents, BitVec.toNat_ofNat, BitVec.toNat_ofNat,
      hexp, hmantissa, Nat.add_assoc]

omit hc in
/-- What the bits of a normal double are unpacked to. -/
theorem unpack_normal {bits : BitVec 64} {exponent : BitVec 11} {mantissa : BitVec 52}
    (hexp : @unpackExponent Format.binary64 bits = exponent)
    (hmantissa : @unpackMantissa Format.binary64 bits = mantissa) (finite : exponent ≠ -1#11)
    (normal : exponent ≠ 0#11) (pos : 0 < (1#1 ++ mantissa).toNat) :
    UnpackedFloat.unpack Format.binary64 bits =
      .finite (Sign.ofBitVec (@unpackSign Format.binary64 bits)) (1#1 ++ mantissa).toNat
        (exponent.toNat - 1075) pos := by
  subst hexp hmantissa
  exact (if_neg finite).trans (if_neg normal)

/-- Arithmetic sees of a double with all of its bits what was packed into it. -/
theorem unpack_pack_normal {sign : Sign} (he : e ≤ 971) (normal : 2 ^ 52 ≤ m) :
    (packed (.finite sign m e hc.pos)).toModel.unpack = .finite sign m e hc.pos := by
  have hlt := hc.lt
  have hleast := hc.least
  have hexp : (BitVec.ofNat 11 (e + 1075).toNat).toNat = (e + 1075).toNat := by
    rw [BitVec.toNat_ofNat, Nat.mod_eq_of_lt (by omega)]
  have hmantissa : (1#1 ++ BitVec.ofNat 52 m).toNat = m := by
    rw [BitVec.toNat_append, ← Nat.shiftLeft_add_eq_or_of_lt (BitVec.isLt _), BitVec.toNat_ofNat,
      BitVec.toNat_ofNat, Nat.shiftLeft_eq]
    omega
  have hne : ∀ k : BitVec 11, k.toNat ≠ (e + 1075).toNat →
      BitVec.ofNat 11 (e + 1075).toNat ≠ k := by
    rintro k hk rfl
    exact hk hexp
  have hfinite : BitVec.ofNat 11 (e + 1075).toNat ≠ -1#11 := by
    refine hne _ ?_
    show 2047 ≠ _
    omega
  have hnormal : BitVec.ofNat 11 (e + 1075).toNat ≠ 0#11 := by
    refine hne _ ?_
    show 0 ≠ _
    omega
  show UnpackedFloat.unpack Format.binary64 (UnpackedFloat.pack Format.binary64 _) = _
  rw [pack_finite hc he, if_neg (by omega),
    unpack_normal unpackExponent_packComponents unpackMantissa_packComponents hfinite hnormal
      (lt_of_lt_of_eq hc.pos hmantissa.symm), UnpackedFloat.finite.injEq, unpackSign_packed]
  refine ⟨rfl, hmantissa, ?_⟩
  rw [hexp]
  omega

end Finite

/-- A double without a sign bit that is decoded as a positive number is the one that is encoded from it. -/
theorem ofFloat?_eq_some {x : Float} {d : Dyadic} (h : Dyadic.ofFloat? x = some d)
    (unsigned : x.toBits.toNat < 2 ^ 63) (pos : 0 < d.significand) :
    ∃ hc : IsCanonical d.significand d.exponent, d.exponent ≤ 971 ∧ d.negative = false ∧
      x = packed (.finite .positive d.significand d.exponent hc.pos) := by
  have hidden : Dyadic.hidden = 2 ^ 52 := rfl
  unfold Dyadic.ofFloat? at h
  simp only [Nat.shiftRight_eq_div_pow, hidden] at h
  generalize hbits : x.toBits.toNat = bits at *
  have hsign : ¬ bits / 2 ^ 63 = 1 := by omega
  have hpositive : Sign.positive.toBitVec.toNat = 0 := rfl
  split at h
  · cases h
  · split at h
    · obtain rfl := Option.some.inj h
      have hc : IsCanonical (bits % 2 ^ 52) (-1074) :=
        ⟨pos, by omega, by omega, fun _ => rfl⟩
      refine ⟨hc, by norm_num, decide_eq_false hsign, eq_of_toBits ?_⟩
      rw [toNat_packed_finite hc (by norm_num), hpositive, magnitudeBits,
        if_pos (Nat.mod_lt _ (by norm_num)), hbits]
      omega
    · obtain rfl := Option.some.inj h
      have hc : IsCanonical (2 ^ 52 + bits % 2 ^ 52) ((bits / 2 ^ 52 % 2048 : Nat) - 1075) :=
        ⟨pos, by omega, by omega, fun hlt => by omega⟩
      have hfits : ((bits / 2 ^ 52 % 2048 : Nat) : Int) - 1075 ≤ 971 := by omega
      refine ⟨hc, hfits, decide_eq_false hsign, eq_of_toBits ?_⟩
      rw [toNat_packed_finite hc hfits, hpositive, magnitudeBits, if_neg (by omega), hbits]
      omega

/-- Without a sign bit there is one zero. -/
theorem ofFloat?_eq_zero {x : Float} {d : Dyadic} (h : Dyadic.ofFloat? x = some d)
    (unsigned : x.toBits.toNat < 2 ^ 63) (zero : d.significand = 0) :
    d.negative = false ∧ x = 0.0 := by
  have hidden : Dyadic.hidden = 2 ^ 52 := rfl
  have hzero : (0.0 : Float).toBits.toNat = 0 := by decide +kernel
  unfold Dyadic.ofFloat? at h
  simp only [Nat.shiftRight_eq_div_pow, hidden] at h
  generalize hbits : x.toBits.toNat = bits at *
  have hsign : ¬ bits / 2 ^ 63 = 1 := by omega
  split at h
  · cases h
  · split at h
    · obtain rfl := Option.some.inj h
      have hfraction : bits % 2 ^ 52 = 0 := zero
      refine ⟨decide_eq_false hsign, eq_of_toBits ?_⟩
      rw [hbits, hzero]
      omega
    · obtain rfl := Option.some.inj h
      have hfraction : 2 ^ 52 + bits % 2 ^ 52 = 0 := zero
      omega

/-- A finite double can be decoded. -/
theorem exists_ofFloat? {x : Float} (h : x.isFinite = true) : ∃ d, Dyadic.ofFloat? x = some d := by
  by_cases hbiased : x.toBits.toNat >>> 52 % 2048 = 2047
  · have hexp : @unpackExponent Format.binary64 x.toModel.toBits.toBitVec = -1#11 := by
      refine BitVec.eq_of_toNat_eq ?_
      unfold unpackExponent
      rw [BitVec.toNat_cast, BitVec.extractLsb_toNat]
      exact hbiased
    have hunpack : x.isFinite =
        (UnpackedFloat.unpack Format.binary64 x.toModel.toBits.toBitVec).isFinite := rfl
    rw [hunpack] at h
    delta UnpackedFloat.unpack at h
    rw [if_pos hexp] at h
    split at h <;> cases h
  · unfold Dyadic.ofFloat?
    simp only [hbiased, if_false]
    split <;> exact ⟨_, rfl⟩

/-! ### Results without a sign bit -/

/-- Neither negative nor not a number. -/
inductive IsUnsigned : UnpackedFloat → Prop where
  | zero : IsUnsigned (.zero .positive)
  | finite (m : Nat) (e : Int) (pos : 0 < m) : IsUnsigned (.finite .positive m e pos)
  | infinity : IsUnsigned (.infinity .positive)

theorem IsUnsigned.toNat_lt {u : UnpackedFloat} (h : IsUnsigned u) :
    (packed u).toBits.toNat < 2 ^ 63 := by
  have hparts : ∀ (exponent : BitVec 11) (mantissa : BitVec 52),
      (packComponents Format.binary64 .positive exponent mantissa).toNat < 2 ^ 63 := by
    intro exponent mantissa
    have hexp := exponent.isLt
    have hmantissa := mantissa.isLt
    rw [toNat_packComponents]
    show 0 * 2 ^ 63 + _ + _ < _
    omega
  rw [toNat_packed]
  cases h with
  | zero => exact hparts _ _
  | infinity => exact hparts _ _
  | finite m e pos =>
    unfold UnpackedFloat.pack
    dsimp only
    split
    · exact hparts _ _
    · split
      · exact hparts _ _
      · exact hparts _ _

theorem isUnsigned_dite {p : Prop} [Decidable p] {m : Nat} {e : Int} (pos : ¬ p → 0 < m) :
    IsUnsigned (if h : p then .zero .positive else .finite .positive m e (pos h)) := by
  by_cases h : p
  · rw [dif_pos h]
    exact .zero
  · rw [dif_neg h]
    exact .finite m e (pos h)

theorem isUnsigned_roundWithAccuracy (whole : Nat) (exponent : Int) (a : Accuracy) :
    IsUnsigned (roundWithAccuracy Format.binary64 .positive whole exponent a) :=
  isUnsigned_dite fun h => Nat.pos_of_ne_zero h

end Formulae.Number
