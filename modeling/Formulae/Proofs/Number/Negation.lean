import Formulae.Proofs.Number.Display
import Formulae.Proofs.Number.Finite

/-!
# Proofs.Number.Negation — the sign of a double

Negation flips the sign bit of a finite double and nothing else.

* `toNat_neg`: the bits of the negation.
* `display_of_signed`: a number with a sign is displayed as a minus and its negation.
* `eq_negativeZero`: the only number with a sign that is not less than zero.
-/

namespace Formulae.Number

open Float.Model Float.Model.UnpackedFloat

/-- The sign bit is set. -/
def Signed (x : Float) : Prop :=
  2 ^ 63 ≤ x.toBits.toNat

instance (x : Float) : Decidable (Signed x) :=
  inferInstanceAs (Decidable (_ ≤ _))

theorem magnitudeBits_lt {m : Nat} {e : Int} (hc : IsCanonical m e) (he : e ≤ 971) :
    magnitudeBits m e < 2 ^ 63 := by
  have hlt := hc.lt
  unfold magnitudeBits
  split <;> omega

theorem toNat_packed_zero (sign : Sign) :
    (packed (.zero sign)).toBits.toNat = sign.toBitVec.toNat * 2 ^ 63 := by
  cases sign <;> rfl

theorem toNat_eq_components (bits : BitVec 64) : bits.toNat =
    (@unpackSign Format.binary64 bits).toNat * 2 ^ 63 +
      (@unpackExponent Format.binary64 bits).toNat * 2 ^ 52 +
        (@unpackMantissa Format.binary64 bits).toNat := by
  have hbits := bits.isLt
  have hsign : (@unpackSign Format.binary64 bits).toNat = bits.toNat / 2 ^ 63 % 2 := by
    unfold unpackSign
    rw [BitVec.toNat_cast, BitVec.extractLsb_toNat, Nat.shiftRight_eq_div_pow]
    rfl
  have hexponent : (@unpackExponent Format.binary64 bits).toNat = bits.toNat / 2 ^ 52 % 2 ^ 11 := by
    unfold unpackExponent
    rw [BitVec.toNat_cast, BitVec.extractLsb_toNat, Nat.shiftRight_eq_div_pow]
    rfl
  have hmantissa : (@unpackMantissa Format.binary64 bits).toNat = bits.toNat / 2 ^ 0 % 2 ^ 52 := by
    unfold unpackMantissa
    rw [BitVec.toNat_cast, BitVec.extractLsb_toNat, Nat.shiftRight_eq_div_pow]
    rfl
  rw [hsign, hexponent, hmantissa]
  omega

theorem toBitVec_ofBitVec (b : BitVec 1) : (Sign.ofBitVec b).toBitVec = b := by
  revert b
  decide

/-- The bits of a finite double. -/
theorem toNat_of_unpack {x : Float} {sign : Sign} {m : Nat} {e : Int} {pos : 0 < m}
    (h : x.toModel.unpack = .finite sign m e pos) :
    x.toBits.toNat = sign.toBitVec.toNat * 2 ^ 63 + magnitudeBits m e := by
  have hbits : Unpacks x.toModel.toBits.toBitVec (.finite sign m e pos) := h ▸ unpacks _
  have hmantissa : (@unpackMantissa Format.binary64 x.toModel.toBits.toBitVec).toNat < 2 ^ 52 :=
    (@unpackMantissa Format.binary64 x.toModel.toBits.toBitVec).isLt
  have hx : x.toBits.toNat = x.toModel.toBits.toBitVec.toNat := rfl
  rw [hx, toNat_eq_components]
  unfold magnitudeBits
  cases hbits with
  | special special => cases special
  | subnormal least =>
    rw [toBitVec_ofBitVec, least, if_pos hmantissa]
    omega
  | normal =>
    rw [toBitVec_ofBitVec, if_neg (by omega)]
    omega

theorem toNat_of_unpack_zero {x : Float} {sign : Sign} (h : x.toModel.unpack = .zero sign) :
    x.toBits.toNat = sign.toBitVec.toNat * 2 ^ 63 := by
  have hbits : Unpacks x.toModel.toBits.toBitVec (.zero sign) := h ▸ unpacks _
  have hx : x.toBits.toNat = x.toModel.toBits.toBitVec.toNat := rfl
  rw [hx, toNat_eq_components]
  cases hbits with
  | special special => cases special
  | zero least none =>
    rw [toBitVec_ofBitVec, least, none]
    omega

/-- A finite double is packed as what it is unpacked to. -/
theorem packed_unpack {x : Float} (h : x.isFinite = true) : packed x.toModel.unpack = x := by
  refine eq_of_toBits ?_
  rcases unpack_of_isFinite h with ⟨sign, hu⟩ | ⟨sign, m, e, pos, hu⟩
  · rw [hu, toNat_packed_zero, toNat_of_unpack_zero hu]
  · obtain ⟨hc, he⟩ := isCanonical_of_unpack hu
    rw [hu, toNat_packed_finite hc he, toNat_of_unpack hu]

/-- A finite double other than zero is decoded as arithmetic sees it. -/
theorem ofFloat?_of_unpack {x : Float} {sign : Sign} {m : Nat} {e : Int} {pos : 0 < m}
    (h : x.toModel.unpack = .finite sign m e pos) :
    Dyadic.ofFloat? x = some ⟨sign == .negative, m, e⟩ := by
  obtain ⟨hc, he⟩ := isCanonical_of_unpack h
  have hlt := hc.lt
  have hleast := hc.least
  have hbits := toNat_of_unpack h
  have hidden : Dyadic.hidden = 2 ^ 52 := rfl
  have hsign : sign.toBitVec.toNat < 2 := sign.toBitVec.isLt
  have hnegative : decide (sign.toBitVec.toNat = 1) = (sign == .negative) := by cases sign <;> rfl
  unfold Dyadic.ofFloat?
  simp only [Nat.shiftRight_eq_div_pow, hidden, hbits, ← hnegative]
  unfold magnitudeBits
  generalize sign.toBitVec.toNat = s at *
  by_cases hsub : m < 2 ^ 52
  · have hexp := hc.normal hsub
    have hbiased : (s * 2 ^ 63 + m) / 2 ^ 52 % 2048 = 0 := by omega
    have htop : (s * 2 ^ 63 + m) / 2 ^ 63 = s := by omega
    have hfraction : (s * 2 ^ 63 + m) % 2 ^ 52 = m := by omega
    rw [if_pos hsub, hbiased, htop, hfraction, if_neg (by decide), if_pos rfl, hexp]
  · generalize hb : (e + 1075).toNat = b
    have hbiased : (s * 2 ^ 63 + (b * 2 ^ 52 + (m - 2 ^ 52))) / 2 ^ 52 % 2048 = b := by omega
    have htop : (s * 2 ^ 63 + (b * 2 ^ 52 + (m - 2 ^ 52))) / 2 ^ 63 = s := by omega
    have hfraction : 2 ^ 52 + (s * 2 ^ 63 + (b * 2 ^ 52 + (m - 2 ^ 52))) % 2 ^ 52 = m := by omega
    have hexp : (b : Int) - 1075 = e := by omega
    rw [if_neg hsub, hbiased, htop, hfraction, if_neg (by omega), if_neg (by omega), hexp]

/-! ### Negation -/

theorem toNat_toBitVec_neg (sign : Sign) : (-sign).toBitVec.toNat + sign.toBitVec.toNat = 1 := by
  cases sign <;> rfl

/-- Negation flips the sign bit. -/
theorem toNat_neg {x : Float} (h : x.isFinite = true) :
    (-x).toBits.toNat = (x.toBits.toNat + 2 ^ 63) % 2 ^ 64 := by
  have hneg : -x = packed (UnpackedFloat.neg x.toModel.unpack) := rfl
  rcases unpack_of_isFinite h with ⟨sign, hu⟩ | ⟨sign, m, e, pos, hu⟩
  · have hsign := toNat_toBitVec_neg sign
    have hpacked : -x = packed (.zero (-sign)) := by rw [hneg, hu]; rfl
    rw [hpacked, toNat_packed_zero, toNat_of_unpack_zero hu]
    omega
  · have hsign := toNat_toBitVec_neg sign
    obtain ⟨hc, he⟩ := isCanonical_of_unpack hu
    have hlt := magnitudeBits_lt hc he
    have hpacked : -x = packed (.finite (-sign) m e hc.pos) := by rw [hneg, hu]; rfl
    rw [hpacked, toNat_packed_finite hc he (-sign), toNat_of_unpack hu]
    omega

theorem isFinite_neg {x : Float} (h : x.isFinite = true) : (-x).isFinite = true := by
  have hneg : -x = packed (UnpackedFloat.neg x.toModel.unpack) := rfl
  rw [hneg, isFinite_eq_unpack]
  rcases unpack_of_isFinite h with ⟨sign, hu⟩ | ⟨sign, m, e, pos, hu⟩
  · have hzero : IsUpTo (-sign) 971 (.zero (-sign)) := .zero
    rw [hu]
    exact hzero.unpack_packed.isFinite
  · obtain ⟨hc, he⟩ := isCanonical_of_unpack hu
    rw [hu]
    exact (isFiniteOf_packed (-sign) hc.pos he).isFinite

theorem neg_neg_of_isFinite {x : Float} (h : x.isFinite = true) : - -x = x := by
  have hlt : x.toBits.toNat < 2 ^ 64 := x.toBits.toNat_lt
  refine eq_of_toBits ?_
  rw [toNat_neg (isFinite_neg h), toNat_neg h]
  omega

theorem not_signed_neg {x : Float} (h : x.isFinite = true) (signed : Signed x) : ¬ Signed (-x) := by
  have hlt : x.toBits.toNat < 2 ^ 64 := x.toBits.toNat_lt
  unfold Signed at signed ⊢
  rw [toNat_neg h]
  omega

/-! ### Comparison with zero -/

/-- What is less than zero has a sign. -/
theorem signed_of_lt_zero {x : Float} (h : x.isFinite = true) (neg : x < 0.0) : Signed x := by
  have hzero : (0.0 : Float).toModel.unpack = .zero .positive := rfl
  have hlt : x.toModel.unpack.lt (0.0 : Float).toModel.unpack = true := of_decide_eq_true neg
  rw [hzero] at hlt
  unfold Signed
  rcases unpack_of_isFinite h with ⟨sign, hu⟩ | ⟨sign, m, e, pos, hu⟩
  · rw [hu] at hlt
    cases hlt
  · rw [toNat_of_unpack hu]
    cases sign with
    | negative => exact Nat.le_add_right _ _
    | positive =>
      rw [hu] at hlt
      cases hlt

/-- The only number with a sign that is not less than zero. -/
theorem eq_negativeZero {x : Float} (h : x.isFinite = true) (signed : Signed x) (nonneg : ¬ x < 0.0) :
    x = -0.0 := by
  have hzero : (0.0 : Float).toModel.unpack = .zero .positive := rfl
  have hlt : ¬ x.toModel.unpack.lt (0.0 : Float).toModel.unpack = true := fun hlt =>
    nonneg (decide_eq_true hlt)
  have hbits : (-0.0 : Float).toBits.toNat = 2 ^ 63 := by decide +kernel
  refine eq_of_toBits ?_
  rw [hzero] at hlt
  rw [hbits]
  unfold Signed at signed
  rcases unpack_of_isFinite h with ⟨sign, hu⟩ | ⟨sign, m, e, pos, hu⟩
  · rw [toNat_of_unpack_zero hu] at signed ⊢
    cases sign with
    | negative => rfl
    | positive => exact absurd signed (by decide)
  · obtain ⟨hc, he⟩ := isCanonical_of_unpack hu
    have hmagnitude := magnitudeBits_lt hc he
    rw [toNat_of_unpack hu] at signed
    cases sign with
    | negative =>
      rw [hu] at hlt
      exact absurd rfl hlt
    | positive =>
      have hsign : Sign.positive.toBitVec.toNat = 0 := rfl
      rw [hsign] at signed
      omega

/-! ### Display -/

/-- Negation keeps everything but the sign. -/
theorem ofFloat?_neg {x : Float} (h : x.isFinite = true) :
    Dyadic.ofFloat? (-x) =
      (Dyadic.ofFloat? x).map fun d => { d with negative := !d.negative } := by
  have hlt : x.toBits.toNat < 2 ^ 64 := x.toBits.toNat_lt
  have hbits := toNat_neg h
  have hidden : Dyadic.hidden = 2 ^ 52 := rfl
  unfold Dyadic.ofFloat?
  simp only [Nat.shiftRight_eq_div_pow, hidden, hbits]
  generalize x.toBits.toNat = bits at *
  have hbiased : (bits + 2 ^ 63) % 2 ^ 64 / 2 ^ 52 % 2048 = bits / 2 ^ 52 % 2048 := by omega
  have hfraction : (bits + 2 ^ 63) % 2 ^ 64 % 2 ^ 52 = bits % 2 ^ 52 := by omega
  have hsign : decide ((bits + 2 ^ 63) % 2 ^ 64 / 2 ^ 63 = 1) = !decide (bits / 2 ^ 63 = 1) := by
    rw [← decide_not]
    exact decide_eq_decide.mpr (by omega)
  rw [hbiased, hfraction, hsign]
  split
  · rfl
  · split <;> rfl

theorem negative_of_signed {x : Float} {d : Dyadic} (hd : Dyadic.ofFloat? x = some d)
    (signed : Signed x) : d.negative = true := by
  have hlt : x.toBits.toNat < 2 ^ 64 := x.toBits.toNat_lt
  have hnegative : decide (x.toBits.toNat >>> 63 = 1) = true := by
    unfold Signed at signed
    rw [Nat.shiftRight_eq_div_pow]
    exact decide_eq_true (by omega)
  unfold Dyadic.ofFloat? at hd
  simp only [hnegative] at hd
  split at hd
  · cases hd
  · split at hd
    · obtain rfl := Option.some.inj hd
      rfl
    · obtain rfl := Option.some.inj hd
      rfl

/-- A number with a sign is displayed as a minus and its negation. -/
theorem display_of_signed {x : Float} (h : x.isFinite = true) (signed : Signed x) :
    display x = "-" ++ display (-x) := by
  obtain ⟨d, hd⟩ := exists_ofFloat? h
  have hneg := ofFloat?_neg h
  have hnegative := negative_of_signed hd signed
  rw [hd, Option.map_some] at hneg
  unfold display Layout.text
  simp only [hd, hneg, hnegative]
  rfl

end Formulae.Number
