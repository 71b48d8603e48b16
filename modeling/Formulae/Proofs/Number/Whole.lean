import Formulae.Proofs.Number.Negation
import Formulae.Proofs.Number.Order

/-!
# Proofs.Number.Whole — whole numbers of up to 53 bits are exact

Below `2 ^ 53` every whole number is a double, so sums and differences that stay there are not rounded.

* `IsWhole x i`: the double `x` is the whole number `i`; zero may have either sign.
* `Carries i u`: so is the unpacked number `u`.
* `Carries.add_ofInt`, `Carries.sub`: sums and differences.
* `Carries.lt_iff`: doubles of whole numbers are in the order of the numbers.
* `floor_of_carries`: rounding down keeps a whole number.
-/

namespace Formulae.Number

open Float.Model Float.Model.UnpackedFloat

/-- The double is a whole number. -/
def IsWhole (x : Float) (i : Int) : Prop :=
  (x == Float.ofInt i) = true

instance (x : Float) (i : Int) : Decidable (IsWhole x i) :=
  inferInstanceAs (Decidable (_ = true))

/-- The unpacked number is a whole number below `2 ^ 53`. -/
inductive Carries : Int → UnpackedFloat → Prop where
  | zero (sign : Sign) : Carries 0 (.zero sign)
  | finite (sign : Sign) (n : Nat) (pos : 0 < n) (lt : n < 2 ^ 53) :
      Carries (sign.apply n) (.finite sign (n * 2 ^ (52 - n.log2)) (n.log2 - 52)
        (isCanonical_whole pos lt).pos)

/-! ### Signs -/

theorem apply_neg (sign : Sign) (n : Int) : (-sign).apply n = -sign.apply n := by
  cases sign with
  | negative => exact (Int.neg_neg n).symm
  | positive => rfl

/-- A whole number has a sign, unless it is zero. -/
theorem eq_zero_or_apply (i : Int) : i = 0 ∨ ∃ sign : Sign, 0 < i.natAbs ∧ i = sign.apply i.natAbs := by
  rcases Int.lt_trichotomy i 0 with hlt | rfl | hgt
  · refine .inr ⟨.negative, by omega, ?_⟩
    show i = -(i.natAbs : Int)
    omega
  · exact .inl rfl
  · refine .inr ⟨.positive, by omega, ?_⟩
    show i = (i.natAbs : Int)
    omega

/-! ### Rounding keeps whole numbers -/

section Exact

variable {n : Nat} (pos : 0 < n) (lt : n < 2 ^ 53)
include pos lt

/-- However a whole number is written, it is rounded to itself. -/
theorem normalize_apply (sign : Sign) {k t : Int} (hk : (k : ℚ) * 2 ^ t = (sign.apply n : Int)) :
    UnpackedFloat.normalize Format.binary64 k t .positive =
      .finite sign (n * 2 ^ (52 - n.log2)) (n.log2 - 52) (isCanonical_whole pos lt).pos := by
  have hexp := two_zpow_pos t
  have hn : (0 : ℚ) < n := by exact_mod_cast pos
  unfold UnpackedFloat.normalize
  cases sign with
  | negative =>
    have hvalue : (k : ℚ) * 2 ^ t = -n := by exact_mod_cast hk
    have hneg : (k : ℚ) < 0 := neg_of_mul_neg_left (by linarith) hexp.le
    have hlt : k < 0 := by exact_mod_cast hneg
    have habs : (((-k).toNat : Nat) : ℚ) = -k := by
      exact_mod_cast Int.toNat_of_nonneg (show 0 ≤ -k by omega)
    rw [Int.compare_eq_lt.mpr hlt]
    refine round_whole pos lt .negative (by omega) ?_
    rw [habs, neg_mul, hvalue, neg_neg]
  | positive =>
    have hvalue : (k : ℚ) * 2 ^ t = n := by exact_mod_cast hk
    have hpos : (0 : ℚ) < k := (mul_pos_iff_of_pos_right hexp).mp (by linarith)
    have hgt : 0 < k := by exact_mod_cast hpos
    have habs : ((k.toNat : Nat) : ℚ) = k := by
      exact_mod_cast Int.toNat_of_nonneg hgt.le
    rw [Int.compare_eq_gt.mpr hgt]
    refine round_whole pos lt .positive (by omega) ?_
    rw [habs, hvalue]

theorem ofInt_apply (sign : Sign) :
    UnpackedFloat.ofInt Format.binary64 (sign.apply n) =
      .finite sign (n * 2 ^ (52 - n.log2)) (n.log2 - 52) (isCanonical_whole pos lt).pos :=
  normalize_apply pos lt sign (by rw [zpow_zero, mul_one])

omit pos in
/-- The significand of a whole number, in smaller units. -/
theorem apply_scaled (sign : Sign) {t : Int} (ht : t ≤ (n.log2 : Int) - 52) :
    ((sign.apply (n * 2 ^ (52 - n.log2) * 2 ^ ((n.log2 : Int) - 52 - t).toNat : Nat) : Int) : ℚ) *
      2 ^ t = (sign.apply n : Int) := by
  have hvalue : ((n * 2 ^ (52 - n.log2) * 2 ^ ((n.log2 : Int) - 52 - t).toNat : Nat) : ℚ) * 2 ^ t =
      n := by
    have hunits := two_zpow_split ht
    have hwhole := whole_value lt
    rw [hunits, ← mul_assoc] at hwhole
    exact_mod_cast hwhole
  generalize n * 2 ^ (52 - n.log2) * 2 ^ ((n.log2 : Int) - 52 - t).toNat = k at *
  cases sign with
  | negative =>
    show ((-(k : Int) : Int) : ℚ) * 2 ^ t = (-(n : Int) : Int)
    push_cast
    rw [neg_mul, hvalue]
  | positive => exact hvalue

end Exact

theorem carries_ofInt {i : Int} (h : i.natAbs < 2 ^ 53) :
    Carries i (UnpackedFloat.ofInt Format.binary64 i) := by
  rcases eq_zero_or_apply i with rfl | ⟨sign, pos, hi⟩
  · exact .zero .positive
  · have hcarries := Carries.finite sign i.natAbs pos h
    rwa [← ofInt_apply pos h, ← hi] at hcarries

/-- Apart from negative zero, a whole number is unpacked to one number only. -/
theorem Carries.eq_or {i : Int} {u : UnpackedFloat} (h : Carries i u) :
    u = UnpackedFloat.ofInt Format.binary64 i ∨ i = 0 ∧ u = .zero .negative := by
  cases h with
  | zero sign =>
    cases sign with
    | negative => exact .inr ⟨rfl, rfl⟩
    | positive => exact .inl rfl
  | finite sign n pos lt => exact .inl (ofInt_apply pos lt sign).symm

theorem normalize_eq_ofInt {i k t : Int} (h : i.natAbs < 2 ^ 53) (hk : (k : ℚ) * 2 ^ t = i) :
    UnpackedFloat.normalize Format.binary64 k t .positive = UnpackedFloat.ofInt Format.binary64 i := by
  rcases eq_zero_or_apply i with rfl | ⟨sign, pos, hi⟩
  · have hzero : (k : ℚ) = 0 := by
      rcases mul_eq_zero.mp (hk.trans Int.cast_zero) with hzero | hzero
      · exact hzero
      · exact absurd hzero (two_zpow_pos t).ne'
    obtain rfl : k = 0 := by exact_mod_cast hzero
    rfl
  · rw [hi] at hk ⊢
    exact (normalize_apply pos h sign hk).trans (ofInt_apply pos h sign).symm

/-! ### Sums and differences -/

/-- Two numbers are subtracted in units of the smaller exponent. -/
theorem sub_finite {s s' : Sign} {m m' : Nat} {e e' t : Int} (pos : 0 < m) (pos' : 0 < m')
    (ht : min e e' = t) :
    UnpackedFloat.sub Format.binary64 (.finite s m e pos) (.finite s' m' e' pos') =
      UnpackedFloat.normalize Format.binary64 (s.apply (m * 2 ^ (e - t).toNat : Nat) -
        s'.apply (m' * 2 ^ (e' - t).toNat : Nat)) t .positive := by
  subst ht
  rw [← Nat.shiftLeft_eq, ← Nat.shiftLeft_eq]
  rfl

section Arithmetic

variable {i j : Int} {u v : UnpackedFloat}

/-- A sum is exact, and no negative zero if its second term is none. -/
theorem Carries.add_ofInt (hu : Carries i u) (hj : j.natAbs < 2 ^ 53) (h : (i + j).natAbs < 2 ^ 53) :
    UnpackedFloat.add Format.binary64 u (UnpackedFloat.ofInt Format.binary64 j) =
      UnpackedFloat.ofInt Format.binary64 (i + j) := by
  rcases eq_zero_or_apply j with rfl | ⟨s', pos', hj'⟩
  · rw [Int.add_zero]
    cases hu with
    | zero sign => cases sign <;> rfl
    | finite sign n pos lt => exact (ofInt_apply pos lt sign).symm
  · cases hu with
    | zero sign =>
      rw [Int.zero_add, hj', ofInt_apply pos' hj s']
      rfl
    | finite sign n pos lt =>
      generalize ht : min ((n.log2 : Int) - 52) (j.natAbs.log2 - 52) = t
      nth_rewrite 1 [hj']
      rw [ofInt_apply pos' hj s', add_finite _ _ ht]
      refine normalize_eq_ofInt h ?_
      rw [Int.cast_add, add_mul, apply_scaled lt sign (by omega), apply_scaled hj s' (by omega), ← hj',
        Int.cast_add]

/-- A difference is exact. -/
theorem Carries.sub (hu : Carries i u) (hv : Carries j v) (h : (i - j).natAbs < 2 ^ 53) :
    Carries (i - j) (UnpackedFloat.sub Format.binary64 u v) := by
  cases hu with
  | zero sign =>
    cases hv with
    | zero sign' => cases sign <;> cases sign' <;> exact .zero _
    | finite sign' n pos lt =>
      rw [Int.zero_sub, ← apply_neg]
      exact .finite (-sign') n pos lt
  | finite sign n pos lt =>
    cases hv with
    | zero sign' =>
      rw [Int.sub_zero]
      exact .finite sign n pos lt
    | finite sign' n' pos' lt' =>
      rw [sub_finite _ _ rfl, normalize_eq_ofInt h]
      · exact carries_ofInt h
      · rw [Int.cast_sub, sub_mul, apply_scaled lt sign (by omega), apply_scaled lt' sign' (by omega),
          Int.cast_sub]

end Arithmetic

/-! ### The order -/

theorem finite_negative_lt_iff {m m' : Nat} {e e' : Int} (pos : 0 < m) (pos' : 0 < m') :
    (UnpackedFloat.finite .negative m e pos).lt (.finite .negative m' e' pos') = true ↔
      e' < e ∨ e' = e ∧ m' < m := by
  show (some ((compare e e').then (compare m m')).swap == some Ordering.lt) = true ↔ _
  rw [beq_iff_eq, Option.some.injEq, Ordering.swap_eq_lt, Ordering.then_eq_gt, Int.compare_eq_gt,
    Int.compare_eq_eq, Nat.compare_eq_gt, eq_comm]

/-- The larger of two whole numbers has the greater exponent, or the same and the larger significand. -/
theorem whole_lt_iff {n n' : Nat} (pos : 0 < n) (pos' : 0 < n') :
    ((n.log2 : Int) - 52 < n'.log2 - 52 ∨
      (n.log2 : Int) - 52 = n'.log2 - 52 ∧ n * 2 ^ (52 - n.log2) < n' * 2 ^ (52 - n'.log2)) ↔ n < n' := by
  have hlog : ∀ {k k' : Nat}, 0 < k' → k.log2 < k'.log2 → k < k' := by
    intro k k' pos' hlt
    calc k < 2 ^ (k.log2 + 1) := Nat.lt_log2_self
      _ ≤ 2 ^ k'.log2 := Nat.pow_le_pow_right (by norm_num) hlt
      _ ≤ k' := Nat.log2_self_le pos'.ne'
  rcases Nat.lt_trichotomy n.log2 n'.log2 with hlt | heq | hgt
  · exact iff_of_true (.inl (by omega)) (hlog pos' hlt)
  · rw [heq, Nat.mul_lt_mul_right (Nat.two_pow_pos _)]
    exact ⟨fun h => by omega, fun h => .inr ⟨rfl, h⟩⟩
  · have := hlog pos hgt
    exact iff_of_false (by omega) (by omega)

/-- Whole numbers are compared as they are. -/
theorem Carries.lt_iff {i j : Int} {u v : UnpackedFloat} (hu : Carries i u) (hv : Carries j v) :
    u.lt v = true ↔ i < j := by
  cases hu with
  | zero sign =>
    cases hv with
    | zero => exact iff_of_false (by cases sign <;> exact Bool.false_ne_true) (Int.lt_irrefl 0)
    | finite sign' n pos =>
      cases sign' with
      | negative => exact iff_of_false Bool.false_ne_true (by show ¬ 0 < -(n : Int); omega)
      | positive => exact iff_of_true rfl (by show 0 < (n : Int); omega)
  | finite sign n pos lt =>
    cases hv with
    | zero =>
      cases sign with
      | negative => exact iff_of_true rfl (by show -(n : Int) < 0; omega)
      | positive => exact iff_of_false Bool.false_ne_true (by show ¬ (n : Int) < 0; omega)
    | finite sign' n' pos' lt' =>
      cases sign with
      | negative =>
        cases sign' with
        | negative =>
          rw [finite_negative_lt_iff, whole_lt_iff pos' pos]
          show _ ↔ -(n : Int) < -(n' : Int)
          omega
        | positive => exact iff_of_true rfl (by show -(n : Int) < (n' : Int); omega)
      | positive =>
        cases sign' with
        | negative => exact iff_of_false Bool.false_ne_true (by show ¬ (n : Int) < -(n' : Int); omega)
        | positive =>
          rw [finite_lt_finite_iff, whole_lt_iff pos pos']
          show _ ↔ (n : Int) < (n' : Int)
          omega

/-! ### Doubles -/

theorem Carries.isFinite {i : Int} {u : UnpackedFloat} (h : Carries i u) : u.isFinite = true := by
  cases h <;> rfl

theorem unpack_ofInt {i : Int} (h : i.natAbs < 2 ^ 53) :
    (Float.ofInt i).toModel.unpack = UnpackedFloat.ofInt Format.binary64 i := by
  match i with
  | .ofNat 0 => rfl
  | .ofNat (n + 1) =>
    exact (unpack_ofNat (Nat.succ_pos n) h).trans (ofInt_apply (Nat.succ_pos n) h .positive).symm
  | .negSucc n =>
    have hneg : Float.ofInt (.negSucc n) =
      packed (UnpackedFloat.neg (Float.ofNat (n + 1)).toModel.unpack) := rfl
    have hc := isCanonical_whole (Nat.succ_pos n) h
    have hlog := (Nat.log2_lt (Nat.succ_ne_zero n)).mpr h
    rw [hneg, unpack_ofNat (Nat.succ_pos n) h]
    exact (unpack_pack_normal hc (by omega) (two_pow_le_whole (Nat.succ_pos n) h)).trans
      (ofInt_apply (Nat.succ_pos n) h .negative).symm

theorem carries_unpack_ofInt {i : Int} (h : i.natAbs < 2 ^ 53) :
    Carries i (Float.ofInt i).toModel.unpack :=
  unpack_ofInt h ▸ carries_ofInt h

theorem packed_ofInt {i : Int} (h : i.natAbs < 2 ^ 53) :
    packed (UnpackedFloat.ofInt Format.binary64 i) = Float.ofInt i := by
  rw [← unpack_ofInt h]
  exact packed_unpack (carries_unpack_ofInt h).isFinite

/-- Only one number compares equal to a number other than zero. -/
theorem eq_of_compare_finite {u : UnpackedFloat} {sign : Sign} {m : Nat} {e : Int} {pos : 0 < m}
    (h : u.compare (.finite sign m e pos) = some .eq) : u = .finite sign m e pos := by
  cases u with
  | notANumber => cases h
  | infinity s => cases s <;> cases h
  | zero s => cases sign <;> cases h
  | finite s m' e' pos' =>
    have hparts : ((compare e' e).then (compare m' m)) = .eq → m' = m ∧ e' = e := by
      rw [Ordering.then_eq_eq, Int.compare_eq_eq, Nat.compare_eq_eq]
      exact fun ⟨he, hm⟩ => ⟨hm, he⟩
    cases s with
    | negative =>
      cases sign with
      | negative =>
        obtain ⟨rfl, rfl⟩ := hparts (Ordering.swap_eq_eq.mp (Option.some.inj h))
        rfl
      | positive => cases h
    | positive =>
      cases sign with
      | negative => cases h
      | positive =>
        obtain ⟨rfl, rfl⟩ := hparts (Option.some.inj h)
        rfl

section Double

variable {i j : Int} {x y : Float}

/-- What compares equal to a whole number is unpacked to it. -/
theorem IsWhole.carries (h : i.natAbs < 2 ^ 53) (hx : IsWhole x i) : Carries i x.toModel.unpack := by
  have hbeq : (x.toModel.unpack.compare (Float.ofInt i).toModel.unpack == some Ordering.eq) = true := hx
  have hcarries := carries_unpack_ofInt h
  rw [beq_iff_eq] at hbeq
  generalize x.toModel.unpack = u at *
  generalize (Float.ofInt i).toModel.unpack = v at *
  cases hcarries with
  | zero sign =>
    cases u with
    | zero sign' => exact .zero sign'
    | notANumber => cases hbeq
    | infinity sign' => cases sign' <;> cases hbeq
    | finite sign' => cases sign' <;> cases hbeq
  | finite sign n pos lt =>
    rw [eq_of_compare_finite hbeq]
    exact .finite sign n pos lt

/-- Whole numbers are added exactly. -/
theorem add_ofInt_of_carries (hx : Carries i x.toModel.unpack) (hj : j.natAbs < 2 ^ 53)
    (h : (i + j).natAbs < 2 ^ 53) : x + Float.ofInt j = Float.ofInt (i + j) := by
  have hsum : x + Float.ofInt j = packed (UnpackedFloat.add Format.binary64 x.toModel.unpack
    (Float.ofInt j).toModel.unpack) := rfl
  rw [hsum, unpack_ofInt hj, hx.add_ofInt hj h, packed_ofInt h]

/-- They are subtracted exactly, though the same two may leave a negative zero. -/
theorem sub_of_carries (hx : Carries i x.toModel.unpack) (hy : Carries j y.toModel.unpack)
    (h : (i - j).natAbs < 2 ^ 53) : Carries (i - j) (x - y).toModel.unpack := by
  have hdiff : x - y = packed (UnpackedFloat.sub Format.binary64 x.toModel.unpack
    y.toModel.unpack) := rfl
  rw [hdiff]
  rcases (hx.sub hy h).eq_or with hu | ⟨hzero, hu⟩
  · rw [hu, packed_ofInt h]
    exact carries_unpack_ofInt h
  · rw [hu, hzero]
    exact .zero .negative

theorem lt_iff_of_carries (hx : Carries i x.toModel.unpack) (hy : Carries j y.toModel.unpack) :
    x < y ↔ i < j := by
  rw [← hx.lt_iff hy]
  exact decide_eq_true_iff

/-- Rounding down keeps a whole number. -/
theorem floor_of_carries (h : i.natAbs < 2 ^ 53) (hx : Carries i x.toModel.unpack) : floor x = x := by
  have hpacked := packed_unpack hx.isFinite
  generalize hu : x.toModel.unpack = u at *
  cases hx with
  | zero sign =>
    rw [← hpacked]
    cases sign <;> decide +kernel
  | finite sign n pos lt =>
    have hlog := (Nat.log2_lt pos.ne').mpr lt
    have hexp : (-((n.log2 : Int) - 52)).toNat = 52 - n.log2 := by omega
    have hvalue : x = if sign == .negative then -Float.ofNat n else Float.ofNat n := by
      obtain ⟨k, rfl⟩ : ∃ k, n = k + 1 := ⟨n - 1, by omega⟩
      rw [← hpacked, ← ofInt_apply pos lt sign, packed_ofInt h]
      cases sign <;> rfl
    unfold floor roundBy
    rw [ofFloat?_of_unpack hu]
    dsimp only
    split
    · rfl
    · rename_i hneg
      have hwhole : Dyadic.whole ⟨sign == .negative, n * 2 ^ (52 - n.log2), n.log2 - 52⟩ = n := by
        unfold Dyadic.whole
        rw [if_neg hneg, hexp, Nat.shiftRight_eq_div_pow]
        exact Nat.mul_div_cancel n (Nat.two_pow_pos _)
      have hfraction :
          downward ⟨sign == .negative, n * 2 ^ (52 - n.log2), n.log2 - 52⟩ = false := by
        have hunit : Dyadic.unit ⟨sign == .negative, n * 2 ^ (52 - n.log2), n.log2 - 52⟩ =
            2 ^ (52 - n.log2) := congrArg (2 ^ ·) hexp
        unfold downward Dyadic.hasFraction
        simp only [hunit, Nat.mul_mod_left, bne_self_eq_false, Bool.and_false]
      rw [hwhole, hfraction]
      exact hvalue.symm

end Double

/-- Whole numbers below `2 ^ 53` keep their order with all natural numbers, rounded or not. -/
theorem ofNat_lt_ofInt_iff {i : Int} (h : i.natAbs < 2 ^ 53) (n : Nat) :
    Float.ofNat n < Float.ofInt i ↔ (n : Int) < i := by
  have hi := carries_unpack_ofInt h
  have hsmall : ∀ k : Nat, k < 2 ^ 53 → (Float.ofNat k < Float.ofInt i ↔ (k : Int) < i) := fun k hk =>
    lt_iff_of_carries (carries_unpack_ofInt (show (k : Int).natAbs < 2 ^ 53 from hk)) hi
  rcases Nat.lt_or_ge n (2 ^ 53) with hlt | hge
  · exact hsmall n hlt
  · refine iff_of_false (fun hlt => ?_) (by omega)
    have hless := ofNat_lt_of_le (show i.toNat ≤ n by omega) hlt
    have := (hsmall i.toNat (by omega)).mp hless
    omega

end Formulae.Number
