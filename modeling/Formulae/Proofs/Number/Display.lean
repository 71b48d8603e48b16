import Mathlib.Data.List.TakeWhile
import Formulae.Proofs.Number.Shortest

/-!
# Proofs.Number.Display — numbers read back as they are displayed

The text of a finite number without a sign has digits and at most one point, and denotes the number
again: the digits are the shortest that round to it, and reading rounds.

* `nearest?_digits`, `nearest?_point`: the numerals without an exponent.
* `Layout.Writes`: what the laid out digits denote.
* `readsBack`: every such number reads back, so what a numeral denotes does (`Numeral.readsBack_value?`).
-/

namespace Formulae.Number

open Text Float.Model Float.Model.UnpackedFloat

/-! ### Numerals without an exponent -/

namespace Numeral

section Digits

variable {whole fraction : List Char}

theorem isMantissaChar_of_isDigit {c : Char} (h : isDigit c = true) : isMantissaChar c = true := by
  simp [isMantissaChar, h]

theorem nearest?_digits (hwhole : ∀ c ∈ whole, isDigit c = true) (nonempty : whole ≠ []) :
    nearest? whole = some (scaled (digitsValue whole) 0) := by
  have hmantissa : ∀ c ∈ whole, isMantissaChar c = true := fun c hc =>
    isMantissaChar_of_isDigit (hwhole c hc)
  have htake : whole.takeWhile isMantissaChar = whole := List.takeWhile_eq_self_iff.mpr hmantissa
  have hdrop : whole.dropWhile isMantissaChar = [] := List.dropWhile_eq_nil_iff.mpr hmantissa
  have htake' : whole.takeWhile isDigit = whole := List.takeWhile_eq_self_iff.mpr hwhole
  have hdrop' : whole.dropWhile isDigit = [] := List.dropWhile_eq_nil_iff.mpr hwhole
  have hempty : whole.isEmpty = false := by simpa using nonempty
  simp only [nearest?, htake, hdrop, htake', hdrop', hempty]
  simp [exponentValue]

theorem nearest?_point (hwhole : ∀ c ∈ whole, isDigit c = true)
    (hfraction : ∀ c ∈ fraction, isDigit c = true) (nonempty : whole ≠ []) :
    nearest? (whole ++ '.' :: fraction) =
      some (scaled (digitsValue (whole ++ fraction)) (-fraction.length)) := by
  have hmantissa : ∀ c ∈ whole ++ '.' :: fraction, isMantissaChar c = true := by
    intro c hc
    rcases List.mem_append.mp hc with hc | hc
    · exact isMantissaChar_of_isDigit (hwhole c hc)
    · rcases List.mem_cons.mp hc with rfl | hc
      · rfl
      · exact isMantissaChar_of_isDigit (hfraction c hc)
  have htake : (whole ++ '.' :: fraction).takeWhile isMantissaChar = whole ++ '.' :: fraction :=
    List.takeWhile_eq_self_iff.mpr hmantissa
  have hdrop : (whole ++ '.' :: fraction).dropWhile isMantissaChar = [] :=
    List.dropWhile_eq_nil_iff.mpr hmantissa
  have htake' : (whole ++ '.' :: fraction).takeWhile isDigit = whole := by
    rw [List.takeWhile_append_of_pos hwhole]
    simp [isDigit]
  have hdrop' : (whole ++ '.' :: fraction).dropWhile isDigit = '.' :: fraction := by
    rw [List.dropWhile_append_of_pos hwhole]
    simp [isDigit]
  have hempty : whole.isEmpty = false := by simpa using nonempty
  have hall : fraction.all isDigit = true := List.all_eq_true.mpr hfraction
  simp only [nearest?, htake, hdrop, htake', hdrop', hempty]
  simp [exponentValue, hall]

end Digits

theorem digitsValue_eq (digits : List Char) : digitsValue digits = Nat.ofDigitChars 10 digits 0 :=
  Nat.ofDigitChars_eq_foldl.symm

end Numeral

/-! ### The layout -/

namespace Layout

/-- The text is a numeral of digits and points that is the double nearest to `digits · 10 ^ exponent`. -/
structure Writes (text : List Char) (digits : Nat) (exponent : Int) : Prop where
  nonempty : text ≠ []
  mantissa : ∀ c ∈ text, Numeral.isMantissaChar c = true
  nearest : ∃ digits' exponent', Numeral.nearest? text = some (Numeral.scaled digits' exponent') ∧
    (digits' : ℚ) * 10 ^ exponent' = digits * 10 ^ exponent

theorem isDigit_digits {n : Nat} {c : Char} (h : c ∈ Nat.toDigits 10 n) : isDigit c = true :=
  Nat.isDigit_of_mem_toDigits (by norm_num) (by norm_num) h

theorem isDigit_zeros {n : Nat} {c : Char} (h : c ∈ List.replicate n '0') : isDigit c = true := by
  rw [List.eq_of_mem_replicate h]
  rfl

/-- Zeros after the digits for a positive exponent. -/
theorem writes_whole (digits zeros : Nat) :
    Writes (Nat.toDigits 10 digits ++ List.replicate zeros '0') digits zeros := by
  have hdigits : ∀ c ∈ Nat.toDigits 10 digits ++ List.replicate zeros '0', isDigit c = true := by
    intro c hc
    rcases List.mem_append.mp hc with hc | hc
    · exact isDigit_digits hc
    · exact isDigit_zeros hc
  have hne : Nat.toDigits 10 digits ++ List.replicate zeros '0' ≠ [] :=
    List.append_ne_nil_of_left_ne_nil Nat.toDigits_ne_nil _
  refine ⟨hne, fun c hc => Numeral.isMantissaChar_of_isDigit (hdigits c hc),
    _, _, Numeral.nearest?_digits hdigits hne, ?_⟩
  rw [Numeral.digitsValue_eq, Nat.ofDigitChars_append, Nat.ofDigitChars_ten_toDigits,
    Nat.ofDigitChars_replicate_zero]
  push_cast
  rw [mul_one, zpow_natCast, mul_comm]

/-- A point before as many of the digits as a negative exponent says, with zeros before it if there are not
more. -/
theorem writes_point (digits padding places : Nat)
    (enough : places < (List.replicate padding '0' ++ Nat.toDigits 10 digits).length) :
    let padded := List.replicate padding '0' ++ Nat.toDigits 10 digits
    let cut := padded.length - places
    Writes (padded.take cut ++ '.' :: padded.drop cut) digits (-places) := by
  intro padded cut
  have hdigits : ∀ c ∈ padded, isDigit c = true := by
    intro c hc
    rcases List.mem_append.mp hc with hc | hc
    · exact isDigit_zeros hc
    · exact isDigit_digits hc
  have hvalue : Numeral.digitsValue padded = digits := by
    rw [Numeral.digitsValue_eq, Nat.ofDigitChars_append, Nat.ofDigitChars_replicate_zero,
      Nat.mul_zero, Nat.ofDigitChars_ten_toDigits]
  have htake : ∀ c ∈ padded.take cut, isDigit c = true := fun c hc =>
    hdigits c (List.mem_of_mem_take hc)
  have hdrop : ∀ c ∈ padded.drop cut, isDigit c = true := fun c hc =>
    hdigits c (List.mem_of_mem_drop hc)
  have hlen : places < padded.length := enough
  have hne : padded.take cut ≠ [] := by
    intro hnil
    have hzero := congrArg List.length hnil
    rw [List.length_take, List.length_nil] at hzero
    omega
  have hplaces : (padded.drop cut).length = places := by
    rw [List.length_drop]
    omega
  refine ⟨List.append_ne_nil_of_left_ne_nil hne _, fun c hc => ?_,
    _, _, Numeral.nearest?_point htake hdrop hne, ?_⟩
  · rcases List.mem_append.mp hc with hc | hc
    · exact Numeral.isMantissaChar_of_isDigit (htake c hc)
    · rcases List.mem_cons.mp hc with rfl | hc
      · rfl
      · exact Numeral.isMantissaChar_of_isDigit (hdrop c hc)
  · rw [List.take_append_drop, hvalue, hplaces]

/-- Wherever the point is put. -/
theorem writes_position (d : Decimal) : Writes (plain.position d).toList d.digits d.exponent := by
  unfold position
  simp only
  split
  · rename_i hwhole
    have htext := writes_whole d.digits d.exponent.toNat
    rw [Int.toNat_of_nonneg hwhole] at htext
    simpa [plain, digitText, zeros] using htext
  · rename_i hfraction
    have htext := writes_point d.digits ((-d.exponent).toNat + 1 - (Nat.toDigits 10 d.digits).length)
      (-d.exponent).toNat (by simp; omega)
    have hexp : -((-d.exponent).toNat : Int) = d.exponent := by omega
    rw [hexp] at htext
    simpa [digitText, zeros, String.length_ofList] using htext

end Layout

/-! ### Reading back -/

/-- A number in its plain text is a numeral that denotes it. -/
structure ReadsBack (x : Float) : Prop where
  nonempty : (display x).toList ≠ []
  mantissa : ∀ c ∈ (display x).toList, Numeral.isMantissaChar c = true
  value : Numeral.value? (display x).toList = some x

theorem readsBack_of_writes {x : Float} {digits : Nat} {exponent : Int}
    (finite : x.isFinite = true) (h : Layout.Writes (display x).toList digits exponent)
    (rounds : ∀ (digits' : Nat) (exponent' : Int),
      (digits' : ℚ) * 10 ^ exponent' = digits * 10 ^ exponent →
        Numeral.scaled digits' exponent' = x) : ReadsBack x := by
  obtain ⟨nonempty, mantissa, digits', exponent', hnearest, hvalue⟩ := h
  refine ⟨nonempty, mantissa, ?_⟩
  rw [Numeral.value?, hnearest, rounds digits' exponent' hvalue]
  exact Option.filter_some_pos finite

/-- A finite number without a sign reads back as it is displayed. -/
theorem readsBack {x : Float} (finite : x.isFinite = true) (unsigned : x.toBits.toNat < 2 ^ 63) :
    ReadsBack x := by
  obtain ⟨d, hd⟩ := exists_ofFloat? finite
  rcases Nat.eq_zero_or_pos d.significand with hzero | hpos
  · obtain ⟨hnegative, rfl⟩ := ofFloat?_eq_zero hd unsigned hzero
    have hdisplay : display 0.0 = Layout.plain.position ⟨0, 0⟩ := by
      unfold display Layout.text
      simp only [hd, hzero, hnegative]
      rfl
    refine readsBack_of_writes finite (hdisplay ▸ Layout.writes_position ⟨0, 0⟩) ?_
    intro digits exponent hvalue
    have hdigits : digits = 0 := by
      have hten : (10 : ℚ) ^ exponent ≠ 0 := by positivity
      simpa [hten] using hvalue
    simp [Numeral.scaled, hdigits]
  · obtain ⟨hc, he, hnegative, hx⟩ := ofFloat?_eq_some hd unsigned hpos
    have hdisplay : display x = Layout.plain.position (shortest d) := by
      unfold display Layout.text
      simp only [hd, hpos.ne', hnegative]
      rfl
    refine readsBack_of_writes finite (hdisplay ▸ Layout.writes_position (shortest d)) ?_
    intro digits exponent hvalue
    have hround := shortest_roundsTo hc he
    rw [← hvalue] at hround
    obtain ⟨u, hu, hrounded⟩ := scaled_eq_packed (hround.digits_pos hc) exponent
    rw [hu, hrounded.eq_finite hc he hround, hx]

namespace Numeral

theorem scaled_unsigned (digits : Nat) (exponent : Int) :
    (scaled digits exponent).toBits.toNat < 2 ^ 63 := by
  rcases Nat.eq_zero_or_pos digits with rfl | hpos
  · have hzero : scaled 0 exponent = 0.0 := by simp [scaled]
    rw [hzero]
    decide +kernel
  · obtain ⟨u, hu, hrounded⟩ := scaled_eq_packed hpos exponent
    rw [hu]
    exact hrounded.unsigned.toNat_lt

/-- What a numeral denotes has no sign. -/
theorem unsigned_of_value? {text : List Char} {x : Float} (h : value? text = some x) :
    x.toBits.toNat < 2 ^ 63 := by
  obtain ⟨hnearest, -⟩ := Option.filter_eq_some_iff.mp h
  simp only [nearest?] at hnearest
  split at hnearest
  · cases hnearest
  · split at hnearest
    · obtain rfl := Option.some.inj hnearest
      exact scaled_unsigned _ _
    · cases hnearest

/-- What a numeral denotes reads back as it is displayed. -/
theorem readsBack_value? {text : List Char} {x : Float} (h : value? text = some x) : ReadsBack x :=
  readsBack (Option.filter_eq_some_iff.mp h).2 (unsigned_of_value? h)

end Numeral

end Formulae.Number
