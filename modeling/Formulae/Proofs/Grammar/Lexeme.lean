import Formulae.Number.Numeral
import Formulae.Text.Basic

/-!
# Proofs.Grammar.Lexeme — the tokens of a formula

The lexical rules, each as a relation between a text and the rest that a token leaves of it. Blanks may
stand in front of every token.

* `SignAt`: operators, parentheses and commas, each in its longest spelling.
* `NumeralAt`: the longest run of digits and points with an exponent if a digit follows, which has to
  denote a finite number.
* `NameAt` and `CallAt`: the longest run of name characters; a parenthesis at once behind it makes it a
  call.

The scanner of numerals takes exactly the longest numeral (`isNumeral_scan`, `scan_append`).
-/

namespace Formulae.Grammar

open Text Number

/-- The next character, if there is one, is not of the kind `p`. -/
def NotNext (p : Char → Bool) (text : List Char) : Prop :=
  ∀ c ∈ text.head?, p c = false

/-- The text behind the blanks that come next. -/
def afterBlanks (text : List Char) : List Char :=
  text.dropWhile isBlank

/-- The operators, the parentheses and the comma. -/
def signs : List String :=
  ["||", "|", "&&", "&", "<=", "<>", "<", ">=", ">", "==", "=", "!=", "+", "-", "*", "/", "%", "^",
    "(", ")", ","]

/-- The sign comes next in the text, and no longer one does. -/
structure SignAt (sign : String) (text rest : List Char) : Prop where
  mem : sign ∈ signs
  spelled : afterBlanks text = sign.toList ++ rest
  longest : ∀ other ∈ signs, other.toList <+: afterBlanks text →
    other.toList.length ≤ sign.toList.length

/-- An `e`, a sign or none, and at least one digit. -/
inductive IsExponent : List Char → Prop where
  | mk {e : Char} {sign digits : List Char} (letter : e = 'e' ∨ e = 'E')
      (optional : sign = [] ∨ sign = ['+'] ∨ sign = ['-']) (nonempty : digits ≠ [])
      (all : ∀ c ∈ digits, isDigit c = true) : IsExponent (e :: (sign ++ digits))

/-- The longest numeral in front of a rest: digits and points, and an exponent if one follows. -/
inductive IsNumeral : List Char → List Char → Prop where
  | whole {mantissa rest : List Char} (nonempty : mantissa ≠ [])
      (all : ∀ c ∈ mantissa, Numeral.isMantissaChar c = true)
      (stop : NotNext Numeral.isMantissaChar rest) (none : ∀ e, IsExponent e → ¬ e <+: rest) :
      IsNumeral mantissa rest
  | scaled {mantissa exponent rest : List Char} (nonempty : mantissa ≠ [])
      (all : ∀ c ∈ mantissa, Numeral.isMantissaChar c = true) (some : IsExponent exponent)
      (stop : NotNext isDigit rest) : IsNumeral (mantissa ++ exponent) rest

/-- A numeral comes next in the text and denotes the value. -/
def NumeralAt (value : Float) (text rest : List Char) : Prop :=
  ∃ spelling, afterBlanks text = spelling ++ rest ∧ IsNumeral spelling rest ∧
    Numeral.value? spelling = some value

/-- The longest name in front of a rest. -/
structure IsName (name : String) (rest : List Char) : Prop where
  starts : ∃ c cs, name.toList = c :: cs ∧ startsName c = true
  continues : ∀ c ∈ name.toList, continuesName c = true
  stop : NotNext continuesName rest

/-- A name that is not called comes next in the text. -/
structure NameAt (name : String) (text rest : List Char) : Prop where
  isName : IsName name rest
  spelled : afterBlanks text = name.toList ++ rest
  notCalled : rest.head? ≠ some '('

/-- A name and, at once behind it, an opening parenthesis come next in the text. -/
structure CallAt (name : String) (text rest : List Char) : Prop where
  isName : IsName name ('(' :: rest)
  spelled : afterBlanks text = name.toList ++ '(' :: rest

/-! ### Runs of characters -/

section Runs

variable {p : Char → Bool} {run rest : List Char}

theorem notNext_nil : NotNext p [] := by simp [NotNext]

theorem notNext_cons {c : Char} : NotNext p (c :: rest) ↔ p c = false := by simp [NotNext]

theorem notNext_dropWhile (text : List Char) : NotNext p (text.dropWhile p) := by
  induction text with
  | nil => exact notNext_nil
  | cons c rest ih =>
    by_cases h : p c = true
    · rwa [List.dropWhile_cons_of_pos h]
    · rw [List.dropWhile_cons_of_neg h]
      simpa [notNext_cons] using h

theorem takeWhile_of_notNext (stop : NotNext p rest) : rest.takeWhile p = [] := by
  cases rest with
  | nil => rfl
  | cons c rest => exact List.takeWhile_cons_of_neg (by simp [notNext_cons.mp stop])

theorem dropWhile_of_notNext (stop : NotNext p rest) : rest.dropWhile p = rest := by
  cases rest with
  | nil => rfl
  | cons c rest => exact List.dropWhile_cons_of_neg (by simp [notNext_cons.mp stop])

theorem takeWhile_run (all : ∀ c ∈ run, p c = true) (stop : NotNext p rest) :
    (run ++ rest).takeWhile p = run := by
  rw [List.takeWhile_append_of_pos all, takeWhile_of_notNext stop, List.append_nil]

theorem dropWhile_run (all : ∀ c ∈ run, p c = true) (stop : NotNext p rest) :
    (run ++ rest).dropWhile p = rest := by
  rw [List.dropWhile_append_of_pos all, dropWhile_of_notNext stop]

theorem all_takeWhile (text : List Char) : ∀ c ∈ text.takeWhile p, p c = true := by
  induction text with
  | nil => simp
  | cons x rest ih =>
    by_cases h : p x = true
    · rw [List.takeWhile_cons_of_pos h]
      simpa [h] using ih
    · rw [List.takeWhile_cons_of_neg h]
      simp

end Runs

theorem afterBlanks_idem (text : List Char) : afterBlanks (afterBlanks text) = afterBlanks text :=
  dropWhile_of_notNext (notNext_dropWhile text)

theorem afterBlanks_cons {c : Char} {text : List Char} (h : isBlank c = false) :
    afterBlanks (c :: text) = c :: text :=
  dropWhile_of_notNext (notNext_cons.mpr h)

theorem afterBlanks_space (text : List Char) : afterBlanks (' ' :: text) = afterBlanks text :=
  List.dropWhile_cons_of_pos (by decide)

theorem length_afterBlanks_le (text : List Char) : (afterBlanks text).length ≤ text.length :=
  (List.dropWhile_sublist isBlank).length_le

/-! ### The scanner of numerals -/

theorem IsExponent.head {e : List Char} (h : IsExponent e) :
    ∃ c cs, e = c :: cs ∧ Numeral.isMantissaChar c = false := by
  cases h with
  | mk letter => exact ⟨_, _, rfl, by rcases letter with rfl | rfl <;> decide⟩

theorem scanExponent_append {e rest : List Char} (h : IsExponent e) (stop : NotNext isDigit rest) :
    Numeral.scanExponent (e ++ rest) = e := by
  cases h with
  | @mk c sign digits letter optional nonempty all =>
    obtain ⟨d, ds, rfl⟩ := List.exists_cons_of_ne_nil nonempty
    have hd : isDigit d = true := all d (by simp)
    have hrun : (d :: (ds ++ rest)).takeWhile isDigit = d :: ds := takeWhile_run all stop
    rcases optional with rfl | rfl | rfl
    · have hplus : d ≠ '+' := by rintro rfl; exact absurd hd (by decide)
      have hminus : d ≠ '-' := by rintro rfl; exact absurd hd (by decide)
      simp [Numeral.scanExponent, letter, hplus, hminus, hd, hrun]
    · simp [Numeral.scanExponent, letter, hd, hrun]
    · simp [Numeral.scanExponent, letter, hd, hrun]

/-- An exponent goes on with more digits. -/
theorem IsExponent.lengthen {e digits : List Char} (h : IsExponent e)
    (more : ∀ c ∈ digits, isDigit c = true) : IsExponent (e ++ digits) := by
  cases h with
  | mk letter optional nonempty all =>
    rw [List.cons_append, List.append_assoc]
    exact .mk letter optional (by simp [nonempty]) (List.forall_mem_append.mpr ⟨all, more⟩)

/-- Where an exponent comes next, the scanner takes it and the digits behind it. -/
theorem scanExponent_of_isExponent {e : List Char} (h : IsExponent e) (more : List Char) :
    Numeral.scanExponent (e ++ more) = e ++ more.takeWhile isDigit := by
  calc Numeral.scanExponent (e ++ more)
      = Numeral.scanExponent (e ++ more.takeWhile isDigit ++ more.dropWhile isDigit) := by
        rw [List.append_assoc, List.takeWhile_append_dropWhile]
    _ = e ++ more.takeWhile isDigit :=
        scanExponent_append (h.lengthen (all_takeWhile more)) (notNext_dropWhile more)

/-- Either no exponent comes next, or the scanner takes it as far as its digits go. -/
theorem scanExponent_cases (text : List Char) :
    (Numeral.scanExponent text = [] ∧ ∀ e, IsExponent e → ¬ e <+: text) ∨
      ∃ e rest, text = e ++ rest ∧ IsExponent e ∧ NotNext isDigit rest := by
  by_cases h : ∃ e, IsExponent e ∧ e <+: text
  · obtain ⟨e, he, more, rfl⟩ := h
    refine .inr ⟨e ++ more.takeWhile isDigit, more.dropWhile isDigit, ?_,
      he.lengthen (all_takeWhile more), notNext_dropWhile more⟩
    rw [List.append_assoc, List.takeWhile_append_dropWhile]
  · have hno : ∀ e, IsExponent e → ¬ e <+: text := fun e he hp => h ⟨e, he, hp⟩
    refine .inl ⟨?_, hno⟩
    -- a scanned exponent would be one that comes next
    unfold Numeral.scanExponent
    split
    · rename_i e rest
      split
      · rename_i letter
        split
        · rename_i sign digits
          split
          · rename_i optional
            split
            · rename_i hd
              obtain ⟨d, hd, hdigit⟩ := (Option.any_eq_true _ _).mp hd
              obtain ⟨ds, rfl⟩ := List.head?_eq_some_iff.mp hd
              refine absurd ⟨ds, by simp⟩ (hno (e :: ([sign] ++ [d])) (.mk letter ?_ (by simp) ?_))
              · rcases optional with rfl | rfl <;> simp
              · simpa using hdigit
            · rfl
          · split
            · rename_i hd
              refine absurd ⟨digits, by simp⟩
                (hno (e :: ([] ++ [sign])) (.mk letter (.inl rfl) (by simp) ?_))
              simpa using hd
            · rfl
        · rfl
      · rfl
    · rfl

/-- The scanner takes the longest numeral. -/
theorem scan_append {spelling rest : List Char} (h : IsNumeral spelling rest) :
    Numeral.scan (spelling ++ rest) = spelling := by
  cases h with
  | whole nonempty all stop none =>
    rw [Numeral.scan, takeWhile_run all stop, dropWhile_run all stop]
    rcases scanExponent_cases rest with ⟨h, -⟩ | ⟨e, after, rfl, he, -⟩
    · rw [h, List.append_nil]
    · exact absurd (List.prefix_append e after) (none e he)
  | @scaled mantissa exponent rest nonempty all some stop =>
    have hstop : NotNext Numeral.isMantissaChar (exponent ++ rest) := by
      obtain ⟨c, cs, rfl, hc⟩ := some.head
      exact notNext_cons.mpr hc
    rw [List.append_assoc, Numeral.scan, takeWhile_run all hstop, dropWhile_run all hstop,
      scanExponent_append some stop]

/-- What the scanner takes where a digit or a point comes next is a numeral. -/
theorem isNumeral_scan {text : List Char} (h : ¬ NotNext Numeral.isMantissaChar text) :
    ∃ rest, text = Numeral.scan text ++ rest ∧ IsNumeral (Numeral.scan text) rest := by
  have hne : text.takeWhile Numeral.isMantissaChar ≠ [] := by
    intro he
    refine h ?_
    have hd := notNext_dropWhile (p := Numeral.isMantissaChar) text
    rwa [← List.takeWhile_append_dropWhile (p := Numeral.isMantissaChar) (l := text), he,
      List.nil_append]
  have hsplit := List.takeWhile_append_dropWhile (p := Numeral.isMantissaChar) (l := text)
  have hstop := notNext_dropWhile (p := Numeral.isMantissaChar) text
  have hall := all_takeWhile (p := Numeral.isMantissaChar) text
  generalize hm : text.takeWhile Numeral.isMantissaChar = mantissa at *
  generalize hr : text.dropWhile Numeral.isMantissaChar = rest at *
  subst hsplit
  rcases scanExponent_cases rest with ⟨he, hno⟩ | ⟨e, after, rfl, he, hstop'⟩
  · have hs : Numeral.scan (mantissa ++ rest) = mantissa := by
      rw [Numeral.scan, hm, hr, he, List.append_nil]
    rw [hs]
    exact ⟨rest, rfl, .whole hne hall hstop hno⟩
  · have hs : Numeral.scan (mantissa ++ (e ++ after)) = mantissa ++ e := by
      rw [Numeral.scan, hm, hr, scanExponent_append he hstop']
    rw [hs]
    exact ⟨after, (List.append_assoc _ _ _).symm, .scaled hne hall he hstop'⟩

end Formulae.Grammar
