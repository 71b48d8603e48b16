import Formulae.Proofs.Console.Lexemes

/-!
# Proofs.Console.Patterns — tokens as the longest matches of patterns

* `Spells kind text`: the texts that match the pattern of a kind, said without the scan.
* `firstToken_of_spells`: where a text starts with a match, its first token is of that kind and as long.
* `IsNext kind text rest`: the text is the longest match at its place, or one character where nothing
  matches; `Leads.isNext` shows it of every token.
-/

namespace Formulae.Console

open Text Number Grammar

/-- The texts that match the pattern of a kind. Stray tokens have no pattern. -/
inductive Spells : TokenKind → List Char → Prop where
  | opening : Spells .open ['(']
  | closing : Spells .close [')']
  | comma : Spells .comma [',']
  | name {c : Char} {cs : List Char} (starts : startsAsciiName c = true)
      (continues : ∀ d ∈ cs, continuesAsciiName d = true) : Spells .name (c :: cs)
  | numeral {mantissa exponent : List Char} (isMantissa : IsMantissa mantissa)
      (scaled : exponent = [] ∨ IsExponent exponent) : Spells .numeral (mantissa ++ exponent)
  | long {c d : Char} (mem : (c, d) ∈ longOperators) : Spells .operator [c, d]
  | short {c : Char} (mem : c ∈ shortOperators) : Spells .operator [c]

/-! ### Numerals -/

theorem scanExponent_scaled (text : List Char) :
    Numeral.scanExponent text = [] ∨ IsExponent (Numeral.scanExponent text) := by
  rcases scanExponent_cases text with ⟨hnone, -⟩ | ⟨e, rest, rfl, he, hstop⟩
  · exact .inl hnone
  · rw [scanExponent_append he hstop]
    exact .inr he

/-- What is taken for a numeral matches. -/
theorem spells_numeralAt {text : List Char} (h : numeralAt text ≠ []) :
    Spells .numeral (numeralAt text) := by
  have hsplit := List.takeWhile_append_dropWhile (p := isDigit) (l := text)
  have hall := all_takeWhile (p := isDigit) text
  have hstop := notNext_dropWhile (p := isDigit) text
  generalize text.takeWhile isDigit = digits at *
  generalize text.dropWhile isDigit = behind at *
  subst hsplit
  by_cases hpoint : behind.head? = some '.'
  · obtain ⟨rest, rfl⟩ := List.head?_eq_some_iff.mp hpoint
    by_cases hnonempty : digits ≠ [] ∨ rest.takeWhile isDigit ≠ []
    · rw [numeralAt_point hall hnonempty]
      exact .numeral (.point hnonempty hall (all_takeWhile rest)) (scanExponent_scaled _)
    · -- a point without digits is no numeral
      obtain ⟨rfl, hplaces⟩ : digits = [] ∧ rest.takeWhile isDigit = [] := by
        simpa [not_or] using hnonempty
      refine absurd ?_ h
      unfold numeralAt
      rw [takeWhile_run hall hstop, dropWhile_run hall hstop]
      simp only [hplaces]
  · by_cases hnonempty : digits = []
    · subst hnonempty
      refine absurd ?_ h
      unfold numeralAt
      rw [takeWhile_run hall hstop, dropWhile_run hall hstop]
      dsimp only
      split <;> simp_all
    · rw [numeralAt_whole hnonempty hall hstop hpoint]
      exact .numeral (.whole hnonempty hall) (scanExponent_scaled _)

/-- The digits and the point of a match are taken, whatever stands behind them. -/
theorem length_le_numeralAt_of_isMantissa {mantissa : List Char} (h : IsMantissa mantissa)
    (more : List Char) : mantissa.length ≤ (numeralAt (mantissa ++ more)).length := by
  have hsplit := List.takeWhile_append_dropWhile (p := isDigit) (l := more)
  have hmore := all_takeWhile (p := isDigit) more
  have hstop := notNext_dropWhile (p := isDigit) more
  cases h with
  | whole nonempty all =>
    generalize more.takeWhile isDigit = further at *
    generalize more.dropWhile isDigit = behind at *
    have hall := List.forall_mem_append.mpr ⟨all, hmore⟩
    have hnonempty := List.append_ne_nil_of_left_ne_nil nonempty further
    rw [← hsplit, ← List.append_assoc]
    by_cases hpoint : behind.head? = some '.'
    · obtain ⟨rest, rfl⟩ := List.head?_eq_some_iff.mp hpoint
      rw [numeralAt_point hall (.inl hnonempty)]
      simp only [List.length_append]
      omega
    · rw [numeralAt_whole hnonempty hall hstop hpoint]
      simp only [List.length_append]
      omega
  | @point digits places nonempty all all' =>
    have hplaces : (places ++ more).takeWhile isDigit = places ++ more.takeWhile isDigit :=
      List.takeWhile_append_of_pos all'
    have hnonempty : digits ≠ [] ∨ (places ++ more).takeWhile isDigit ≠ [] := by
      rw [hplaces]
      exact nonempty.imp_right fun h => List.append_ne_nil_of_left_ne_nil h _
    rw [List.append_assoc, List.cons_append, numeralAt_point all hnonempty, hplaces]
    simp only [List.length_append, List.length_cons]
    omega

/-- No match at the start of a text is longer than what is taken for a numeral there. -/
theorem length_le_numeralAt {mantissa exponent : List Char} (isMantissa : IsMantissa mantissa)
    (scaled : exponent = [] ∨ IsExponent exponent) (more : List Char) :
    (mantissa ++ exponent).length ≤ (numeralAt (mantissa ++ exponent ++ more)).length := by
  rcases scaled with rfl | he
  · rw [List.append_nil]
    exact length_le_numeralAt_of_isMantissa isMantissa more
  · obtain ⟨c, cs, hexponent, hc⟩ := he.head
    have hstop : NotNext Numeral.isMantissaChar (exponent ++ more) := by
      rw [hexponent]
      exact notNext_cons.mpr hc
    rw [List.append_assoc, numeralAt_append isMantissa hstop, scanExponent_of_isExponent he]
    simp only [List.length_append]
    omega

/-! ### First tokens -/

theorem IsMantissa.exists_head {mantissa : List Char} (h : IsMantissa mantissa) :
    ∃ c cs, mantissa = c :: cs ∧ Numeral.isMantissaChar c = true := by
  have hdigit : ∀ {digits : List Char} (more : List Char), digits ≠ [] →
      (∀ c ∈ digits, isDigit c = true) →
        ∃ c cs, digits ++ more = c :: cs ∧ Numeral.isMantissaChar c = true := by
    intro digits more nonempty all
    obtain ⟨d, ds, rfl⟩ := List.exists_cons_of_ne_nil nonempty
    exact ⟨d, ds ++ more, rfl, by simp [Numeral.isMantissaChar, all d (List.mem_cons_self ..)]⟩
  cases h with
  | whole nonempty all =>
    rw [← List.append_nil mantissa]
    exact hdigit [] nonempty all
  | @point digits places _ all =>
    rcases digits with _ | ⟨d, ds⟩
    · exact ⟨'.', places, rfl, by decide⟩
    · exact hdigit ('.' :: places) (List.cons_ne_nil d ds) all

/-- Where a text starts with a match, its first token is of the same kind and at least as long. -/
theorem firstToken_of_spells {kind : TokenKind} {spelling rest : List Char} {c : Char}
    (h : Spells kind spelling) (next : spelling <+: c :: rest) :
    ∃ n, firstToken c rest = (kind, n) ∧ spelling.length ≤ n := by
  obtain ⟨more, hmore⟩ := next
  cases h with
  | opening | closing | comma =>
    obtain ⟨rfl, -⟩ := List.cons_eq_cons.mp hmore
    exact ⟨1, rfl, Nat.le_refl 1⟩
  | @name c cs starts continues =>
    obtain ⟨rfl, rfl⟩ := List.cons_eq_cons.mp hmore
    obtain ⟨-, unopened, unclosed, noComma⟩ := startsAsciiName_cases starts
    refine ⟨_, by rw [firstToken, if_neg unopened, if_neg unclosed, if_neg noComma, if_pos starts], ?_⟩
    show cs.length + 1 ≤ ((cs ++ more).takeWhile continuesAsciiName).length + 1
    rw [List.takeWhile_append_of_pos continues, List.length_append]
    omega
  | numeral isMantissa scaled =>
    have hlength := length_le_numeralAt isMantissa scaled more
    obtain ⟨d, ds, rfl, hd⟩ := isMantissa.exists_head
    rw [hmore] at hlength
    obtain ⟨rfl, -⟩ := List.cons_eq_cons.mp hmore
    obtain ⟨-, unnamed, unopened, unclosed, noComma⟩ := isMantissaChar_cases hd
    have hnonempty : numeralAt (d :: rest) ≠ [] := by
      intro hnil
      rw [hnil] at hlength
      cases hlength
    refine ⟨_, ?_, hlength⟩
    rw [firstToken_of_unnamed rest unopened unclosed noComma unnamed, if_pos hnonempty]
  | @long c d mem =>
    obtain ⟨rfl, rfl⟩ := List.cons_eq_cons.mp hmore
    have hoperator : operatorLength c (d :: more) = 2 := by simp [operatorLength, mem]
    refine ⟨2, ?_, Nat.le_refl 2⟩
    show firstToken c (d :: more) = _
    rw [firstToken_of_isSymbol _ (isSymbol_of_mem_long mem), hoperator]
    rfl
  | @short c mem =>
    obtain ⟨rfl, rfl⟩ := List.cons_eq_cons.mp hmore
    have hoperator : 1 ≤ operatorLength c more := by
      unfold operatorLength
      split
      · omega
      · exact Nat.le_of_eq (if_pos (List.contains_iff_mem.mpr mem)).symm
    refine ⟨_, ?_, hoperator⟩
    show firstToken c more = _
    rw [firstToken_of_isSymbol _ (isSymbol_of_mem_short mem), if_pos (by omega)]

/-- At its place in front of the rest, the text is the longest that matches a pattern, and it matches that of
its kind only; or nothing matches there, and it is one stray character. -/
structure IsNext (kind : TokenKind) (text rest : List Char) : Prop where
  spelled : Spells kind text ∨ kind = .stray ∧ text.length = 1
  longest : ∀ other spelling, Spells other spelling → spelling <+: text ++ rest →
    other = kind ∧ spelling.length ≤ text.length

/-- A token that looks like one of its kind and is a whole numeral, if it is one, matches the pattern. -/
theorem IsToken.spells {kind : TokenKind} {text : List Char} (h : IsToken kind text)
    (whole : kind = .numeral → Spells .numeral text) :
    Spells kind text ∨ kind = .stray ∧ text.length = 1 := by
  cases h with
  | opening => exact .inl .opening
  | closing => exact .inl .closing
  | comma => exact .inl .comma
  | name starts continues => exact .inl (.name starts continues)
  | numeral => exact .inl (whole rfl)
  | long mem => exact .inl (.long mem)
  | short mem => exact .inl (.short mem)
  | stray => exact .inr ⟨rfl, rfl⟩

/-- Only one token comes next. -/
theorem Leads.unique {kind kind' : TokenKind} {text text' rest rest' : List Char} (h : Leads kind text rest)
    (h' : Leads kind' text' rest') (same : text ++ rest = text' ++ rest') : kind = kind' ∧ text = text' := by
  cases h with
  | @mk c cs _ _ first =>
    cases h' with
    | @mk c' cs' _ _ first' =>
      rw [List.cons_append, List.cons_append] at same
      obtain ⟨rfl, hrest⟩ := List.cons_eq_cons.mp same
      rw [hrest, first'] at first
      obtain ⟨hkind, hlength⟩ := Prod.mk.inj first
      exact ⟨hkind.symm, by rw [(List.append_inj hrest (by omega)).1]⟩

/-- A numeral is all that is taken for one at its place. -/
theorem Leads.numeralAt_eq {text rest : List Char} (h : Leads .numeral text rest) :
    numeralAt (text ++ rest) = text := by
  cases h with
  | @mk c cs _ _ first =>
    obtain ⟨hunopened, hunclosed, hnoComma⟩ : c ≠ '(' ∧ c ≠ ')' ∧ c ≠ ',' := by
      refine ⟨?_, ?_, ?_⟩ <;> rintro rfl <;> cases first
    have hunnamed : startsAsciiName c = false := by
      refine Bool.eq_false_iff.mpr fun hstarts => ?_
      rw [firstToken, if_neg hunopened, if_neg hunclosed, if_neg hnoComma, if_pos hstarts] at first
      cases first
    obtain ⟨⟨more, hmore⟩, -⟩ := numeralAt_part (c :: (cs ++ rest))
    rw [firstToken_of_unnamed _ hunopened hunclosed hnoComma hunnamed] at first
    rw [List.cons_append]
    split at first
    · have hlength := (Prod.mk.inj first).2
      rw [← List.cons_append] at hmore hlength ⊢
      exact (List.append_inj hmore.symm (by simpa using hlength)).1
    · split at first
      · cases first
      · cases first

/-- Every token is the longest match at its place, or one stray character. -/
theorem Leads.isNext {kind : TokenKind} {text rest : List Char} (h : Leads kind text rest) :
    IsNext kind text rest := by
  refine ⟨?_, fun other spelling hspells hnext => ?_⟩
  · have htoken : IsToken kind text := by
      obtain ⟨kind', text', more, hsame, hleads, htoken⟩ : ∃ kind' text' more,
          text ++ rest = text' ++ more ∧ Leads kind' text' more ∧ IsToken kind' text' := by
        cases h with
        | mk noGap _ => exact exists_leads _ noGap
      obtain ⟨rfl, rfl⟩ := h.unique hleads hsame
      exact htoken
    refine htoken.spells ?_
    rintro rfl
    have hnumeral := h.numeralAt_eq
    have hnonempty : text ≠ [] := by
      cases h
      exact List.cons_ne_nil _ _
    rw [← hnumeral] at hnonempty ⊢
    exact spells_numeralAt hnonempty
  · cases h with
    | @mk c cs _ _ first =>
      obtain ⟨n, hfirst, hlength⟩ := firstToken_of_spells hspells hnext
      rw [List.append_eq] at hfirst
      rw [first] at hfirst
      obtain ⟨rfl, rfl⟩ := Prod.mk.inj hfirst
      exact ⟨rfl, hlength⟩

end Formulae.Console
