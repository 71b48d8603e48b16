import Formulae.Console.Highlight
import Formulae.Proofs.Console.Cutting
import Formulae.Proofs.Grammar.Follow

/-!
# Proofs.Console.Lexemes — the lexemes of the grammar as tokens

In a text without foreign characters, what the grammar takes for a sign, a numeral or a name is the token
that comes next, and what it takes for blanks is the gap in front of it.

* `leads_sign`, `leads_numeral`, `leads_name`: a lexeme is the longest token that starts at its place.
* `exists_tokens`: the tokens of a text that starts with a lexeme.
* `Cuts.opensAtOnce_iff`: a name is called by the tokens just where it is called by the characters.
-/

namespace Formulae.Console

open Text Number Grammar

/-! ### Characters that are not foreign -/

theorem Plain.of_append {a b : List Char} (h : Plain (a ++ b)) : Plain a ∧ Plain b :=
  List.forall_mem_append.mp h

section Characters

variable {c : Char}

theorem isGap_of_isBlank (plain : isForeign c = false) (h : isBlank c = true) : isGap c = true := by
  have hboth := (Bool.or_eq_false_iff.mp plain).2
  simpa [h] using hboth

theorem startsAsciiName_of_startsName (plain : isForeign c = false) (h : startsName c = true) :
    startsAsciiName c = true := by
  have hboth := (Bool.or_eq_false_iff.mp plain).1
  simpa [h] using hboth

theorem continuesAsciiName_of_continuesName (plain : isForeign c = false) (h : continuesName c = true) :
    continuesAsciiName c = true := by
  rcases (Bool.or_eq_true _ _).mp h with h | h
  · simp [continuesAsciiName, startsAsciiName_of_startsName plain h]
  · simp [continuesAsciiName, h]

theorem continuesName_of_continuesAsciiName (h : continuesAsciiName c = true) :
    continuesName c = true := by
  have hletter : c.isAlpha = true → startsName c = true := by
    intro halpha
    simp [startsName, isLetter, lt_of_isAlpha halpha, halpha]
  simp only [continuesAsciiName, startsAsciiName, Bool.or_eq_true, beq_iff_eq] at h
  rcases h with (h | rfl) | h
  · exact continuesName_of_startsName (hletter h)
  · decide
  · simp [continuesName, h]

/-- What a character of a mantissa is not. -/
theorem isMantissaChar_cases (h : Numeral.isMantissaChar c = true) :
    isGap c = false ∧ startsAsciiName c = false ∧ c ≠ '(' ∧ c ≠ ')' ∧ c ≠ ',' := by
  have hlexical : isLexical c = true := by simp [isLexical, isNumeralChar, h]
  refine of_ascii (fun c => Numeral.isMantissaChar c = true → isGap c = false ∧
    startsAsciiName c = false ∧ c ≠ '(' ∧ c ≠ ')' ∧ c ≠ ',') ?_ (lt_of_isLexical hlexical) h
  decide +kernel

/-- What a character at the start of a name is not. -/
theorem startsAsciiName_cases (h : startsAsciiName c = true) :
    isGap c = false ∧ c ≠ '(' ∧ c ≠ ')' ∧ c ≠ ',' := by
  have hlexical : isLexical c = true := by simp [isLexical, continuesAsciiName, h]
  refine of_ascii (fun c => startsAsciiName c = true → isGap c = false ∧ c ≠ '(' ∧ c ≠ ')' ∧ c ≠ ',')
    ?_ (lt_of_isLexical hlexical) h
  decide +kernel

end Characters

/-! ### Signs -/

/-- A character that starts an operator or is stray. -/
def isSymbol (c : Char) : Bool :=
  !isGap c && c != '(' && c != ')' && c != ',' && !startsAsciiName c && !Numeral.isMantissaChar c

theorem isSymbol_of_mem_long {c d : Char} (mem : (c, d) ∈ longOperators) : isSymbol c = true := by
  have hall : (longOperators.all fun p => isSymbol p.1) = true := by decide
  exact List.all_eq_true.mp hall (c, d) mem

theorem isSymbol_of_mem_short {c : Char} (mem : c ∈ shortOperators) : isSymbol c = true := by
  have hall : shortOperators.all isSymbol = true := by decide
  exact List.all_eq_true.mp hall c mem

/-- What a text starts with that starts with a symbol. -/
theorem firstToken_of_isSymbol {c : Char} (rest : List Char) (h : isSymbol c = true) :
    firstToken c rest =
      if operatorLength c rest ≠ 0 then (.operator, operatorLength c rest) else (.stray, 1) := by
  simp only [isSymbol, Bool.and_eq_true, Bool.not_eq_true', bne_iff_ne] at h
  obtain ⟨⟨⟨⟨⟨-, unopened⟩, unclosed⟩, noComma⟩, unnamed⟩, noNumeral⟩ := h
  have hnumeral : numeralAt (c :: rest) = [] := by
    obtain ⟨hdigit, hpoint⟩ := Bool.or_eq_false_iff.mp noNumeral
    have hpoint : c ≠ '.' := by simpa using hpoint
    unfold numeralAt
    rw [List.takeWhile_cons_of_neg (by simp [hdigit]), List.dropWhile_cons_of_neg (by simp [hdigit])]
    dsimp only
    split <;> simp_all
  rw [firstToken_of_unnamed _ unopened unclosed noComma unnamed, hnumeral, if_neg fun h => h rfl]

/-- Where an operator starts, the token is as long as the operator. -/
theorem leads_operator {c : Char} {cs rest : List Char} (h : isSymbol c = true)
    (hlength : operatorLength c (cs ++ rest) = cs.length + 1) : Leads .operator (c :: cs) rest := by
  have noGap : isGap c = false := by
    simp only [isSymbol, Bool.and_eq_true, Bool.not_eq_true'] at h
    exact h.1.1.1.1.1
  refine .mk noGap ?_
  rw [firstToken_of_isSymbol _ h, hlength, if_pos (Nat.succ_ne_zero _)]

theorem leads_long {c d : Char} (mem : (c, d) ∈ longOperators) (rest : List Char) :
    Leads .operator [c, d] rest := by
  refine leads_operator (isSymbol_of_mem_long mem) ?_
  simp [operatorLength, mem]

theorem leads_short {c : Char} {rest : List Char} (mem : c ∈ shortOperators)
    (longest : ∀ d ∈ rest.head?, (c, d) ∉ longOperators) : Leads .operator [c] rest := by
  have hlong : ¬ rest.head?.any (fun d => longOperators.contains (c, d)) = true := by
    rw [Option.any_eq_true]
    rintro ⟨d, hd, hmem⟩
    exact longest d hd (List.contains_iff_mem.mp hmem)
  refine leads_operator (isSymbol_of_mem_short mem) ?_
  show operatorLength c rest = 1
  rw [operatorLength, if_neg hlong, if_pos (List.contains_iff_mem.mpr mem)]

/-- What the signs of the grammar are among the tokens. -/
theorem sign_cases {sign : String} (mem : sign ∈ signs) :
    sign ∈ ["(", ")", ","] ∨ (∃ p ∈ longOperators, sign.toList = [p.1, p.2]) ∨
      ∃ c ∈ shortOperators, sign.toList = [c] := by
  have hall : ∀ sign ∈ signs,
      (["(", ")", ","].contains sign || (longOperators.any fun p => sign.toList == [p.1, p.2]) ||
        shortOperators.any fun c => sign.toList == [c]) = true := by
    decide
  simpa [or_assoc] using hall sign mem

/-- A sign is a parenthesis, a comma or an operator among the tokens. -/
theorem leads_sign {sign : String} {text rest : List Char} (h : SignAt sign text rest) :
    ∃ kind ∈ [TokenKind.open, .close, .comma, .operator], Leads kind sign.toList rest := by
  rcases sign_cases h.mem with hs | ⟨⟨c, d⟩, mem, hs⟩ | ⟨c, mem, hs⟩
  · simp only [List.mem_cons, List.not_mem_nil, or_false] at hs
    rcases hs with rfl | rfl | rfl
    · exact ⟨.open, by decide, .mk (by decide) rfl⟩
    · exact ⟨.close, by decide, .mk (by decide) rfl⟩
    · exact ⟨.comma, by decide, .mk (by decide) rfl⟩
  · exact ⟨.operator, by decide, hs ▸ leads_long mem rest⟩
  · refine ⟨.operator, by decide, hs ▸ leads_short mem fun d hd hlong => ?_⟩
    -- the longer operator would be the longer sign
    have hsigns : ∀ p ∈ longOperators, signs.contains (String.ofList [p.1, p.2]) = true :=
      List.all_eq_true.mp (by decide)
    obtain ⟨more, rfl⟩ := List.head?_eq_some_iff.mp hd
    have hprefix : (String.ofList [c, d]).toList <+: afterBlanks text := by
      rw [h.spelled, hs, String.toList_ofList]
      exact ⟨more, rfl⟩
    have hle := h.longest _ (List.contains_iff_mem.mp (hsigns _ hlong)) hprefix
    rw [hs, String.toList_ofList, List.length_singleton, List.length_cons, List.length_singleton] at hle
    omega

/-! ### Numerals and names -/

/-- Digits, perhaps with a point among them, in front of them or behind them. -/
inductive IsMantissa : List Char → Prop where
  | whole {digits : List Char} (nonempty : digits ≠ []) (all : ∀ c ∈ digits, isDigit c = true) :
      IsMantissa digits
  | point {digits places : List Char} (nonempty : digits ≠ [] ∨ places ≠ [])
      (all : ∀ c ∈ digits, isDigit c = true) (all' : ∀ c ∈ places, isDigit c = true) :
      IsMantissa (digits ++ '.' :: places)

/-- What has a value has a digit and at most one point. -/
theorem isMantissa_of_value? {mantissa tail : List Char} {value : Float}
    (all : ∀ c ∈ mantissa, Numeral.isMantissaChar c = true) (stop : NotNext Numeral.isMantissaChar tail)
    (hvalue : Numeral.value? (mantissa ++ tail) = some value) : IsMantissa mantissa := by
  obtain ⟨hnearest, -⟩ := Option.filter_eq_some_iff.mp hvalue
  unfold Numeral.nearest? at hnearest
  rw [takeWhile_run all stop] at hnearest
  have hsplit := List.takeWhile_append_dropWhile (p := isDigit) (l := mantissa)
  have hdigits := all_takeWhile (p := isDigit) mantissa
  have hstop := notNext_dropWhile (p := isDigit) mantissa
  dsimp only at hnearest
  generalize mantissa.takeWhile isDigit = digits at *
  generalize mantissa.dropWhile isDigit = behind at *
  subst hsplit
  split at hnearest
  · cases hnearest
  · rename_i hsome
    split at hnearest
    · rename_i hplaces
      rcases behind with _ | ⟨c, places⟩
      · rw [List.append_nil]
        exact .whole (by simpa using hsome) hdigits
      · have hc : Numeral.isMantissaChar c = true := all c (by simp)
        have hpoint : c = '.' := by simpa [Numeral.isMantissaChar, notNext_cons.mp hstop] using hc
        subst hpoint
        refine .point ?_ hdigits (List.all_eq_true.mp hplaces)
        by_contra hnone
        simp_all
    · cases hnearest

/-- Digits without a point behind them, and an exponent if one follows. -/
theorem numeralAt_whole {digits behind : List Char} (nonempty : digits ≠ [])
    (all : ∀ c ∈ digits, isDigit c = true) (stop : NotNext isDigit behind)
    (unpointed : behind.head? ≠ some '.') :
    numeralAt (digits ++ behind) = digits ++ Numeral.scanExponent behind := by
  unfold numeralAt
  rw [takeWhile_run all stop, dropWhile_run all stop]
  dsimp only
  split <;> simp_all

/-- Digits around a point, and an exponent if one follows. -/
theorem numeralAt_point {digits behind : List Char} (all : ∀ c ∈ digits, isDigit c = true)
    (nonempty : digits ≠ [] ∨ behind.takeWhile isDigit ≠ []) :
    numeralAt (digits ++ '.' :: behind) =
      digits ++ '.' :: behind.takeWhile isDigit ++ Numeral.scanExponent (behind.dropWhile isDigit) := by
  have stop : NotNext isDigit ('.' :: behind) := notNext_cons.mpr (by decide)
  unfold numeralAt
  rw [takeWhile_run all stop, dropWhile_run all stop]
  rcases digits with _ | ⟨d, ds⟩
  · obtain ⟨e, es, hplaces⟩ := List.exists_cons_of_ne_nil (nonempty.resolve_left fun h => h rfl)
    simp only [hplaces, List.nil_append]
  · rfl

/-- The digits and the point of a numeral are those of the token. -/
theorem numeralAt_append {mantissa tail : List Char} (h : IsMantissa mantissa)
    (stop : NotNext Numeral.isMantissaChar tail) :
    numeralAt (mantissa ++ tail) = mantissa ++ Numeral.scanExponent tail := by
  have hdigit : NotNext isDigit tail := fun c hc => (Bool.or_eq_false_iff.mp (stop c hc)).1
  cases h with
  | whole nonempty all =>
    exact numeralAt_whole nonempty all hdigit fun hpoint => absurd (stop '.' hpoint) (by decide)
  | @point digits places nonempty all all' =>
    have hplaces : (places ++ tail).takeWhile isDigit = places := takeWhile_run all' hdigit
    rw [List.append_assoc, List.cons_append, numeralAt_point all (by rwa [hplaces]), hplaces,
      dropWhile_run all' hdigit]

/-- The numeral of the tokens is that of the grammar, if it has a value. -/
theorem numeralAt_of_isNumeral {spelling rest : List Char} {value : Float} (h : IsNumeral spelling rest)
    (hvalue : Numeral.value? spelling = some value) : numeralAt (spelling ++ rest) = spelling := by
  cases h with
  | whole nonempty all stop none =>
    rw [← List.append_nil spelling] at hvalue
    have hmantissa : IsMantissa spelling := isMantissa_of_value? all notNext_nil hvalue
    have hexponent : Numeral.scanExponent rest = [] := by
      rcases scanExponent_cases rest with ⟨hnone, -⟩ | ⟨e, after, rfl, he, -⟩
      · exact hnone
      · exact absurd (List.prefix_append e after) (none e he)
    rw [numeralAt_append hmantissa stop, hexponent, List.append_nil]
  | @scaled mantissa exponent _ nonempty all some stop =>
    obtain ⟨c, cs, hexponent, hc⟩ := some.head
    have hstop : ∀ more, NotNext Numeral.isMantissaChar (exponent ++ more) := fun more => by
      rw [hexponent]
      exact notNext_cons.mpr hc
    have hmantissa : IsMantissa mantissa := by
      refine isMantissa_of_value? all ?_ hvalue
      rw [← List.append_nil exponent]
      exact hstop []
    rw [List.append_assoc, numeralAt_append hmantissa (hstop rest), scanExponent_append some stop]

theorem leads_numeral {spelling rest : List Char} {value : Float} (h : IsNumeral spelling rest)
    (hvalue : Numeral.value? spelling = some value) : Leads .numeral spelling rest := by
  have hnumeral := numeralAt_of_isNumeral h hvalue
  obtain ⟨c, hhead, hmantissa⟩ := h.head
  obtain ⟨cs, rfl⟩ := List.head?_eq_some_iff.mp hhead
  obtain ⟨noGap, unnamed, unopened, unclosed, noComma⟩ := isMantissaChar_cases hmantissa
  refine .mk noGap ?_
  rw [List.cons_append] at hnumeral
  rw [firstToken_of_unnamed _ unopened unclosed noComma unnamed, hnumeral]
  rfl

theorem leads_name {name : String} {rest : List Char} (h : IsName name rest) (plain : Plain name.toList) :
    Leads .name name.toList rest := by
  obtain ⟨c, cs, hname, hstarts⟩ := h.starts
  have hcontinues := h.continues
  rw [hname] at plain hcontinues ⊢
  obtain ⟨hc, hcs⟩ := List.forall_mem_cons.mp plain
  have hstarts := startsAsciiName_of_startsName hc hstarts
  have hrun : (cs ++ rest).takeWhile continuesAsciiName = cs := by
    refine takeWhile_run (fun d hd => ?_) fun d hd => ?_
    · exact continuesAsciiName_of_continuesName (hcs d hd) (hcontinues d (List.mem_cons_of_mem _ hd))
    · refine Bool.eq_false_iff.mpr fun hcontinue => ?_
      have hstop := h.stop d hd
      rw [continuesName_of_continuesAsciiName hcontinue] at hstop
      cases hstop
  obtain ⟨noGap, unopened, unclosed, noComma⟩ := startsAsciiName_cases hstarts
  refine .mk noGap ?_
  rw [firstToken, if_neg unopened, if_neg unclosed, if_neg noComma, if_pos hstarts, hrun]

/-! ### Tokens of a text -/

/-- The blanks that come next are a gap. -/
theorem Plain.exists_gap {text : List Char} (h : Plain text) :
    ∃ gap, (∀ c ∈ gap, isGap c = true) ∧ text = gap ++ afterBlanks text := by
  have hsplit : text = text.takeWhile isBlank ++ afterBlanks text :=
    List.takeWhile_append_dropWhile.symm
  refine ⟨text.takeWhile isBlank, fun c hc => isGap_of_isBlank ?_ (all_takeWhile text c hc), hsplit⟩
  exact h c ((List.takeWhile_prefix isBlank).subset hc)

/-- The tokens of a text that starts with a lexeme, perhaps behind blanks. -/
theorem exists_tokens {kind : TokenKind} {text lexeme rest : List Char} (plain : Plain text)
    (h : afterBlanks text = lexeme ++ rest) (leads : Leads kind lexeme rest) :
    Plain rest ∧ ∃ gap, (tokensFrom 0 [] text).1 = ⟨kind, gap, lexeme⟩ :: (tokensFrom 0 [] rest).1 := by
  obtain ⟨gap, hgap, hsplit⟩ := plain.exists_gap
  rw [h] at hsplit
  subst hsplit
  refine ⟨plain.of_append.2.of_append.2, gap, ?_⟩
  rw [tokensFrom_gap hgap, List.append_nil, tokensFrom_token leads, List.reverse_reverse]

/-- A text of blanks has no tokens. -/
theorem tokens_of_blank {text : List Char} (plain : Plain text) (h : afterBlanks text = []) :
    (tokensFrom 0 [] text).1 = [] := by
  obtain ⟨gap, hgap, hsplit⟩ := plain.exists_gap
  rw [hsplit, h, tokensFrom_gap hgap]
  rfl

/-- Of all tokens, those that open start with the opening parenthesis. -/
theorem IsToken.head_eq_iff {kind : TokenKind} {text : List Char} (h : IsToken kind text)
    (more : List Char) : (text ++ more).head? = some '(' ↔ kind = .open := by
  have hsymbol : ∀ {c : Char}, isSymbol c = true → c ≠ '(' := by
    rintro c hc rfl
    exact absurd hc (by decide)
  have hne : ∀ {c : Char} {cs : List Char} {kind : TokenKind}, c ≠ '(' → kind ≠ .open →
      ((c :: cs ++ more).head? = some '(' ↔ kind = .open) := fun hc hkind =>
    ⟨fun hhead => absurd (Option.some.inj hhead) hc, fun hopen => absurd hopen hkind⟩
  cases h with
  | opening => exact ⟨fun _ => rfl, fun _ => rfl⟩
  | closing => exact hne (by decide) nofun
  | comma => exact hne (by decide) nofun
  | name starts => exact hne (startsAsciiName_cases starts).2.1 nofun
  | @numeral c _ _ all =>
    have hc : isNumeralChar c = true := all c (List.mem_cons_self ..)
    exact hne (by rintro rfl; exact absurd hc (by decide)) nofun
  | long mem => exact hne (hsymbol (isSymbol_of_mem_long mem)) nofun
  | short mem => exact hne (hsymbol (isSymbol_of_mem_short mem)) nofun
  | stray unopened => exact hne unopened nofun

/-- The first token is a parenthesis without a gap before it just if the text starts with one. -/
theorem Cuts.opensAtOnce_iff {text last : List Char} {found : List Token} (h : Cuts text found last) :
    opensAtOnce found = true ↔ text.head? = some '(' := by
  have hgap : ∀ {gap more : List Char}, gap ≠ [] → (∀ c ∈ gap, isGap c = true) →
      (gap ++ more).head? ≠ some '(' := by
    rintro gap more hne hblank hhead
    obtain ⟨c, cs, rfl⟩ := List.exists_cons_of_ne_nil hne
    obtain rfl : c = '(' := by simpa using hhead
    exact absurd (hblank '(' (List.mem_cons_self ..)) (by decide)
  cases h with
  | last hblank =>
    refine ⟨nofun, fun hhead => ?_⟩
    rcases text with _ | ⟨c, cs⟩
    · cases hhead
    · rw [← List.append_nil (c :: cs)] at hhead
      exact absurd hhead (hgap (List.cons_ne_nil c cs) hblank)
  | @token kind gap text rest _ _ hblank hleads htoken =>
    rcases gap with _ | ⟨c, cs⟩
    · rw [List.nil_append, htoken.head_eq_iff rest]
      exact beq_iff_eq
    · refine ⟨nofun, fun hhead => ?_⟩
      exact absurd hhead (hgap (List.cons_ne_nil c cs) hblank)

end Formulae.Console
