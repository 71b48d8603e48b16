import Formulae.Console.Token
import Formulae.Proofs.Grammar.Balance

/-!
# Proofs.Console.Cutting — a line and its tokens

* `Leads kind text rest`: the token with which a text starts.
* `Cuts text tokens last`: the tokens of a text, each with the gap before it, and the gap behind them;
  `cuts_tokensFrom` shows that this is what cutting comes to, so no character is lost (`Cuts.text`).
* `IsToken kind text`: what tokens of a kind look like.
* `isForeign`: the characters of formulas that no token has but a stray one; a text is `Plain` without them
  (`Cuts.plain_of_no_stray`).
* `openDepth_eq_none_iff`, `openDepth_of_no_stray`: the depth of a line counts the parentheses of its text,
  unless there are stray tokens.
-/

namespace Formulae.Console

open Text Number

/-! ### One token -/

/-- The text is the token of that kind with which the text and the rest start. -/
inductive Leads (kind : TokenKind) : List Char → List Char → Prop where
  | mk {c : Char} {cs rest : List Char} (noGap : isGap c = false)
      (first : firstToken c (cs ++ rest) = (kind, cs.length + 1)) : Leads kind (c :: cs) rest

theorem tokensFrom_gap {run : List Char} (h : ∀ c ∈ run, isGap c = true) (gap rest : List Char) :
    tokensFrom 0 gap (run ++ rest) = tokensFrom 0 (run.reverse ++ gap) rest := by
  induction run generalizing gap with
  | nil => rfl
  | cons c run ih =>
    obtain ⟨hc, hrun⟩ := List.forall_mem_cons.mp h
    rw [List.cons_append, tokensFrom, if_pos hc, ih hrun, List.reverse_cons, List.append_assoc]
    rfl

theorem tokensFrom_passed (run gap rest : List Char) :
    tokensFrom run.length gap (run ++ rest) = tokensFrom 0 gap rest := by
  induction run with
  | nil => rfl
  | cons c run ih =>
    rw [List.length_cons, List.cons_append, tokensFrom]
    exact ih

theorem tokensFrom_token {kind : TokenKind} {text rest : List Char} (h : Leads kind text rest)
    (gap : List Char) :
    tokensFrom 0 gap (text ++ rest) =
      (⟨kind, gap.reverse, text⟩ :: (tokensFrom 0 [] rest).1, (tokensFrom 0 [] rest).2) := by
  cases h with
  | @mk c cs _ noGap first =>
    rw [List.cons_append, tokensFrom, if_neg (by simp [noGap]), first]
    simp only [Nat.add_sub_cancel, tokensFrom_passed]
    rw [← List.cons_append, ← List.length_cons (a := c), List.take_left]

/-! ### What tokens look like -/

/-- A character of a numeral. -/
def isNumeralChar (c : Char) : Bool :=
  Numeral.isMantissaChar c || ['e', 'E', '+', '-'].contains c

/-- What tokens of a kind look like. -/
inductive IsToken : TokenKind → List Char → Prop where
  | opening : IsToken .open ['(']
  | closing : IsToken .close [')']
  | comma : IsToken .comma [',']
  | name {c : Char} {cs : List Char} (starts : startsAsciiName c = true)
      (continues : ∀ d ∈ cs, continuesAsciiName d = true) : IsToken .name (c :: cs)
  | numeral {c : Char} {cs : List Char} (unnamed : startsAsciiName c = false)
      (all : ∀ d ∈ c :: cs, isNumeralChar d = true) : IsToken .numeral (c :: cs)
  | long {c d : Char} (mem : (c, d) ∈ longOperators) : IsToken .operator [c, d]
  | short {c : Char} (mem : c ∈ shortOperators) : IsToken .operator [c]
  | stray {c : Char} (unopened : c ≠ '(') (unclosed : c ≠ ')') : IsToken .stray [c]

/-- The exponent that the scanner takes is a part of the text, of the characters of numerals. -/
theorem scanExponent_part (text : List Char) :
    (∃ more, text = Numeral.scanExponent text ++ more) ∧
      ∀ c ∈ Numeral.scanExponent text, isNumeralChar c = true := by
  rcases Grammar.scanExponent_cases text with ⟨hnone, -⟩ | ⟨e, rest, rfl, he, hstop⟩
  · rw [hnone]
    exact ⟨⟨text, rfl⟩, List.forall_mem_nil _⟩
  · rw [Grammar.scanExponent_append he hstop]
    refine ⟨⟨rest, rfl⟩, ?_⟩
    obtain ⟨letter, optional, -, all⟩ := he
    refine List.forall_mem_cons.mpr ⟨?_, List.forall_mem_append.mpr ⟨?_, fun c hc => ?_⟩⟩
    · rcases letter with rfl | rfl <;> decide
    · refine List.all_eq_true.mp ?_
      rcases optional with rfl | rfl | rfl <;> rfl
    · simp [isNumeralChar, Numeral.isMantissaChar, all c hc]

theorem isNumeralChar_of_isDigit {c : Char} (h : isDigit c = true) : isNumeralChar c = true := by
  simp [isNumeralChar, Numeral.isMantissaChar, h]

/-- The numeral at the start of a text is a part of it, of the characters of numerals. -/
theorem numeralAt_part (text : List Char) :
    (∃ more, text = numeralAt text ++ more) ∧ ∀ c ∈ numeralAt text, isNumeralChar c = true := by
  have hsplit := List.takeWhile_append_dropWhile (p := isDigit) (l := text)
  have hwhole : ∀ c ∈ text.takeWhile isDigit, isNumeralChar c = true := fun c hc =>
    isNumeralChar_of_isDigit (Grammar.all_takeWhile text c hc)
  -- places and an exponent behind what was taken so far
  have hscan : ∀ taken rest : List Char, text = taken ++ rest → (∀ c ∈ taken, isNumeralChar c = true) →
      (∃ more, text = taken ++ Numeral.scanExponent rest ++ more) ∧
        ∀ c ∈ taken ++ Numeral.scanExponent rest, isNumeralChar c = true := by
    intro taken rest htext htaken
    obtain ⟨⟨more, hmore⟩, hall⟩ := scanExponent_part rest
    refine ⟨⟨more, ?_⟩, List.forall_mem_append.mpr ⟨htaken, hall⟩⟩
    rw [List.append_assoc, ← hmore]
    exact htext
  have hplaces : ∀ taken rest : List Char, text = taken ++ '.' :: rest →
      (∀ c ∈ taken, isNumeralChar c = true) →
        (∃ more, text = taken ++ '.' :: rest.takeWhile isDigit ++
          Numeral.scanExponent (rest.dropWhile isDigit) ++ more) ∧
        ∀ c ∈ taken ++ '.' :: rest.takeWhile isDigit ++ Numeral.scanExponent (rest.dropWhile isDigit),
          isNumeralChar c = true := by
    intro taken rest htext htaken
    refine hscan _ _ ?_ ?_
    · rw [htext, List.append_assoc, List.cons_append, List.takeWhile_append_dropWhile]
    · refine List.forall_mem_append.mpr ⟨htaken, List.forall_mem_cons.mpr ⟨by decide, fun c hc => ?_⟩⟩
      exact isNumeralChar_of_isDigit (Grammar.all_takeWhile rest c hc)
  unfold numeralAt
  generalize text.takeWhile isDigit = whole at *
  generalize text.dropWhile isDigit = tail at *
  dsimp only
  split
  · split
    · exact ⟨⟨text, rfl⟩, List.forall_mem_nil _⟩
    · exact hplaces [] _ hsplit.symm (List.forall_mem_nil _)
  · exact ⟨⟨text, rfl⟩, List.forall_mem_nil _⟩
  · rename_i rest _
    exact hplaces whole rest hsplit.symm hwhole
  · exact hscan whole _ hsplit.symm hwhole

/-- What a text starts with that starts with neither a parenthesis nor a comma nor a name. -/
theorem firstToken_of_unnamed {c : Char} (rest : List Char) (unopened : c ≠ '(') (unclosed : c ≠ ')')
    (noComma : c ≠ ',') (unnamed : startsAsciiName c = false) :
    firstToken c rest =
      if numeralAt (c :: rest) ≠ [] then (.numeral, (numeralAt (c :: rest)).length)
      else if operatorLength c rest ≠ 0 then (.operator, operatorLength c rest)
      else (.stray, 1) := by
  rw [firstToken, if_neg unopened, if_neg unclosed, if_neg noComma, if_neg (by simp [unnamed])]
  rcases numeralAt (c :: rest) with _ | ⟨d, ds⟩
  · rcases operatorLength c rest with _ | n <;> rfl
  · rfl

/-- Every text that does not start with a gap starts with a token, which looks as its kind does. -/
theorem exists_leads {c : Char} (rest : List Char) (h : isGap c = false) :
    ∃ kind text more, c :: rest = text ++ more ∧ Leads kind text more ∧ IsToken kind text := by
  have hone : ∀ {kind : TokenKind}, firstToken c rest = (kind, 1) → IsToken kind [c] →
      ∃ kind text more, c :: rest = text ++ more ∧ Leads kind text more ∧ IsToken kind text :=
    fun hfirst htoken => ⟨_, [c], rest, rfl, .mk h hfirst, htoken⟩
  by_cases hopen : c = '('
  · subst hopen
    exact hone rfl .opening
  by_cases hclose : c = ')'
  · subst hclose
    exact hone rfl .closing
  by_cases hcomma : c = ','
  · subst hcomma
    exact hone rfl .comma
  by_cases hname : startsAsciiName c = true
  · refine ⟨.name, c :: rest.takeWhile continuesAsciiName, rest.dropWhile continuesAsciiName, ?_,
      .mk h ?_, .name hname (Grammar.all_takeWhile rest)⟩
    · rw [List.cons_append, List.takeWhile_append_dropWhile]
    · rw [List.takeWhile_append_dropWhile, firstToken, if_neg hopen, if_neg hclose, if_neg hcomma,
        if_pos hname]
  have hfirst := firstToken_of_unnamed rest hopen hclose hcomma (by simpa using hname)
  obtain ⟨⟨more, hmore⟩, hall⟩ := numeralAt_part (c :: rest)
  rcases hnumeral : numeralAt (c :: rest) with _ | ⟨d, ds⟩
  · rw [hnumeral, if_neg fun h => h rfl] at hfirst
    unfold operatorLength at hfirst
    by_cases hlong : rest.head?.any (fun d => longOperators.contains (c, d)) = true
    · obtain ⟨d, hd, hmem⟩ := (Option.any_eq_true _ _).mp hlong
      obtain ⟨more, rfl⟩ := List.head?_eq_some_iff.mp hd
      rw [if_pos hlong] at hfirst
      exact ⟨.operator, [c, d], more, rfl, .mk h hfirst, .long (List.contains_iff_mem.mp hmem)⟩
    · rw [if_neg hlong] at hfirst
      by_cases hshort : shortOperators.contains c = true
      · rw [if_pos hshort] at hfirst
        exact hone hfirst (.short (List.contains_iff_mem.mp hshort))
      · rw [if_neg hshort] at hfirst
        exact hone hfirst (.stray hopen hclose)
  · rw [hnumeral] at hmore hall
    rw [hnumeral, if_pos (List.cons_ne_nil d ds)] at hfirst
    obtain ⟨rfl, hrest⟩ := List.cons.inj hmore
    subst hrest
    exact ⟨.numeral, c :: ds, more, rfl, .mk h hfirst, .numeral (by simpa using hname) hall⟩

/-! ### All tokens -/

/-- The tokens of a text, each with the gap before it, and the gap behind the last one. -/
inductive Cuts : List Char → List Token → List Char → Prop where
  | last {gap : List Char} (blank : ∀ c ∈ gap, isGap c = true) : Cuts gap [] gap
  | token {kind : TokenKind} {gap text rest last : List Char} {following : List Token}
      (blank : ∀ c ∈ gap, isGap c = true) (leads : Leads kind text rest) (token : IsToken kind text)
      (others : Cuts rest following last) :
      Cuts (gap ++ (text ++ rest)) (⟨kind, gap, text⟩ :: following) last

theorem cuts_tokensFrom (text : List Char) :
    Cuts text (tokensFrom 0 [] text).1 (tokensFrom 0 [] text).2 := by
  induction hn : text.length using Nat.strongRecOn generalizing text with
  | ind n ih =>
    have hblank := Grammar.all_takeWhile (p := isGap) text
    have hsplit := List.takeWhile_append_dropWhile (p := isGap) (l := text)
    have hstop := Grammar.notNext_dropWhile (p := isGap) text
    generalize text.takeWhile isGap = gap at *
    generalize text.dropWhile isGap = behind at *
    subst hsplit
    rw [tokensFrom_gap hblank, List.append_nil]
    rcases behind with _ | ⟨c, rest⟩
    · rw [List.append_nil, tokensFrom, List.reverse_reverse]
      exact .last hblank
    · obtain ⟨kind, token, more, htext, hleads, htoken⟩ :=
        exists_leads rest (Grammar.notNext_cons.mp hstop)
      rw [htext, tokensFrom_token hleads, List.reverse_reverse]
      refine .token hblank hleads htoken (ih _ ?_ more rfl)
      have hlength := congrArg List.length htext
      have hpos : 0 < token.length := by
        cases hleads
        exact Nat.succ_pos _
      rw [List.length_append] at hlength
      rw [← hn, List.length_append]
      omega

/-- No character is lost. -/
theorem Cuts.text {text last : List Char} {found : List Token} (h : Cuts text found last) :
    (found.flatMap fun t => t.gap ++ t.text) ++ last = text := by
  induction h with
  | last => rfl
  | token _ _ _ _ ih => rw [List.flatMap_cons, List.append_assoc, ih, List.append_assoc]

theorem Cuts.isToken {text last : List Char} {found : List Token} (h : Cuts text found last) :
    ∀ t ∈ found, IsToken t.kind t.text := by
  induction h with
  | last => exact List.forall_mem_nil _
  | token _ _ token _ ih => exact List.forall_mem_cons.mpr ⟨token, ih⟩

/-! ### Characters of formulas that are stray -/

/-- A character that may stand in a formula, a letter beyond those of ASCII or a blank that is no gap, but
in no token. -/
def isForeign (c : Char) : Bool :=
  (startsName c && !startsAsciiName c) || (isBlank c && !isGap c)

/-- No character of the text is foreign. -/
def Plain (text : List Char) : Prop :=
  ∀ c ∈ text, isForeign c = false

/-- The characters of gaps and of tokens that are not stray. -/
def isLexical (c : Char) : Bool :=
  isGap c || continuesAsciiName c || isNumeralChar c || "(),*/%^<>=&|!".toList.contains c

theorem lt_of_isAlpha {c : Char} (h : c.isAlpha = true) : c.toNat < 128 := by
  have hz : 'Z'.val.toNat = 90 ∧ 'z'.val.toNat = 122 := ⟨rfl, rfl⟩
  have hval : c.toNat = c.val.toNat := rfl
  rcases (Bool.or_eq_true _ _).mp h with hupper | hlower
  · have hle := UInt32.le_iff_toNat_le.mp (of_decide_eq_true hupper).2
    omega
  · have hle := UInt32.le_iff_toNat_le.mp (of_decide_eq_true ((Bool.and_eq_true _ _).mp hlower).2)
    omega

theorem lt_of_isLexical {c : Char} (h : isLexical c = true) : c.toNat < 128 := by
  have hdigit : isDigit c = true → c.toNat < 128 := by
    intro hd
    have h9 : c.toNat ≤ 57 := (Char.isDigit_iff_toNat.mp hd).2
    omega
  have hmem : ∀ {list : List Char}, list.all (·.toNat < 128) = true → c ∈ list → c.toNat < 128 :=
    fun hall hc => by simpa using List.all_eq_true.mp hall c hc
  simp only [isLexical, isGap, continuesAsciiName, startsAsciiName, isNumeralChar,
    Numeral.isMantissaChar, Bool.or_eq_true, beq_iff_eq, List.contains_iff_mem] at h
  rcases h with ((h | h) | h) | h
  · have hgap : c ∈ [' ', '\t', '\n', '\x0C'] := by simpa [or_assoc] using h
    exact hmem (by decide) hgap
  · rcases h with (h | rfl) | h
    · exact lt_of_isAlpha h
    · decide
    · exact hdigit h
  · rcases h with (h | rfl) | h
    · exact hdigit h
    · decide
    · exact hmem (by decide) h
  · exact hmem (by decide) h

/-- What holds of the ASCII characters, seen one by one. -/
theorem of_ascii (p : Char → Prop) (h : ∀ n < 128, p (Char.ofNat n)) {c : Char} (hc : c.toNat < 128) :
    p c := by
  have hp := h c.toNat hc
  rwa [Char.ofNat_toNat] at hp

/-- None of them is foreign. -/
theorem not_isForeign_of_isLexical {c : Char} (h : isLexical c = true) : isForeign c = false := by
  refine of_ascii (fun c => isLexical c = true → isForeign c = false) ?_ (lt_of_isLexical h) h
  decide +kernel

theorem IsToken.isLexical {kind : TokenKind} {text : List Char} (h : IsToken kind text)
    (placed : kind ≠ .stray) : ∀ c ∈ text, isLexical c = true := by
  have hoperators : (longOperators.all fun p => Console.isLexical p.1 && Console.isLexical p.2) = true ∧
      (shortOperators.all Console.isLexical) = true := by
    decide
  cases h with
  | opening | closing | comma => exact List.forall_mem_singleton.mpr (by decide)
  | name starts continues =>
    refine List.forall_mem_cons.mpr ⟨?_, fun d hd => ?_⟩
    · simp [Console.isLexical, continuesAsciiName, starts]
    · simp [Console.isLexical, continues d hd]
  | numeral _ all => exact fun d hd => by simp [Console.isLexical, all d hd]
  | long mem =>
    have hboth := List.all_eq_true.mp hoperators.1 _ mem
    simpa using hboth
  | short mem =>
    have hone := List.all_eq_true.mp hoperators.2 _ mem
    simpa using hone
  | stray => exact absurd rfl placed

/-- A text without stray tokens has no foreign character. -/
theorem Cuts.plain_of_no_stray {text last : List Char} {found : List Token} (h : Cuts text found last)
    (placed : ∀ t ∈ found, t.kind ≠ .stray) : Plain text := by
  have hgap : ∀ {gap : List Char}, (∀ c ∈ gap, isGap c = true) → Plain gap :=
    fun hblank c hc => not_isForeign_of_isLexical (by simp [isLexical, hblank c hc])
  induction h with
  | last blank => exact hgap blank
  | token blank _ token _ ih =>
    obtain ⟨hkind, hothers⟩ := List.forall_mem_cons.mp placed
    refine List.forall_mem_append.mpr ⟨hgap blank, List.forall_mem_append.mpr ⟨?_, ih hothers⟩⟩
    exact fun c hc => not_isForeign_of_isLexical (token.isLexical hkind c hc)

/-! ### Open parentheses -/

theorem IsToken.excess {kind : TokenKind} {text : List Char} (h : IsToken kind text) :
    Grammar.excess text = kind.depth := by
  have hinner : ∀ {p : Char → Bool}, p '(' = false ∧ p ')' = false ∧ p ',' = false →
      (∀ c ∈ text, p c = true) → Grammar.excess text = 0 :=
    fun hp hall => (Grammar.piece_of_kind hall hp).excess
  have hoperators : (longOperators.all fun p => Grammar.isInner p.1 && Grammar.isInner p.2) = true ∧
      (shortOperators.all Grammar.isInner) = true := by
    decide
  cases h with
  | opening | closing | comma => decide
  | name starts continues =>
    refine hinner (p := continuesAsciiName) (by decide) (List.forall_mem_cons.mpr ⟨?_, continues⟩)
    simp [continuesAsciiName, starts]
  | numeral _ all => exact hinner (by decide) all
  | long mem =>
    have hboth := List.all_eq_true.mp hoperators.1 _ mem
    exact hinner (p := Grammar.isInner) (by decide) (by simpa using hboth)
  | short mem =>
    have hone := List.all_eq_true.mp hoperators.2 _ mem
    exact hinner (p := Grammar.isInner) (by decide) (by simpa using hone)
  | stray unopened unclosed =>
    rw [Grammar.excess, List.count_singleton, List.count_singleton]
    simp [unopened, unclosed, TokenKind.depth]

theorem Cuts.excess {text last : List Char} {found : List Token} (h : Cuts text found last)
    (depth : Int) :
    found.foldl (fun depth t => depth + t.kind.depth) depth = depth + Grammar.excess text := by
  have hgap : ∀ {gap : List Char}, (∀ c ∈ gap, isGap c = true) → Grammar.excess gap = 0 :=
    fun hblank => (Grammar.piece_of_kind hblank (by decide)).excess
  induction h generalizing depth with
  | last blank => rw [hgap blank, Int.add_zero, List.foldl_nil]
  | token blank _ token _ ih =>
    rw [List.foldl_cons, ih, Grammar.excess_append, Grammar.excess_append, hgap blank, token.excess]
    dsimp only
    omega

/-- There is no depth for lines with stray tokens only. -/
theorem openDepth_eq_none_iff (line : String) :
    openDepth line = none ↔ ∃ t ∈ (tokens line).1, t.kind = .stray := by
  have hcontains : ((tokens line).1.map Token.kind).contains .stray = true ↔
      ∃ t ∈ (tokens line).1, t.kind = .stray := by
    rw [List.contains_iff_mem, List.mem_map]
  unfold openDepth
  simp only [← hcontains]
  split
  · simp_all
  · simp_all

/-- The depth of any other line counts its parentheses. -/
theorem openDepth_of_no_stray {line : String} (placed : ∀ t ∈ (tokens line).1, t.kind ≠ .stray) :
    openDepth line = some (Grammar.excess line.toList).toNat := by
  have hcontains : ¬ ((tokens line).1.map Token.kind).contains .stray = true := by
    rw [List.contains_iff_mem, List.mem_map]
    rintro ⟨t, ht, hkind⟩
    exact placed t ht hkind
  have hexcess := (cuts_tokensFrom line.toList).excess 0
  rw [Int.zero_add] at hexcess
  unfold openDepth
  simp only [hcontains]
  rw [List.foldl_map]
  exact congrArg (fun depth => some depth.toNat) hexcess

end Formulae.Console
