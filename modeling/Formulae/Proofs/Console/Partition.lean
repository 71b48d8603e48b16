import Formulae.Proofs.Console.Patterns
import Formulae.Proofs.Reading.Faults

/-!
# Proofs.Console.Partition — a line is shared out among tokens and gaps

The spans of the tokens are offsets that are added up token by token, the colours are put on pieces; both
are held against the text of the line here.

* `Cuts.exists_leads`: at the offset where a span starts there stands the token, and the span stops behind it.
* `Cuts.isGap_or_spanned`: a character that is in no span is a gap; `Leads.noGap`: no token has a gap in it.
* `flatMap_segmentsOf`: the coloured pieces are those of the cut.
* `cutting_loses_nothing`: all of it for whole lines.
-/

namespace Formulae.Console

open Text

/-! ### Spans -/

theorem IsToken.ne_nil {kind : TokenKind} {text : List Char} (h : IsToken kind text) : text ≠ [] := by
  cases h <;> exact List.cons_ne_nil _ _

theorem byteLength_pos {text : List Char} (h : text ≠ []) : 0 < byteLength text := by
  obtain ⟨c, cs, rfl⟩ := List.exists_cons_of_ne_nil h
  have hc := c.utf8Size_pos
  rw [byteLength_cons]
  omega

/-- No span starts in front of the offset that the spans are counted from. -/
theorem le_start {offset start stop : Nat} {kind : TokenKind} {found : List Token}
    (mem : (kind, start, stop) ∈ spansFrom offset found) : offset ≤ start := by
  induction found generalizing offset with
  | nil => cases mem
  | cons t found ih =>
    rcases List.mem_cons.mp mem with heq | mem
    · obtain ⟨-, hstart, -⟩ : kind = t.kind ∧ start = offset + byteLength t.gap ∧ _ := by
        simpa using heq
      omega
    · have hle := ih mem
      omega

theorem pairwise_spansFrom (offset : Nat) (found : List Token) :
    (spansFrom offset found).Pairwise fun s t => s.2.2 ≤ t.2.1 := by
  induction found generalizing offset with
  | nil => exact .nil
  | cons t found ih => exact .cons (fun _ mem => le_start mem) (ih _)

/-- Where a span starts, the text goes on with its token, and the span stops behind it. -/
theorem Cuts.exists_leads {text last : List Char} {found : List Token} (h : Cuts text found last)
    {offset start stop : Nat} {kind : TokenKind} (mem : (kind, start, stop) ∈ spansFrom offset found) :
    ∃ before token rest, text = before ++ (token ++ rest) ∧ start = offset + byteLength before ∧
      stop = start + byteLength token ∧ Leads kind token rest ∧ IsToken kind token := by
  induction h generalizing offset with
  | last => cases mem
  | @token kind' gap token rest _ _ _ leads isToken _ ih =>
    rcases List.mem_cons.mp mem with heq | mem
    · obtain ⟨rfl, rfl, rfl⟩ : kind = kind' ∧ start = offset + byteLength gap ∧
          stop = offset + byteLength gap + byteLength token := by
        simpa using heq
      exact ⟨gap, token, rest, rfl, rfl, rfl, leads, isToken⟩
    · obtain ⟨before, token', rest', rfl, hstart, hstop, hleads, htoken⟩ := ih mem
      refine ⟨gap ++ (token ++ before), token', rest', by simp, ?_, hstop, hleads, htoken⟩
      simp only [hstart, byteLength_append]
      omega

/-- A character of two pieces is in the first one, or in the second one and behind all of the first. -/
theorem append_cases {a b before after : List Char} {c : Char} (h : a ++ b = before ++ c :: after) :
    (∃ more, a = before ++ c :: more) ∨ ∃ more, before = a ++ more ∧ b = more ++ c :: after := by
  rcases List.append_eq_append_iff.mp h with ⟨more, hbefore, hb⟩ | ⟨more, ha, hmore⟩
  · exact .inr ⟨more, hbefore, hb⟩
  · rcases more with _ | ⟨d, more⟩
    · exact .inr ⟨[], by simpa using ha.symm, hmore.symm⟩
    · obtain ⟨rfl, -⟩ := List.cons_eq_cons.mp hmore
      exact .inl ⟨more, ha⟩

/-- A character that no span covers is a gap. -/
theorem Cuts.isGap_or_spanned {text last : List Char} {found : List Token} (h : Cuts text found last)
    (offset : Nat) {before after : List Char} {c : Char} (place : text = before ++ c :: after) :
    isGap c = true ∨ ∃ kind start stop, (kind, start, stop) ∈ spansFrom offset found ∧
      start ≤ offset + byteLength before ∧ offset + byteLength before < stop := by
  induction h generalizing offset before with
  | last blank =>
    subst place
    exact .inl (blank c (by simp))
  | @token kind gap token rest _ _ blank _ _ _ ih =>
    rcases append_cases place with ⟨more, rfl⟩ | ⟨more, rfl, hmore⟩
    · exact .inl (blank c (by simp))
    rcases append_cases hmore with ⟨inner, rfl⟩ | ⟨behind, rfl, hbehind⟩
    · refine .inr ⟨kind, _, _, List.mem_cons_self .., ?_⟩
      have hc := c.utf8Size_pos
      simp only [byteLength_append, byteLength_cons]
      omega
    · rcases ih (offset + byteLength gap + byteLength token) hbehind with hgap | ⟨kind', start, stop, mem, hle, hlt⟩
      · exact .inl hgap
      · refine .inr ⟨kind', start, stop, List.mem_cons_of_mem _ mem, ?_⟩
        simp only [byteLength_append]
        omega

/-- A character at an offset from which a piece of the text reaches on is in that piece. -/
theorem mem_of_offset {before piece rest ahead after : List Char} {c : Char}
    (place : before ++ (piece ++ rest) = ahead ++ c :: after) (start : byteLength before ≤ byteLength ahead)
    (stop : byteLength ahead < byteLength before + byteLength piece) : c ∈ piece := by
  have hc := c.utf8Size_pos
  rcases append_cases place with ⟨more, rfl⟩ | ⟨more, rfl, hmore⟩
  · rw [byteLength_append, byteLength_cons] at start
    omega
  · rcases append_cases hmore with ⟨behind, rfl⟩ | ⟨behind, rfl, -⟩
    · simp
    · rw [byteLength_append, byteLength_append] at stop
      omega

/-- No token has a gap in it. -/
theorem Leads.noGap {kind : TokenKind} {text rest : List Char} (h : Leads kind text rest)
    (token : IsToken kind text) : ∀ c ∈ text, isGap c = false := by
  have hascii : ∀ c, continuesAsciiName c = true ∨ isNumeralChar c = true → isGap c = false := by
    intro c hc
    have hlexical : isLexical c = true := by
      rcases hc with hc | hc <;> simp [isLexical, hc]
    refine of_ascii (fun c => continuesAsciiName c = true ∨ isNumeralChar c = true → isGap c = false) ?_
      (lt_of_isLexical hlexical) hc
    decide +kernel
  have hlong : (longOperators.all fun p => !isGap p.1 && !isGap p.2) = true := by decide
  have hshort : (shortOperators.all fun c => !isGap c) = true := by decide
  cases token with
  | opening | closing | comma => exact List.forall_mem_singleton.mpr rfl
  | name starts continues =>
    exact List.forall_mem_cons.mpr
      ⟨(startsAsciiName_cases starts).1, fun d hd => hascii d (.inl (continues d hd))⟩
  | numeral _ all => exact fun d hd => hascii d (.inr (all d hd))
  | @long c d mem => simpa using List.all_eq_true.mp hlong (c, d) mem
  | @short c mem => simpa using List.all_eq_true.mp hshort c mem
  | stray =>
    cases h with
    | mk noGap _ => simpa using noGap

/-! ### Segments -/

theorem flatMap_gapSegment (gap : List Char) : (gapSegment gap).flatMap Prod.snd = gap := by
  unfold gapSegment
  split
  · simp_all
  · simp

theorem flatMap_segmentsOf (found : List Token) :
    (segmentsOf found).flatMap Prod.snd = found.flatMap fun t => t.gap ++ t.text := by
  induction found with
  | nil => rfl
  | cons t found ih =>
    rw [segmentsOf, List.flatMap_append, flatMap_gapSegment, List.flatMap_cons, ih, List.flatMap_cons,
      List.append_assoc]

theorem ne_nil_of_mem_gapSegment {gap : List Char} {s : Hue × List Char} (mem : s ∈ gapSegment gap) :
    s.2 ≠ [] := by
  unfold gapSegment at mem
  split at mem
  · cases mem
  · rename_i hgap
    rw [List.mem_singleton.mp mem]
    simpa using hgap

theorem ne_nil_of_mem_segmentsOf {found : List Token} (tokens : ∀ t ∈ found, IsToken t.kind t.text)
    {s : Hue × List Char} (mem : s ∈ segmentsOf found) : s.2 ≠ [] := by
  induction found with
  | nil => cases mem
  | cons t found ih =>
    obtain ⟨htoken, htokens⟩ := List.forall_mem_cons.mp tokens
    rcases List.mem_append.mp mem with mem | mem
    · exact ne_nil_of_mem_gapSegment mem
    · rcases List.mem_cons.mp mem with rfl | mem
      · exact htoken.ne_nil
      · exact ih htokens mem

/-! ### Lines -/

/-- Every span of a line has a character, starts and stops on boundaries of characters, and holds the longest
match at its place or one stray character. Spans follow each other without overlap, and the characters in none
of them are the spaces, tabs, line feeds and form feeds. The coloured segments are not empty and make up the
line. -/
theorem cutting_loses_nothing (line : String) :
    (∀ kind start stop, (kind, start, stop) ∈ spans line →
      start < stop ∧ (⟨start⟩ : String.Pos.Raw).IsValid line ∧ (⟨stop⟩ : String.Pos.Raw).IsValid line ∧
        ∃ text rest, Points line start (text ++ rest) ∧ Points line stop rest ∧ IsNext kind text rest) ∧
      (spans line).Pairwise (fun s t => s.2.2 ≤ t.2.1) ∧
      (∀ before c after, line.toList = before ++ c :: after →
        (c ∈ [' ', '\t', '\n', '\x0C'] ↔ ¬ ∃ kind start stop, (kind, start, stop) ∈ spans line ∧
          start ≤ byteLength before ∧ byteLength before < stop)) ∧
      (highlight line).flatMap Prod.snd = line.toList ∧
      ∀ s ∈ highlight line, s.2 ≠ [] := by
  have hcuts := cuts_tokensFrom line.toList
  refine ⟨fun kind start stop mem => ?_, pairwise_spansFrom 0 _, fun before c after place => ?_, ?_,
    fun s mem => ?_⟩
  · obtain ⟨before, text, rest, htext, hstart, hstop, hleads, htoken⟩ := hcuts.exists_leads mem
    rw [Nat.zero_add] at hstart
    have hfirst : Points line start (text ++ rest) := ⟨before, htext.symm, hstart⟩
    have hsecond : Points line stop rest := by
      refine ⟨before ++ text, by rw [htext, List.append_assoc], ?_⟩
      rw [hstop, hstart, byteLength_append]
    have hpos := byteLength_pos htoken.ne_nil
    exact ⟨by omega, hfirst.isValid, hsecond.isValid, text, rest, hfirst, hsecond, hleads.isNext⟩
  · have hwhite : c ∈ [' ', '\t', '\n', '\x0C'] ↔ isGap c = true := by simp [isGap, or_assoc]
    rw [hwhite]
    refine ⟨?_, fun hnone => ?_⟩
    · rintro hgap ⟨kind, start, stop, mem, hle, hlt⟩
      obtain ⟨ahead, text, rest, htext, hstart, hstop, hleads, htoken⟩ := hcuts.exists_leads mem
      have hmem : c ∈ text := mem_of_offset (htext.symm.trans place) (by omega) (by omega)
      rw [hleads.noGap htoken c hmem] at hgap
      cases hgap
    · have hcases := hcuts.isGap_or_spanned 0 place
      rw [Nat.zero_add] at hcases
      exact hcases.resolve_right hnone
  · show (segmentsOf (tokens line).1 ++ gapSegment (tokens line).2).flatMap Prod.snd = line.toList
    rw [List.flatMap_append, flatMap_segmentsOf, flatMap_gapSegment]
    exact hcuts.text
  · rcases List.mem_append.mp mem with mem | mem
    · exact ne_nil_of_mem_segmentsOf hcuts.isToken mem
    · exact ne_nil_of_mem_gapSegment mem

/-- An exponent without digits is cut off, and behind a space there is a letter of two bytes. -/
theorem cutting_loses_nothing_letter :
    spans "1.5e+ é(" = [(.numeral, 0, 3), (.name, 3, 4), (.operator, 4, 5), (.stray, 6, 8), (.open, 8, 9)] ∧
      (∃ text rest, Points "1.5e+ é(" 0 (text ++ rest) ∧ Points "1.5e+ é(" 3 rest ∧
        IsNext .numeral text rest) ∧
      (∃ text rest, Points "1.5e+ é(" 6 (text ++ rest) ∧ Points "1.5e+ é(" 8 rest ∧
        IsNext .stray text rest) ∧
      ¬ ∃ kind start stop, (kind, start, stop) ∈ spans "1.5e+ é(" ∧ start ≤ 5 ∧ 5 < stop := by
  have hspans : spans "1.5e+ é(" =
      [(.numeral, 0, 3), (.name, 3, 4), (.operator, 4, 5), (.stray, 6, 8), (.open, 8, 9)] := by
    decide +kernel
  obtain ⟨hspan, -, hwhite, -⟩ := cutting_loses_nothing "1.5e+ é("
  obtain ⟨-, -, -, hnumeral⟩ := hspan .numeral 0 3 (by simp [hspans])
  obtain ⟨-, -, -, hstray⟩ := hspan .stray 6 8 (by simp [hspans])
  have hplace : "1.5e+ é(".toList = "1.5e+".toList ++ ' ' :: ['é', '('] := by decide +kernel
  have hspace := (hwhite _ ' ' _ hplace).mp (by decide)
  exact ⟨hspans, hnumeral, hstray, hspace⟩

end Formulae.Console
