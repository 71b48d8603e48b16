import Formulae.Proofs.Console.Marks
import Formulae.Proofs.Folding
import Formulae.Proofs.Reading.Acceptance

/-!
# Proofs.Console.Colouring — the colours of a formula and its leaves

* `coloured`: the texts of one colour among coloured segments.
* `Agree`: tokens and their colours hold just the marks; `agree_token` is one token, `agree_tokens` all.
* `highlight_leaves`: a line that is read without folding has the leaves that its tokens and colours show.
-/

namespace Formulae

open Text Number Grammar

namespace Mark

def number? : Mark → Option Float
  | .number value => some value
  | _ => none

def reference? : Mark → Option String
  | .reference name => some name
  | _ => none

def label? : Mark → Option String
  | .constant label => some label
  | _ => none

def isCall : Mark → Bool
  | .call => true
  | _ => false

end Mark

namespace Console

/-- The texts of a colour, from left to right. -/
def coloured (colour : Hue) (segments : List (Hue × List Char)) : List (List Char) :=
  (segments.filter fun s => s.1 = colour).map Prod.snd

/-- Whether a text is a name rather than a numeral. -/
def isNamed (text : List Char) : Bool :=
  text.head?.any startsAsciiName

/-- The tokens that are numerals. -/
def numerals (found : List Token) : List Token :=
  found.filter fun t => t.kind = .numeral

/-- Tokens and coloured segments hold the marks: the numerals their numbers, the colours the references, the
named constants and as many calls. -/
structure Agree (found : List Token) (segments : List (Hue × List Char)) (marks : List Mark) : Prop where
  numbers : (numerals found).map (fun t => Numeral.value? t.text) = (marks.filterMap Mark.number?).map some
  references : (coloured .red segments).map String.ofList = marks.filterMap Mark.reference?
  labels : ((coloured .cyan segments).filter isNamed).map String.ofList =
    marks.filterMap Mark.label?
  calls : (coloured .blue segments).length = marks.countP Mark.isCall

theorem coloured_append (colour : Hue) (a b : List (Hue × List Char)) :
    coloured colour (a ++ b) = coloured colour a ++ coloured colour b := by
  simp [coloured]

theorem Agree.append {found found' : List Token} {segments segments' : List (Hue × List Char)}
    {marks marks' : List Mark} (h : Agree found segments marks) (h' : Agree found' segments' marks') :
    Agree (found ++ found') (segments ++ segments') (marks ++ marks') where
  numbers := by simp [numerals, ← h.numbers, ← h'.numbers]
  references := by simp [coloured_append, h.references, h'.references]
  labels := by simp [coloured_append, ← h.labels, ← h'.labels]
  calls := by simp [coloured_append, h.calls, h'.calls]

/-- Gaps have the colour of plain text. -/
theorem agree_gap (gap : List Char) : Agree [] (gapSegment gap) [] := by
  unfold gapSegment
  split <;> exact ⟨rfl, rfl, rfl, rfl⟩

/-- A token has the colour of the mark that it shows. -/
theorem agree_token {t : Token} {following : List Token} {marks : List Mark} (token : IsToken t.kind t.text)
    (h : t.shows following = marks.map some) : Agree [t] [(hue t following, t.text)] marks := by
  obtain ⟨kind, gap, text⟩ := t
  have hnil : ∀ {marks : List Mark}, [] = marks.map some → marks = [] := fun h =>
    List.map_eq_nil_iff.mp h.symm
  cases kind with
  | numeral =>
    obtain ⟨mark, rest, rfl, hmark, hrest⟩ := List.map_eq_cons_iff.mp h.symm
    obtain rfl := List.map_eq_nil_iff.mp hrest
    obtain ⟨value, hvalue, rfl⟩ := Option.map_eq_some_iff.mp hmark.symm
    have hunnamed : isNamed text = false := by
      cases token with
      | numeral unnamed => simpa [isNamed] using unnamed
    refine ⟨?_, rfl, ?_, rfl⟩
    · simpa [numerals, Mark.number?] using hvalue
    · simp [coloured, hue, hunnamed, Mark.label?]
  | name =>
    have hnamed : isNamed text = true := by
      cases token with
      | name starts => simpa [isNamed] using starts
    simp only [Token.shows] at h
    split at h
    · rename_i hcalled
      obtain rfl : marks = [.call] := by simpa [List.map_eq_cons_iff] using h.symm
      refine ⟨rfl, ?_, ?_, ?_⟩ <;> simp [coloured, hue, hcalled, Mark.reference?, Mark.label?, Mark.isCall]
    · rename_i hcalled
      split at h
      · rename_i hconstant
        obtain rfl : marks = [.constant (String.ofList text)] := by
          simpa [List.map_eq_cons_iff] using h.symm
        refine ⟨rfl, ?_, ?_, ?_⟩ <;>
          simp_all [coloured, hue, Mark.reference?, Mark.label?, Mark.isCall]
      · rename_i hconstant
        obtain rfl : marks = [.reference (String.ofList text)] := by
          simpa [List.map_eq_cons_iff] using h.symm
        refine ⟨rfl, ?_, ?_, ?_⟩ <;>
          simp_all [coloured, hue, Mark.reference?, Mark.label?, Mark.isCall]
  | stray =>
    obtain ⟨mark, _, _, hmark, -⟩ := List.map_eq_cons_iff.mp h.symm
    cases hmark
  | operator | «open» | close | comma =>
    obtain rfl := hnil h
    exact ⟨rfl, rfl, rfl, rfl⟩

/-- Tokens and their colours hold what the tokens show. -/
theorem agree_tokens {found : List Token} {marks : List Mark} (tokens : ∀ t ∈ found, IsToken t.kind t.text)
    (h : shownBy found = marks.map some) : Agree found (segmentsOf found) marks := by
  induction found generalizing marks with
  | nil =>
    obtain rfl := List.map_eq_nil_iff.mp h.symm
    exact ⟨rfl, rfl, rfl, rfl⟩
  | cons t following ih =>
    obtain ⟨htoken, htokens⟩ := List.forall_mem_cons.mp tokens
    obtain ⟨first, others, rfl, hfirst, hothers⟩ := List.map_eq_append_iff.mp h.symm
    have hfollowing := (agree_token htoken hfirst.symm).append (ih htokens hothers.symm)
    exact (agree_gap t.gap).append hfollowing

/-- A line whose tokens show the marks is coloured by them. -/
theorem agree_highlight {line : String} {marks : List Mark} (h : shown line.toList = marks.map some) :
    Agree (tokens line).1 (highlight line) marks := by
  have hagree := (agree_tokens (cuts_tokensFrom line.toList).isToken h).append
    (agree_gap (tokens line).2)
  rwa [List.append_nil, List.append_nil] at hagree

/-- A line without stray characters that is read without folding, whatever the host does: from left to
right, the numbers of its tree are the values of its numerals, its references are what is coloured as one and
its named constants are the names that are coloured as one; and as many names are coloured as functions as it
has calls. -/
theorem highlight_leaves {σ : Type} (host : Host σ) (options : ReadingOptions)
    (unfolded : options.foldConstants = false) (steps : Nat) (source : String) (world after : σ)
    (e : Expression) (placed : ∀ t ∈ (tokens source).1, t.kind ≠ .stray)
    (h : Expression.read host options steps source world = some (.ok e, after)) :
    (numerals (tokens source).1).map (fun t => Numeral.value? t.text) =
        (e.root.marks.filterMap Mark.number?).map some ∧
      (coloured .red (highlight source)).map String.ofList = e.root.marks.filterMap Mark.reference? ∧
      ((coloured .cyan (highlight source)).filter isNamed).map String.ofList =
        e.root.marks.filterMap Mark.label? ∧
      (coloured .blue (highlight source)).length = e.root.marks.countP Mark.isCall := by
  obtain ⟨hread, -⟩ := Expression.read_eq_some h
  obtain ⟨node, hformula, htree⟩ := exists_formula_of_readNode hread
  have hplain : Plain source.toList := (cuts_tokensFrom source.toList).plain_of_no_stray placed
  have hmarks : e.root.marks = node.marks := by
    rw [htree unfolded]
    rfl
  have hagree := agree_highlight (shown_of_formula hformula hplain)
  rw [hmarks]
  exact ⟨hagree.numbers, hagree.references, hagree.labels, hagree.calls⟩

/-- An exponent that is one, an `e` that is not, and names with and without a parenthesis at once behind. -/
theorem highlight_leaves_mixed :
    ∃ e, Expression.read Host.idle { foldConstants := false } 0 "1.e5x (y) + log(e, 2e)" () =
        some (.ok e, ()) ∧
      (∀ t ∈ (tokens "1.e5x (y) + log(e, 2e)").1, t.kind ≠ .stray) ∧
      (numerals (tokens "1.e5x (y) + log(e, 2e)").1).map (fun t => Numeral.value? t.text) =
        [some 100000.0, some 2.0] ∧
      (coloured .red (highlight "1.e5x (y) + log(e, 2e)")).map String.ofList = ["x", "y"] ∧
      ((coloured .cyan (highlight "1.e5x (y) + log(e, 2e)")).filter isNamed).map String.ofList =
        ["e", "e"] ∧
      (coloured .blue (highlight "1.e5x (y) + log(e, 2e)")).length = 1 := by
  have hread : Expression.read Host.idle { foldConstants := false } 0 "1.e5x (y) + log(e, 2e)" () =
      some (.ok ⟨"1.e5x (y) + log(e, 2e)", .finite (.binary .add
        (.binary .mul (.binary .mul (.number 100000.0) (.reference "x" false))
          (.unary .paren (.reference "y" false)))
        (.binary .logBase (.constant 2.718281828459045 "e")
          (.binary .mul (.number 2.0) (.constant 2.718281828459045 "e")))), {}⟩, ()) := by
    decide +kernel
  have hplaced : ∀ t ∈ (tokens "1.e5x (y) + log(e, 2e)").1, t.kind ≠ .stray := by decide +kernel
  exact ⟨_, hread, hplaced,
    highlight_leaves Host.idle { foldConstants := false } rfl 0 _ () () _ hplaced hread⟩

end Console

end Formulae
