import Formulae.Proofs.Grammar.Lexeme
import Formulae.Text.Word

/-!
# Proofs.Grammar.Balance — parentheses and commas of a text

* `LeavesOpen`: no closing parenthesis of a text closes one from before it.
* `Balanced`: what is opened in a text is closed in it.
* `excess`: how many more parentheses a text opens than it closes.
* `Piece`: a balanced text whose commas all stand between its own parentheses; pieces make up pieces again
  (`Piece.append`), and so does what stands between two parentheses (`Balanced.enclosed`).
* `Arguments n text`: the text holds `n` arguments, up to the parenthesis that closes the call.
-/

namespace Formulae.Grammar

open Text

/-- No closing parenthesis of the text closes one that was opened before the text. -/
def LeavesOpen (text : List Char) : Prop :=
  ∀ before, before <+: text → before.count ')' ≤ before.count '('

/-- Every parenthesis that is opened in the text is closed in it, and no other is. -/
structure Balanced (text : List Char) : Prop where
  leavesOpen : LeavesOpen text
  closed : text.count ')' = text.count '('

/-- How many more parentheses the text opens than it closes. -/
def excess (text : List Char) : Int :=
  text.count '(' - text.count ')'

theorem excess_append (a b : List Char) : excess (a ++ b) = excess a + excess b := by
  simp only [excess, List.count_append]
  omega

theorem Balanced.excess {text : List Char} (h : Balanced text) : excess text = 0 := by
  have := h.closed
  unfold Grammar.excess
  omega

/-- A balanced text in which every comma stands between parentheses. -/
structure Piece (text : List Char) : Prop extends Balanced text where
  enclosed : ∀ before, before ++ [','] <+: text → before.count ')' < before.count '('

/-- A part of the start of two texts ends in the first one or goes on in the second one. -/
theorem prefix_append_cases {before a b : List Char} (h : before <+: a ++ b) :
    before <+: a ∨ ∃ more, more <+: b ∧ before = a ++ more := by
  obtain ⟨rest, hrest⟩ := h
  rcases List.append_eq_append_iff.mp hrest with ⟨more, ha, -⟩ | ⟨more, hbefore, hb⟩
  · exact .inl ⟨more, ha.symm⟩
  · exact .inr ⟨more, ⟨rest, hb.symm⟩, hbefore⟩

theorem concat_prefix_append_cases {before a b : List Char} {c : Char} (h : before ++ [c] <+: a ++ b) :
    before ++ [c] <+: a ∨ ∃ more, more ++ [c] <+: b ∧ before = a ++ more := by
  rcases prefix_append_cases h with h | ⟨more, hmore, hsplit⟩
  · exact .inl h
  · rcases List.eq_nil_or_concat more with rfl | ⟨init, last, rfl⟩
    · exact .inl ⟨[], by simpa using hsplit⟩
    · rw [List.concat_eq_append] at hmore hsplit
      rw [← List.append_assoc] at hsplit
      obtain ⟨hbefore, hlast⟩ := List.append_inj' hsplit rfl
      obtain rfl := List.singleton_inj.mp hlast
      exact .inr ⟨init, hmore, hbefore⟩

theorem Balanced.leavesOpen_append {a b : List Char} (ha : Balanced a) (hb : LeavesOpen b) :
    LeavesOpen (a ++ b) := by
  intro before h
  rcases prefix_append_cases h with h | ⟨more, hmore, rfl⟩
  · exact ha.leavesOpen before h
  · have hle := hb more hmore
    have hclosed := ha.closed
    simp only [List.count_append]
    omega

theorem Balanced.append {a b : List Char} (ha : Balanced a) (hb : Balanced b) : Balanced (a ++ b) where
  leavesOpen := ha.leavesOpen_append hb.leavesOpen
  closed := by rw [List.count_append, List.count_append, ha.closed, hb.closed]

theorem Piece.append {a b : List Char} (ha : Piece a) (hb : Piece b) : Piece (a ++ b) where
  toBalanced := ha.toBalanced.append hb.toBalanced
  enclosed := by
    intro before h
    rcases concat_prefix_append_cases h with h | ⟨more, hmore, rfl⟩
    · exact ha.enclosed before h
    · have hlt := hb.enclosed more hmore
      have hclosed := ha.closed
      simp only [List.count_append]
      omega

/-- Whether a character is neither a parenthesis nor a comma. -/
def isInner (c : Char) : Bool :=
  c != '(' && c != ')' && c != ','

/-- A text without parentheses and commas is a piece. -/
theorem piece_of_inner {text : List Char} (h : ∀ c ∈ text, isInner c = true) : Piece text := by
  have hcount : ∀ before : List Char, before <+: text → before.count ')' = 0 ∧ before.count '(' = 0 := by
    intro before hbefore
    refine ⟨List.count_eq_zero.mpr fun hc => ?_, List.count_eq_zero.mpr fun hc => ?_⟩
    · exact absurd (h _ (hbefore.subset hc)) (by decide)
    · exact absurd (h _ (hbefore.subset hc)) (by decide)
  refine ⟨⟨fun before hbefore => ?_, ?_⟩, fun before hbefore => ?_⟩
  · rw [(hcount before hbefore).1]
    exact Nat.zero_le _
  · rw [(hcount text (List.prefix_refl _)).1, (hcount text (List.prefix_refl _)).2]
  · exact absurd (h ',' (hbefore.subset (by simp))) (by decide)

/-- A kind of characters without parentheses and commas makes pieces. -/
theorem piece_of_kind {p : Char → Bool} {text : List Char} (h : ∀ c ∈ text, p c = true)
    (hp : p '(' = false ∧ p ')' = false ∧ p ',' = false) : Piece text := by
  refine piece_of_inner fun c hc => ?_
  have hinner : c ≠ '(' ∧ c ≠ ')' ∧ c ≠ ',' := by
    refine ⟨?_, ?_, ?_⟩
    · rintro rfl
      exact absurd (h _ hc) (by simp [hp.1])
    · rintro rfl
      exact absurd (h _ hc) (by simp [hp.2.1])
    · rintro rfl
      exact absurd (h _ hc) (by simp [hp.2.2])
  simp [isInner, hinner]

theorem piece_of_blank {text : List Char} (h : ∀ c ∈ text, isBlank c = true) : Piece text :=
  piece_of_kind h (by decide)

theorem piece_of_name {text : List Char} (h : ∀ c ∈ text, continuesName c = true) : Piece text :=
  piece_of_kind h (by decide)

theorem IsExponent.piece {exponent : List Char} (h : IsExponent exponent) : Piece exponent := by
  obtain ⟨letter, optional, -, all⟩ := h
  rename_i e sign digits
  have hletter : Piece [e] := by
    refine piece_of_inner fun c hc => ?_
    obtain rfl := List.mem_singleton.mp hc
    rcases letter with rfl | rfl <;> decide
  have hsign : Piece sign := by
    refine piece_of_inner (List.all_eq_true.mp ?_)
    rcases optional with rfl | rfl | rfl <;> rfl
  exact hletter.append (hsign.append (piece_of_kind all (by decide)))

theorem IsNumeral.piece {spelling rest : List Char} (h : IsNumeral spelling rest) : Piece spelling := by
  cases h with
  | whole _ all => exact piece_of_kind all (by decide)
  | scaled _ all exponent => exact (piece_of_kind all (by decide)).append exponent.piece

theorem balanced_comma : Balanced [','] where
  leavesOpen := by
    intro before h
    rcases List.prefix_cons_iff.mp h with rfl | ⟨more, rfl, hmore⟩
    · exact Nat.le_refl _
    · obtain rfl := List.prefix_nil.mp hmore
      decide
  closed := by decide

/-- What stands between two parentheses makes a piece with them. -/
theorem Balanced.enclosed {text : List Char} (h : Balanced text) : Piece ('(' :: (text ++ [')'])) := by
  have hinner : ∀ before, before <+: text ++ [')'] → before.count ')' ≤ before.count '(' + 1 := by
    intro before hbefore
    rcases prefix_append_cases hbefore with hbefore | ⟨more, hmore, rfl⟩
    · exact Nat.le_succ_of_le (h.leavesOpen before hbefore)
    · have hle : more.count ')' ≤ [')'].count ')' := hmore.sublist.count_le ')'
      have hone : [')'].count ')' = 1 := rfl
      have hclosed := h.closed
      simp only [List.count_append]
      omega
  refine ⟨⟨fun before hbefore => ?_, ?_⟩, fun before hbefore => ?_⟩
  · rcases List.prefix_cons_iff.mp hbefore with rfl | ⟨more, rfl, hmore⟩
    · exact Nat.le_refl _
    · have hle := hinner more hmore
      simp only [List.count_cons_self, List.count_cons_of_ne (by decide : '(' ≠ ')')]
      exact hle
  · have hclosed := h.closed
    simp [List.count_append, hclosed]
  · rcases List.prefix_cons_iff.mp hbefore with hnil | ⟨more, hcons, hmore⟩
    · simp at hnil
    · rcases before with _ | ⟨c, before⟩
      · simp at hcons
      · obtain ⟨rfl, rfl⟩ := List.cons.inj hcons
        rcases concat_prefix_append_cases hmore with htext | ⟨more, hlast, -⟩
        · have hle := h.leavesOpen before ((List.prefix_append _ _).trans htext)
          simp only [List.count_cons_self, List.count_cons_of_ne (by decide : '(' ≠ ')')]
          omega
        · obtain ⟨rest, hrest⟩ := hlast
          rcases more with _ | ⟨_, _⟩ <;> simp at hrest

/-! ### Arguments -/

/-- The text of one argument. -/
structure Argument (text : List Char) : Prop extends Piece text where
  some : ∃ c ∈ text, isBlank c = false

/-- A piece in front of a character is an argument, if something else comes first in the text. -/
theorem Piece.argument_of_followed {text piece rest : List Char} {c x : Char} (h : Piece piece)
    (hx : (afterBlanks text).head? = some x) (hc : isBlank c = false) (hne : x ≠ c)
    (htext : text = piece ++ c :: rest) : Argument piece := by
  refine ⟨h, ?_⟩
  by_cases hall : ∀ d ∈ piece, isBlank d = true
  · have hbehind : afterBlanks text = c :: rest := by
      rw [htext]
      exact dropWhile_run hall (notNext_cons.mpr hc)
    rw [hbehind] at hx
    exact absurd (Option.some.inj hx).symm hne
  · simpa using hall

/-- The text of so many arguments: nothing but blanks, or arguments with commas between them. -/
inductive Arguments : Nat → List Char → Prop where
  | none {text : List Char} (blank : ∀ c ∈ text, isBlank c = true) : Arguments 0 text
  | last {text : List Char} (h : Argument text) : Arguments 1 text
  | more {n : Nat} {text rest : List Char} (h : Argument text) (others : Arguments (n + 1) rest) :
      Arguments (n + 2) (text ++ ',' :: rest)

theorem Arguments.balanced {n : Nat} {text : List Char} (h : Arguments n text) : Balanced text := by
  induction h with
  | none blank => exact (piece_of_blank blank).toBalanced
  | last h => exact h.toBalanced
  | more h _ ih => exact h.toBalanced.append (balanced_comma.append ih)

end Formulae.Grammar
