import Formulae.Proofs.Reading.Faults

/-!
# Proofs.Reading.Depth — open parentheses and open frames

Whatever the host does, the part of a text that was taken holds as many open parentheses as there are
groups and calls which the reading is in the midst of.

* `AtDepth total depth r`: so many parentheses are open in front of what is still to be read.
* `Lacking total fault`: a parenthesis is found to be unclosed in texts that open more than they close.
* `KeepsDepth`: readings that close whatever they open; `keepsDepth_primary` is the step from the readings
  of what is nested to those of what contains it.
* `Expression.meets_balance`: the whole text.
-/

namespace Formulae

open Text Number Grammar

variable {σ : Type}

/-- The fault says that a parenthesis is not closed. -/
def Fault.IsUnclosed (fault : Fault) : Prop :=
  ∃ f, fault = .syntactic f ∧ f.cause = .unclosedParenthesis

/-- If the fault says that a parenthesis is not closed, then more are opened than closed. -/
def Lacking (total : Int) (fault : Fault) : Prop :=
  fault.IsUnclosed → 0 < total

theorem lacking_interrupted (total : Int) (cancelled : Bool) : Lacking total (.interrupted cancelled) := by
  rintro ⟨_, ⟨⟩, -⟩

theorem lacking_of_cause {total : Int} {f : SyntaxFault} (h : f.cause ≠ .unclosedParenthesis) :
    Lacking total (.syntactic f) := by
  rintro ⟨_, ⟨⟩, hcause⟩
  exact absurd hcause h

namespace Reading

/-- In a text that opens `total` parentheses more than it closes, `depth` are open in front of what is still
to be read. -/
def AtDepth (total depth : Int) (r : Reader σ) : Prop :=
  total = depth + excess r.rest

section Moves

variable {total depth : Int} {r t : Reader σ}

theorem AtDepth.of_cursor (h : AtDepth total depth r) (same : t.cursor = r.cursor) :
    AtDepth total depth t := by
  rwa [AtDepth, Reader.rest, same]

/-- Behind a run of characters that comes next. -/
theorem AtDepth.skip (h : AtDepth total depth r) (taken : List Char) {rest : List Char}
    (hrest : r.rest = taken ++ rest) (ht : t.cursor = r.cursor.skip taken.length) :
    AtDepth total (depth + excess taken) t := by
  have htrest : t.rest = rest := by
    rw [Reader.rest, ht, Cursor.rest_skip]
    exact (congrArg _ hrest).trans List.drop_left
  rw [AtDepth, hrest, excess_append] at h
  rw [AtDepth, htrest]
  omega

theorem AtDepth.skip_piece (h : AtDepth total depth r) {taken rest : List Char} (piece : Piece taken)
    (hrest : r.rest = taken ++ rest) (ht : t.cursor = r.cursor.skip taken.length) :
    AtDepth total depth t := by
  have hskip := h.skip taken hrest ht
  rwa [piece.excess, Int.add_zero] at hskip

theorem AtDepth.skipBlanks (h : AtDepth total depth r) (ht : t.cursor = r.skipBlanks.cursor) :
    AtDepth total depth t :=
  h.skip_piece (piece_of_blank (all_takeWhile r.rest)) List.takeWhile_append_dropWhile.symm ht

/-- Behind an opening parenthesis. -/
theorem AtDepth.deeper (h : AtDepth total depth r) (hopen : r.cursor.current = some '(')
    (ht : t.cursor = r.cursor.skip 1) : AtDepth total (depth + 1) t := by
  obtain ⟨rest, hrest⟩ := List.head?_eq_some_iff.mp hopen
  exact h.skip ['('] hrest ht

/-- At the end of the text, as many parentheses are missing as are open. -/
theorem AtDepth.lacking_of_end (h : AtDepth total (depth + 1) r) (enclosed : 0 ≤ depth)
    (hend : r.rest = []) (fault : Fault) : Lacking total fault := by
  intro _
  rw [AtDepth, hend, show excess [] = 0 from rfl] at h
  omega

end Moves

/-! ### Faults and signs -/

section Signs

variable {total depth : Int} {r : Reader σ} {α : Type} {post : α → Reader σ → Prop}

theorem meets_failHere_lacking {cause : SyntaxCause} (h : cause ≠ .unclosedParenthesis) :
    Run.Meets (failHere cause) r post (Lacking total) :=
  lacking_of_cause h

theorem meets_failUnexpected_lacking : Run.Meets failUnexpected r post (Lacking total) := by
  show Lacking total r.cursor.unexpected
  unfold Cursor.unexpected
  cases r.cursor.current with
  | some found => exact lacking_of_cause nofun
  | none => exact lacking_of_cause nofun

variable {g : Setting σ}

/-- A sign is taken, with what it opens and closes, or nothing is taken. -/
theorem meets_sees_depth (sign : String) (h : AtDepth total depth r) :
    Run.Meets (sees g sign) r (fun seen t =>
      (seen = true ∧ AtDepth total (depth + excess sign.toList) t) ∨
      (seen = false ∧ AtDepth total depth t)) (Lacking total) := by
  refine (meets_eat (lacking_interrupted total) g.host r sign.toList).mono fun seen t ht => ?_
  rcases ht with ⟨hseen, ⟨rest, hsign⟩, ht⟩ | ⟨hseen, -, ht⟩
  · have hblanks : AtDepth total depth r.skipBlanks := h.skipBlanks rfl
    exact .inl ⟨hseen, hblanks.skip sign.toList (r.rest_skipBlanks.trans hsign.symm) ht⟩
  · exact .inr ⟨hseen, h.of_cursor ht⟩

/-- The parenthesis that closes a group or a call ends one frame. -/
theorem meets_close_depth (opening : Nat) (enclosed : 0 ≤ depth) (h : AtDepth total (depth + 1) r) :
    Run.Meets (close g opening) r (fun _ t => AtDepth total depth t) (Lacking total) := by
  refine (meets_sees_depth ")" h).bind ?_
  rintro seen t (⟨rfl, ht⟩ | ⟨rfl, ht⟩)
  · rwa [show excess ")".toList = -1 by decide, Int.add_neg_cancel_right] at ht
  · refine (meets_skipBlanks (lacking_interrupted total) g.host t).bind fun _ u hu => ?_
    show Run.Meets (if u.cursor.atEnd then _ else _) u _ _
    cases hend : u.cursor.atEnd with
    | false => exact meets_failUnexpected_lacking
    | true => exact (ht.skipBlanks hu).lacking_of_end enclosed (List.isEmpty_iff.mp hend) _

end Signs

/-! ### Readings that close what they open -/

/-- However many parentheses are open around it, a reading leaves as many open. -/
def KeepsDepth (total : Int) {α β : Type} (rel : α → β → Prop) (x : Reading σ α) (_ : Reading σ β) : Prop :=
  ∀ (depth : Int) (r : Reader σ), 0 ≤ depth → AtDepth total depth r →
    Run.Meets x r (fun a t => (∃ b, rel a b) ∧ AtDepth total depth t) (Lacking total)

section KeepsDepth

variable {total : Int} {g : Setting σ}

/-- A reading that stays where it is leaves the depth as it is. -/
theorem keepsDepth_of_still {α β : Type} {rel : α → β → Prop} {x : Reading σ α} {y : Reading σ β}
    (h : ∀ r, Run.Meets x r (fun a t => (∃ b, rel a b) ∧ t.cursor = r.cursor) (Lacking total)) :
    KeepsDepth total rel x y :=
  fun _ r _ hr => (h r).mono fun _ _ ht => ⟨ht.1, hr.of_cursor ht.2⟩

theorem sequences_keepsDepth : Sequences (KeepsDepth (σ := σ) total) where
  pure hab := keepsDepth_of_still fun _ => ⟨⟨_, hab⟩, rfl⟩
  bind := by
    intro α β γ δ rel rel' x y f g hx hf depth r enclosed hr
    refine (hx depth r enclosed hr).bind ?_
    rintro a t ⟨⟨b, hab⟩, ht⟩
    exact hf a b hab depth t enclosed ht
  exhausted _ := fun _ _ _ _ => trivial
  cursor := keepsDepth_of_still fun r => ⟨⟨r.cursor, rfl⟩, rfl⟩

theorem keepsDepth_sees {sign : String} (h : sign ∈ joiners) :
    KeepsDepth total Eq (sees g sign) (sees g sign) := by
  intro depth r _ hr
  refine (meets_sees_depth sign hr).mono ?_
  rintro seen t (⟨-, ht⟩ | ⟨-, ht⟩)
  · rw [(piece_of_inner (isInner_of_mem_joiners h)).excess, Int.add_zero] at ht
    exact ⟨⟨seen, rfl⟩, ht⟩
  · exact ⟨⟨seen, rfl⟩, ht⟩

theorem keepsDepth_finish {g' : Setting σ} (node node' : Node) (constant constant' : Bool) :
    KeepsDepth total (fun _ _ => True) (finish g node constant) (finish g' node' constant') :=
  keepsDepth_of_still fun r => (meets_finish (lacking_interrupted total) r node constant).mono
    fun p _ ht => ⟨⟨p, trivial⟩, ht⟩

/-! ### Arguments and primaries -/

/-- Arguments end the frame of their call. -/
theorem meets_arguments_depth {inside : Bool} {depth : Int}
    (hdescend : KeepsDepth total (fun _ _ => True) (g.descend .formula inside)
      (g.descend .formula inside)) (opening rounds : Nat) (done : List Parsed) {r : Reader σ}
    (enclosed : 0 ≤ depth) (hr : AtDepth total (depth + 1) r) :
    Run.Meets (arguments g inside opening rounds done) r (fun _ t => AtDepth total depth t)
      (Lacking total) := by
  induction rounds generalizing done r with
  | zero => trivial
  | succ rounds ih =>
    refine (meets_skipBlanks (lacking_interrupted total) g.host r).bind fun _ t ht => ?_
    replace ht := hr.skipBlanks ht
    refine Run.Meets.of_ok (a := t.cursor) (t := t) rfl ?_
    cases hcurrent : t.cursor.current with
    | none => exact ht.lacking_of_end enclosed (List.head?_eq_none_iff.mp hcurrent) _
    | some x =>
      simp only
      by_cases hx : x = ',' ∨ x = ')'
      · rw [if_pos hx]
        exact meets_failHere_lacking nofun
      · rw [if_neg hx]
        refine (hdescend _ t (Int.le_add_one enclosed) ht).bind ?_
        rintro arg u ⟨-, hu⟩
        refine (meets_sees_depth "," hu).bind ?_
        rintro comma v (⟨rfl, hv⟩ | ⟨rfl, hv⟩)
        · rw [show excess ",".toList = 0 by decide, Int.add_zero] at hv
          exact ih (arg :: done) hv
        · exact (meets_close_depth opening enclosed hv).bind fun _ _ hw => hw

theorem meets_callArguments_depth {inside : Bool} {depth : Int}
    (hdescend : KeepsDepth total (fun _ _ => True) (g.descend .formula inside)
      (g.descend .formula inside)) (opening : Nat) {r : Reader σ} (enclosed : 0 ≤ depth)
    (hr : AtDepth total (depth + 1) r) :
    Run.Meets (callArguments g inside opening) r (fun _ t => AtDepth total depth t) (Lacking total) := by
  refine (meets_sees_depth ")" hr).bind ?_
  rintro closed t (⟨rfl, ht⟩ | ⟨rfl, ht⟩)
  · rwa [show excess ")".toList = -1 by decide, Int.add_neg_cancel_right] at ht
  · exact meets_arguments_depth hdescend opening g.rounds [] enclosed ht

theorem meets_numeral_depth {depth : Int} {r : Reader σ} (hr : AtDepth total depth r)
    (hm : ¬ NotNext Numeral.isMantissaChar r.rest) :
    Run.Meets (numeral g) r (fun _ t => AtDepth total depth t) (Lacking total) := by
  obtain ⟨rest, hrest, hnumeral⟩ := isNumeral_scan hm
  refine Run.Meets.of_ok (a := r.cursor) (t := r) rfl ?_
  have hadvance := meets_advanceBy (lacking_interrupted total) g.host r
    (Numeral.scan r.cursor.rest).length
  refine hadvance.bind fun _ t ht => ?_
  cases Numeral.value? (Numeral.scan r.cursor.rest) with
  | some value => exact hr.skip_piece hnumeral.piece hrest ht
  | none => exact lacking_of_cause nofun

theorem meets_named_depth {inside : Bool} {depth : Int}
    (hdescend : ∀ inside, KeepsDepth total (fun _ _ => True) (g.descend .formula inside)
      (g.descend .formula inside)) {r : Reader σ} (enclosed : 0 ≤ depth) (hr : AtDepth total depth r) :
    Run.Meets (named g inside) r (fun _ t => AtDepth total depth t) (Lacking total) := by
  have hname : Piece (r.rest.takeWhile continuesName) := piece_of_name (all_takeWhile r.rest)
  have hadvance := meets_advanceBy (lacking_interrupted total) g.host r
    (r.rest.takeWhile continuesName).length
  refine hadvance.bind fun _ t ht => ?_
  replace ht := hr.skip_piece hname List.takeWhile_append_dropWhile.symm ht
  show Run.Meets (if t.cursor.current = some '(' then _ else _) t _ _
  by_cases hparen : t.cursor.current = some '('
  · rw [if_pos hparen]
    refine (meets_advance (lacking_interrupted total) g.host t).bind fun _ u hu => ?_
    refine (meets_callArguments_depth (hdescend _) _ enclosed (ht.deeper hparen hu)).bind ?_
    intro args v hv
    unfold call
    cases callNode? _ (args.map Parsed.node) with
    | some node =>
      exact (meets_finish (lacking_interrupted total) v node _).mono fun _ _ hw => hv.of_cursor hw
    | none => exact lacking_of_cause nofun
  · rw [if_neg hparen]
    exact ht

/-- A primary closes the parentheses it opens. -/
theorem keepsDepth_primary
    (hdescend : ∀ inside, KeepsDepth total (fun _ _ => True) (g.descend .formula inside)
      (g.descend .formula inside)) (inside : Bool) :
    KeepsDepth total (fun _ _ => True) (primary g inside) (primary g inside) := by
  intro depth r enclosed hr
  suffices h : Run.Meets (primary g inside) r (fun _ t => AtDepth total depth t) (Lacking total)
    from h.mono fun p _ ht => ⟨⟨p, trivial⟩, ht⟩
  refine (meets_skipBlanks (lacking_interrupted total) g.host r).bind fun _ t ht => ?_
  replace ht := hr.skipBlanks ht
  refine Run.Meets.of_ok (a := t.cursor) (t := t) rfl ?_
  cases hcurrent : t.cursor.current with
  | none => exact meets_failUnexpected_lacking
  | some x =>
    simp only
    by_cases hparen : x = '('
    · subst hparen
      rw [if_pos rfl]
      refine (meets_advance (lacking_interrupted total) g.host t).bind fun _ u hu => ?_
      have hdeeper := ht.deeper hcurrent hu
      refine (hdescend inside _ u (Int.le_add_one enclosed) hdeeper).bind ?_
      rintro inner v ⟨-, hv⟩
      refine (meets_close_depth _ enclosed hv).bind fun _ w hw => ?_
      exact (meets_finish (lacking_interrupted total) w _ _).mono fun _ _ hz => hw.of_cursor hz
    · rw [if_neg hparen]
      by_cases hm : Numeral.isMantissaChar x = true
      · rw [if_pos hm]
        refine meets_numeral_depth ht fun hnot => ?_
        rw [hnot x hcurrent] at hm
        cases hm
      · rw [if_neg hm]
        by_cases hn : startsName x = true
        · rw [if_pos hn]
          exact meets_named_depth hdescend enclosed ht
        · rw [if_neg hn]
          exact meets_failUnexpected_lacking

theorem chains_keepsDepth
    (hdescend : ∀ entry inside, KeepsDepth total (fun _ _ => True) (g.descend entry inside)
      (g.descend entry inside)) :
    Chains (fun _ _ => True) g g (KeepsDepth (σ := σ) total) where
  toSequences := sequences_keepsDepth
  rounds := .inl rfl
  sees _ h := keepsDepth_sees h
  descend := hdescend
  primary := keepsDepth_primary (hdescend .formula)
  neg _ := keepsDepth_finish _ _ _ _
  joined _ _ _ := keepsDepth_finish _ _ _ _

/-! ### The whole text -/

theorem nested_keepsDepth (host : Host σ) (options : ReadingOptions) (steps depth : Nat) (entry : Entry)
    (inside : Bool) :
    KeepsDepth total (fun _ _ => True) (nested host options steps depth entry inside)
      (nested host options steps depth entry inside) :=
  nested_related sequences_keepsDepth (fun _ hdescend => chains_keepsDepth hdescend) depth entry inside

theorem meets_whole_depth (host : Host σ) (options : ReadingOptions) (steps depth : Nat) (r : Reader σ) :
    Run.Meets (whole host options steps depth) r (fun _ _ => excess r.rest = 0)
      (Lacking (excess r.rest)) := by
  have hr : AtDepth (excess r.rest) 0 r := (Int.zero_add _).symm
  generalize excess r.rest = total at *
  refine (meets_skipBlanks (lacking_interrupted total) host r).bind fun _ t ht => ?_
  replace ht := hr.skipBlanks ht
  show Run.Meets (if t.cursor.atEnd then _ else _) t _ _
  cases t.cursor.atEnd with
  | true => exact meets_failHere_lacking nofun
  | false =>
    have hnested := nested_keepsDepth host options steps depth .formula options.insideSummation 0 t
      (Int.le_refl 0) ht
    refine hnested.bind ?_
    rintro parsed u ⟨-, hu⟩
    refine (meets_skipBlanks (lacking_interrupted total) host u).bind fun _ v hv => ?_
    replace hv := hu.skipBlanks hv
    refine Run.Meets.of_ok (a := v.cursor) (t := v) rfl ?_
    cases hcurrent : v.cursor.current with
    | some found => exact meets_failHere_lacking nofun
    | none =>
      have hend : v.rest = [] := List.head?_eq_none_iff.mp hcurrent
      rw [AtDepth, hend] at hv
      exact hv

end KeepsDepth

end Reading

/-- A text that is read closes what it opens; one with a parenthesis that is found to be unclosed opens
more. -/
theorem Expression.meets_balance (host : Host σ) (options : ReadingOptions) (steps : Nat) (source : String)
    (world : σ) :
    Run.Meets (Expression.read host options steps source) world (fun _ _ => excess source.toList = 0)
      (Lacking (excess source.toList)) := by
  have hwhole := Reading.meets_whole_depth host options steps (depthBound source)
    ⟨Cursor.start source, world⟩
  have hread : Run.Meets (readNode host options steps source) world
      (fun _ _ => excess source.toList = 0) (Lacking (excess source.toList)) := by
    unfold Run.Meets at hwhole ⊢
    unfold readNode
    rcases hrun : Reading.whole host options steps (depthBound source) ⟨Cursor.start source, world⟩
      with _ | ⟨_ | _, _⟩ <;> rw [hrun] at hwhole <;> exact hwhole
  exact hread.bind fun _ _ h => h

end Formulae
