import Formulae.Expression
import Formulae.Proofs.Grammar.Balance
import Formulae.Proofs.Reading.Congruence
import Formulae.Proofs.Reading.Exactness

/-!
# Proofs.Reading.Faults — a fault of syntax points at what it names

Whatever the host does and whether or not subtrees are folded, a reading takes pieces of the text, with
every parenthesis closed, and a fault of syntax stands between two characters of the text, in front of what
its cause names.

* `SyntaxCause.Describes`: what the text from the place of a fault on shows.
* `Steps`: a reading takes a piece of the text or fails where it should; `sequences_steps` carries this
  over to what readings are put together from.
* `meets_primary`: the readings that fail at a place from before, where a parenthesis was opened or a name
  or numeral began.
* `Expression.read_fault_points`: the faults of a whole text.
-/

namespace Formulae

open Text Number Grammar

variable {σ : Type}

/-- What the text from the place of a fault on shows of its cause. -/
def SyntaxCause.Describes : SyntaxCause → List Char → Prop
  | .unexpectedCharacter found, rest | .trailingInput found, rest => rest.head? = some found
  | .unexpectedEnd, rest => rest = []
  | .unclosedParenthesis, rest => ∃ after, rest = '(' :: after ∧ LeavesOpen after
  | .emptyArgument, rest => rest.head? = some ',' ∨ rest.head? = some ')'
  | .unknownFunction name arity, rest =>
    ∃ args after, rest = name.toList ++ '(' :: (args ++ ')' :: after) ∧ Arguments arity args
  | .invalidNumber text, rest => text.toList <+: rest

/-- The position lies between two characters of the text, with `rest` behind it. -/
def Points (source : String) (position : Nat) (rest : List Char) : Prop :=
  ∃ before, before ++ rest = source.toList ∧ position = byteLength before

/-- A fault of syntax, if it is one, names the text and points at what its cause says. -/
def Locates (source : String) (fault : Fault) : Prop :=
  ∀ f, fault = .syntactic f →
    f.source = source ∧ ∃ rest, Points source f.position rest ∧ f.cause.Describes rest

theorem locates_interrupted (source : String) (cancelled : Bool) :
    Locates source (.interrupted cancelled) := by
  rintro f ⟨⟩

theorem Cursor.Reads.points {source : String} {c : Cursor} (h : c.Reads source) :
    Points source c.position c.rest :=
  h.2

theorem Cursor.Reads.skip {source : String} {c : Cursor} (h : c.Reads source) (n : Nat) :
    (c.skip n).Reads source := by
  induction n generalizing c with
  | zero => exact h
  | succ n ih => exact ih h.next

namespace Reading

/-- From `r` to `t`, the characters `taken` of the text were taken. -/
structure Moves (source : String) (taken : List Char) (r t : Reader σ) : Prop where
  reads : t.cursor.Reads source
  rest : r.rest = taken ++ t.rest

theorem Moves.trans {source : String} {a b : List Char} {r t u : Reader σ} (h : Moves source a r t)
    (h' : Moves source b t u) : Moves source (a ++ b) r u :=
  ⟨h'.reads, by rw [h.rest, h'.rest, List.append_assoc]⟩

theorem moves_nil {source : String} {r t : Reader σ} (hr : r.cursor.Reads source)
    (h : t.cursor = r.cursor) : Moves source [] r t :=
  ⟨h ▸ hr, by rw [Reader.rest, Reader.rest, h]; rfl⟩

/-- Behind a run of characters that comes next. -/
theorem moves_skip {source : String} (taken : List Char) {rest : List Char} {r t : Reader σ}
    (hr : r.cursor.Reads source) (hrest : r.rest = taken ++ rest)
    (h : t.cursor = r.cursor.skip taken.length) : Moves source taken r t ∧ t.rest = rest := by
  have ht : t.rest = rest := by
    rw [Reader.rest, h]
    exact (Cursor.skip_run hrest).1
  exact ⟨⟨h ▸ hr.skip _, hrest.trans (by rw [ht])⟩, ht⟩

/-- Behind the blanks that come next. -/
theorem moves_skipBlanks {source : String} {r t : Reader σ} (hr : r.cursor.Reads source)
    (h : t.cursor = r.skipBlanks.cursor) :
    ∃ blanks, (∀ c ∈ blanks, isBlank c = true) ∧ Moves source blanks r t ∧ t.rest = afterBlanks r.rest :=
  ⟨r.rest.takeWhile isBlank, all_takeWhile r.rest,
    moves_skip _ hr List.takeWhile_append_dropWhile.symm h⟩

/-! ### Faults -/

section Faults

variable {source : String} {r : Reader σ} {α : Type} {post : α → Reader σ → Prop}

theorem meets_failAt {cause : SyntaxCause} {position : Nat} {rest : List Char}
    (hr : r.cursor.Reads source) (hplace : Points source position rest) (hcause : cause.Describes rest) :
    Run.Meets (failAt cause position) r post (Locates source) := by
  rintro f ⟨⟩
  exact ⟨hr.1, rest, hplace, hcause⟩

theorem meets_failHere {cause : SyntaxCause} (hr : r.cursor.Reads source)
    (hcause : cause.Describes r.rest) : Run.Meets (failHere cause) r post (Locates source) := by
  rintro f ⟨⟩
  exact ⟨hr.1, r.rest, hr.points, hcause⟩

theorem meets_failUnexpected (hr : r.cursor.Reads source) :
    Run.Meets failUnexpected r post (Locates source) := by
  show Locates source r.cursor.unexpected
  unfold Cursor.unexpected
  cases hc : r.cursor.current with
  | some found =>
    rintro f ⟨⟩
    exact ⟨hr.1, r.rest, hr.points, hc⟩
  | none =>
    rintro f ⟨⟩
    exact ⟨hr.1, r.rest, hr.points, List.head?_eq_none_iff.mp hc⟩

end Faults

/-! ### Moves under any host -/

section Moves

variable {fails : Fault → Prop} (interrupted : ∀ cancelled, fails (.interrupted cancelled))
  (host : Host σ) (r : Reader σ)
include interrupted

theorem meets_advance :
    Run.Meets (advance host) r (fun _ t => t.cursor = r.cursor.skip 1) fails := by
  have hpoll : Run.Meets (poll host) r (fun _ t => t.cursor = r.cursor) fails := by
    unfold Run.Meets poll
    rcases host.poll r.world with ⟨_ | cancelled, world⟩
    · rfl
    · exact interrupted cancelled
  refine hpoll.bind ?_
  rintro - t ht
  show t.cursor.next = r.cursor.next
  rw [ht]

theorem meets_advanceBy (n : Nat) :
    Run.Meets (advanceBy host n) r (fun _ t => t.cursor = r.cursor.skip n) fails := by
  induction n generalizing r with
  | zero => rfl
  | succ n ih =>
    refine (meets_advance interrupted host r).bind fun _ t ht => (ih t).mono ?_
    rintro - u hu
    rw [hu, ht]
    rfl

theorem meets_skipBlanks :
    Run.Meets (skipBlanks host) r (fun _ t => t.cursor = r.skipBlanks.cursor) fails :=
  meets_advanceBy interrupted host r _

/-- A literal is taken with the blanks in front of it, or nothing is taken. -/
theorem meets_eat (literal : List Char) :
    Run.Meets (eat host literal) r (fun seen t =>
      (seen = true ∧ literal <+: afterBlanks r.rest ∧
        t.cursor = r.skipBlanks.cursor.skip literal.length) ∨
      (seen = false ∧ ¬ literal <+: afterBlanks r.rest ∧ t.cursor = r.cursor)) fails := by
  have hblanks : r.skipBlanks.cursor.rest = afterBlanks r.rest := r.rest_skipBlanks
  show Run.Meets (skipBlanks host >>= fun _ => _) r _ _
  refine (meets_skipBlanks interrupted host r).bind fun _ t ht => ?_
  show Run.Meets (if literal.isPrefixOf t.cursor.rest then _ else _) t _ _
  rw [ht, hblanks]
  by_cases hp : literal <+: afterBlanks r.rest
  · rw [if_pos (List.isPrefixOf_iff_prefix.mpr hp)]
    refine (meets_advanceBy interrupted host t literal.length).bind fun _ u hu => ?_
    exact .inl ⟨rfl, hp, hu.trans (by rw [ht])⟩
  · rw [if_neg fun h => hp (List.isPrefixOf_iff_prefix.mp h)]
    exact .inr ⟨rfl, hp, rfl⟩

/-- Folding takes nothing of the text and raises no fault of syntax. -/
theorem meets_finish {g : Setting σ} (node : Node) (constant : Bool) :
    Run.Meets (finish g node constant) r (fun _ t => t.cursor = r.cursor) fails := by
  have hfold : Run.Meets (fold g.host g.steps g.options.limits node) r
      (fun _ t => t.cursor = r.cursor) fails := by
    unfold Run.Meets fold
    cases node.isLiteral with
    | true => rfl
    | false =>
      simp only [Bool.false_eq_true, if_false]
      rcases evaluateFresh g.host Source.none g.steps g.options.limits node r.world with
        _ | ⟨fault | value, world⟩
      · trivial
      · cases fault with
        | interrupted cancelled => exact interrupted cancelled
        | _ => rfl
      · rfl
  unfold finish
  cases constant && g.options.foldConstants with
  | true => exact hfold.bind fun _ _ ht => ht
  | false => rfl

end Moves

/-- A sign is taken with the blanks in front of it, or nothing is taken. -/
theorem meets_sees (source : String) {g : Setting σ} (sign : String) {r : Reader σ}
    (hr : r.cursor.Reads source) :
    Run.Meets (sees g sign) r (fun seen t =>
      (seen = true ∧ ∃ blanks, (∀ c ∈ blanks, isBlank c = true) ∧
        Moves source (blanks ++ sign.toList) r t) ∨
      (seen = false ∧ t.cursor = r.cursor)) (Locates source) := by
  refine (meets_eat (locates_interrupted source) g.host r sign.toList).mono fun seen t h => ?_
  rcases h with ⟨hseen, ⟨rest, hsign⟩, ht⟩ | ⟨hseen, -, ht⟩
  · obtain ⟨blanks, hblank, hmove, hrest⟩ := moves_skipBlanks hr (rfl : r.skipBlanks.cursor = _)
    obtain ⟨hmove', -⟩ := moves_skip _ hmove.reads (hrest.trans hsign.symm) ht
    exact .inl ⟨hseen, blanks, hblank, hmove.trans hmove'⟩
  · exact .inr ⟨hseen, ht⟩

/-! ### What readings take -/

/-- A reading takes a piece of the text, or it fails in front of what the fault says. -/
def Steps (source : String) {α β : Type} (rel : α → β → Prop) (x : Reading σ α) (_ : Reading σ β) : Prop :=
  ∀ r : Reader σ, r.cursor.Reads source →
    Run.Meets x r (fun a t => (∃ b, rel a b) ∧ ∃ taken, Piece taken ∧ Moves source taken r t)
      (Locates source)

section Steps

variable {source : String} {g : Setting σ}

theorem piece_nil : Piece [] :=
  piece_of_inner (by simp)

/-- A reading that stays where it is takes the empty piece. -/
theorem steps_of_still {α β : Type} {rel : α → β → Prop} {x : Reading σ α} {y : Reading σ β}
    (h : ∀ r, Run.Meets x r (fun a t => (∃ b, rel a b) ∧ t.cursor = r.cursor) (Locates source)) :
    Steps source rel x y := by
  intro r hr
  refine (h r).mono fun a t ht => ?_
  exact ⟨ht.1, [], piece_nil, moves_nil hr ht.2⟩

theorem sequences_steps : Sequences (Steps (σ := σ) source) where
  pure hab := steps_of_still fun _ => ⟨⟨_, hab⟩, rfl⟩
  bind := by
    intro α β γ δ rel rel' x y f g hx hf r hr
    refine (hx r hr).bind ?_
    rintro a t ⟨⟨b, hab⟩, taken, htaken, hmove⟩
    refine (hf a b hab t hmove.reads).mono ?_
    rintro c u ⟨hc, more, hmore, hmove'⟩
    exact ⟨hc, taken ++ more, htaken.append hmore, hmove.trans hmove'⟩
  exhausted _ := fun _ _ => trivial
  cursor := steps_of_still fun r => ⟨⟨r.cursor, rfl⟩, rfl⟩

/-- No operator has a parenthesis or a comma. -/
theorem isInner_of_mem_joiners {sign : String} (h : sign ∈ joiners) :
    ∀ c ∈ sign.toList, isInner c = true := by
  have hall : (joiners.all fun sign : String => sign.toList.all isInner) = true := by decide
  exact List.all_eq_true.mp (List.all_eq_true.mp hall sign h)

theorem steps_sees {sign : String} (h : sign ∈ joiners) :
    Steps source Eq (sees g sign) (sees g sign) := by
  intro r hr
  refine (meets_sees source sign hr).mono ?_
  rintro seen t (⟨-, blanks, hblank, hmove⟩ | ⟨-, ht⟩)
  · exact ⟨⟨seen, rfl⟩, _, (piece_of_blank hblank).append (piece_of_inner (isInner_of_mem_joiners h)),
      hmove⟩
  · exact ⟨⟨seen, rfl⟩, [], piece_nil, moves_nil hr ht⟩

/-! ### Parentheses and arguments -/

/-- At the end of the text the parenthesis at `opening` is not closed, if everything that was opened behind
it was. -/
theorem meets_unclosed {opening : Nat} {text blanks : List Char} {r t : Reader σ} {α : Type}
    {post : α → Reader σ → Prop} (hblank : ∀ c ∈ blanks, isBlank c = true)
    (hmove : Moves source blanks r t) (hend : t.rest = [])
    (hopening : Points source opening ('(' :: (text ++ r.rest))) (htext : Balanced text) :
    Run.Meets (failAt .unclosedParenthesis opening) t post (Locates source) := by
  have hrest : r.rest = blanks := by rw [hmove.rest, hend, List.append_nil]
  refine meets_failAt hmove.reads hopening ⟨_, rfl, htext.leavesOpen_append ?_⟩
  rw [hrest]
  exact (piece_of_blank hblank).leavesOpen

/-- Behind what was opened, and closed since then but for the parenthesis at `opening`, a closing
parenthesis is taken. -/
theorem meets_close {opening : Nat} {text : List Char} {r : Reader σ} (hr : r.cursor.Reads source)
    (hopening : Points source opening ('(' :: (text ++ r.rest))) (htext : Balanced text) :
    Run.Meets (close g opening) r (fun _ t => ∃ blanks, (∀ c ∈ blanks, isBlank c = true) ∧
      Moves source (blanks ++ [')']) r t) (Locates source) := by
  refine (meets_sees source ")" hr).bind ?_
  rintro seen t (⟨rfl, blanks, hblank, hmove⟩ | ⟨rfl, ht⟩)
  · exact ⟨blanks, hblank, hmove⟩
  · refine (meets_skipBlanks (locates_interrupted source) g.host t).bind fun _ u hu => ?_
    obtain ⟨blanks, hblank, hmove, -⟩ := moves_skipBlanks (ht ▸ hr) hu
    show Run.Meets (if u.cursor.atEnd then _ else _) u _ _
    cases hend : u.cursor.atEnd with
    | false => exact meets_failUnexpected hmove.reads
    | true =>
      have hsame : t.rest = r.rest := congrArg Cursor.rest ht
      exact meets_unclosed hblank hmove (List.isEmpty_iff.mp hend) (hsame ▸ hopening) htext

/-- Arguments take the text of as many arguments, up to the parenthesis that closes the call. -/
theorem meets_arguments {inside : Bool}
    (hdescend : Steps source (fun _ _ => True) (g.descend .formula inside) (g.descend .formula inside))
    (opening rounds : Nat) (done : List Parsed) {text : List Char} {r : Reader σ}
    (hr : r.cursor.Reads source) (hopening : Points source opening ('(' :: (text ++ r.rest)))
    (htext : Balanced text) :
    Run.Meets (arguments g inside opening rounds done) r (fun args t =>
      ∃ n taken, args.length = done.length + (n + 1) ∧ Arguments (n + 1) taken ∧
        Moves source (taken ++ [')']) r t) (Locates source) := by
  induction rounds generalizing done text r with
  | zero => trivial
  | succ rounds ih =>
    refine (meets_skipBlanks (locates_interrupted source) g.host r).bind fun _ t ht => ?_
    obtain ⟨blanks, hblank, hmove, hbehind⟩ := moves_skipBlanks hr ht
    refine Run.Meets.of_ok (a := t.cursor) (t := t) rfl ?_
    cases hcurrent : t.cursor.current with
    | none =>
      exact meets_unclosed hblank hmove (List.head?_eq_none_iff.mp hcurrent) hopening htext
    | some x =>
      simp only
      by_cases hx : x = ',' ∨ x = ')'
      · rw [if_pos hx]
        refine meets_failHere hmove.reads ?_
        rcases hx with rfl | rfl
        · exact .inl hcurrent
        · exact .inr hcurrent
      · rw [if_neg hx]
        refine (hdescend t hmove.reads).bind ?_
        rintro arg u ⟨-, taken, htaken, hmove'⟩
        have hhead : (afterBlanks r.rest).head? = some x := hbehind ▸ hcurrent
        have hpiece : ∀ {more : List Char}, (∀ c ∈ more, isBlank c = true) →
            Piece (blanks ++ taken ++ more) := fun hmore =>
          ((piece_of_blank hblank).append htaken).append (piece_of_blank hmore)
        refine (meets_sees source "," hmove'.reads).bind ?_
        rintro comma v (⟨rfl, more, hmore, hmove''⟩ | ⟨rfl, hv⟩)
        · have hv := (hmove.trans hmove').trans hmove''
          rw [← List.append_assoc, show ",".toList = [','] from rfl] at hv
          have harg := (hpiece hmore).argument_of_followed hhead (by decide) (fun h => hx (.inl h))
            (by simpa using hv.rest)
          have hopened : Points source opening
              ('(' :: (text ++ (blanks ++ taken ++ more ++ [',']) ++ v.rest)) := by
            rw [List.append_assoc, ← hv.rest]
            exact hopening
          refine (ih (arg :: done) hv.reads hopened
            (htext.append (harg.toBalanced.append balanced_comma))).mono ?_
          rintro args w ⟨n, others, hlength, hothers, hw⟩
          refine ⟨n + 1, _, by rw [hlength, List.length_cons]; omega, .more harg hothers, ?_⟩
          simpa using hv.trans hw
        · have hu : v.rest = u.rest := congrArg Cursor.rest hv
          have hmove := hmove.trans hmove'
          have hopened : Points source opening ('(' :: (text ++ (blanks ++ taken) ++ v.rest)) := by
            rw [List.append_assoc, hu, ← hmove.rest]
            exact hopening
          refine (meets_close (hv ▸ hmove.reads) hopened
            (htext.append ((piece_of_blank hblank).append htaken).toBalanced)).bind ?_
          rintro - w ⟨more, hmore, hclose⟩
          have hw := (hmove.trans (moves_nil hmove.reads hv)).trans hclose
          rw [List.append_nil, ← List.append_assoc] at hw
          have harg := (hpiece hmore).argument_of_followed hhead (by decide) (fun h => hx (.inr h))
            (by simpa using hw.rest)
          exact ⟨0, _, by simp, .last harg, hw⟩

theorem meets_callArguments {inside : Bool}
    (hdescend : Steps source (fun _ _ => True) (g.descend .formula inside) (g.descend .formula inside))
    {opening : Nat} {r : Reader σ} (hr : r.cursor.Reads source)
    (hopening : Points source opening ('(' :: r.rest)) :
    Run.Meets (callArguments g inside opening) r (fun args t =>
      ∃ taken, Arguments args.length taken ∧ Moves source (taken ++ [')']) r t) (Locates source) := by
  refine (meets_sees source ")" hr).bind ?_
  rintro closed t (⟨rfl, blanks, hblank, hmove⟩ | ⟨rfl, ht⟩)
  · exact ⟨blanks, .none hblank, hmove⟩
  · have hrest : t.rest = r.rest := congrArg Cursor.rest ht
    have hopened : Points source opening ('(' :: ([] ++ t.rest)) := by
      rw [List.nil_append, hrest]
      exact hopening
    refine (meets_arguments hdescend opening g.rounds [] (ht ▸ hr) hopened piece_nil.toBalanced).mono ?_
    rintro args u ⟨n, taken, hlength, htaken, hmove⟩
    refine ⟨taken, ?_, (moves_nil hr ht).trans hmove⟩
    rw [hlength, List.length_nil, Nat.zero_add]
    exact htaken

/-! ### Primaries -/

theorem meets_numeral {r : Reader σ} (hr : r.cursor.Reads source)
    (hm : ¬ NotNext Numeral.isMantissaChar r.rest) :
    Run.Meets (numeral g) r (fun _ t => ∃ taken, Piece taken ∧ Moves source taken r t)
      (Locates source) := by
  obtain ⟨rest, hrest, hnumeral⟩ := isNumeral_scan hm
  refine Run.Meets.of_ok (a := r.cursor) (t := r) rfl ?_
  have hadvance := meets_advanceBy (locates_interrupted source) g.host r
    (Numeral.scan r.cursor.rest).length
  refine hadvance.bind fun _ t ht => ?_
  obtain ⟨hmove, -⟩ := moves_skip _ hr hrest ht
  cases Numeral.value? (Numeral.scan r.cursor.rest) with
  | some value => exact ⟨_, hnumeral.piece, hmove⟩
  | none =>
    refine meets_failAt hmove.reads hr.points ⟨rest, ?_⟩
    rw [String.toList_ofList]
    exact hrest.symm

theorem meets_call {name : String} {args : List Parsed} {start : Nat} {rest : List Char}
    {r : Reader σ} (hr : r.cursor.Reads source) (hstart : Points source start rest)
    (hcall : SyntaxCause.Describes (.unknownFunction name args.length) rest) :
    Run.Meets (call g name args start) r (fun _ t => t.cursor = r.cursor) (Locates source) := by
  unfold call
  cases callNode? name (args.map Parsed.node) with
  | some node => exact meets_finish (locates_interrupted source) r node _
  | none => exact meets_failAt hr hstart hcall

theorem meets_named {inside : Bool}
    (hdescend : ∀ inside, Steps source (fun _ _ => True) (g.descend .formula inside)
      (g.descend .formula inside)) {r : Reader σ} (hr : r.cursor.Reads source) :
    Run.Meets (named g inside) r (fun _ t => ∃ taken, Piece taken ∧ Moves source taken r t)
      (Locates source) := by
  have hsplit : r.rest = r.rest.takeWhile continuesName ++ r.rest.dropWhile continuesName :=
    List.takeWhile_append_dropWhile.symm
  have hname : Piece (r.rest.takeWhile continuesName) := piece_of_name (all_takeWhile r.rest)
  have hadvance := meets_advanceBy (locates_interrupted source) g.host r
    (r.rest.takeWhile continuesName).length
  refine hadvance.bind fun _ t ht => ?_
  obtain ⟨hmove, -⟩ := moves_skip _ hr hsplit ht
  show Run.Meets (if t.cursor.current = some '(' then _ else _) t _ _
  by_cases hparen : t.cursor.current = some '('
  · rw [if_pos hparen]
    obtain ⟨after, hafter⟩ := List.head?_eq_some_iff.mp hparen
    refine (meets_advance (locates_interrupted source) g.host t).bind fun _ u hu => ?_
    obtain ⟨hmove', hu⟩ := moves_skip ['('] hmove.reads hafter hu
    have hopening : Points source t.cursor.position ('(' :: u.rest) := by
      rw [hu, ← hafter]
      exact hmove.reads.points
    refine (meets_callArguments (hdescend _) hmove'.reads hopening).bind ?_
    rintro args v ⟨taken, hargs, hmove''⟩
    have hv := (hmove.trans hmove').trans hmove''
    refine (meets_call hv.reads hr.points ⟨taken, v.rest, ?_, hargs⟩).mono ?_
    · have hrest : r.rest = r.rest.takeWhile continuesName ++ '(' :: (taken ++ ')' :: v.rest) := by
        simpa using hv.rest
      rw [String.toList_ofList]
      exact hrest
    · intro _ w hw
      refine ⟨_, hname.append hargs.balanced.enclosed, ?_⟩
      simpa using hv.trans (moves_nil hv.reads hw)
  · rw [if_neg hparen]
    exact ⟨_, hname, hmove⟩

/-- A primary takes a piece of the text. -/
theorem steps_primary (hdescend : ∀ inside, Steps source (fun _ _ => True) (g.descend .formula inside)
      (g.descend .formula inside)) (inside : Bool) :
    Steps source (fun _ _ => True) (primary g inside) (primary g inside) := by
  intro r hr
  suffices h : Run.Meets (primary g inside) r (fun _ t => ∃ taken, Piece taken ∧ Moves source taken r t)
      (Locates source) from h.mono fun p _ ht => ⟨⟨p, trivial⟩, ht⟩
  refine (meets_skipBlanks (locates_interrupted source) g.host r).bind fun _ t ht => ?_
  obtain ⟨blanks, hblank, hmove, -⟩ := moves_skipBlanks hr ht
  -- what is taken behind the blanks makes a piece with them
  have hbehind : ∀ {x : Reading σ Parsed},
      Run.Meets x t (fun _ u => ∃ taken, Piece taken ∧ Moves source taken t u) (Locates source) →
        Run.Meets x t (fun _ u => ∃ taken, Piece taken ∧ Moves source taken r u) (Locates source) := by
    intro x hx
    refine hx.mono ?_
    rintro - u ⟨taken, htaken, hmove'⟩
    exact ⟨_, (piece_of_blank hblank).append htaken, hmove.trans hmove'⟩
  refine Run.Meets.of_ok (a := t.cursor) (t := t) rfl ?_
  cases hcurrent : t.cursor.current with
  | none => exact meets_failUnexpected hmove.reads
  | some x =>
    refine hbehind ?_
    obtain ⟨after, hafter⟩ := List.head?_eq_some_iff.mp hcurrent
    simp only
    by_cases hparen : x = '('
    · subst hparen
      rw [if_pos rfl]
      refine (meets_advance (locates_interrupted source) g.host t).bind fun _ u hu => ?_
      obtain ⟨hmove', hu⟩ := moves_skip ['('] hmove.reads hafter hu
      refine (hdescend inside u hmove'.reads).bind ?_
      rintro inner v ⟨-, taken, htaken, hmove''⟩
      have hopening : Points source t.cursor.position ('(' :: (taken ++ v.rest)) := by
        rw [← hmove''.rest, hu, ← hafter]
        exact hmove.reads.points
      refine (meets_close hmove''.reads hopening htaken.toBalanced).bind ?_
      rintro - w ⟨more, hmore, hclose⟩
      refine (meets_finish (locates_interrupted source) w _ _).mono fun _ z hz => ?_
      refine ⟨_, (htaken.append (piece_of_blank hmore)).toBalanced.enclosed, ?_⟩
      simpa using ((hmove'.trans hmove'').trans hclose).trans (moves_nil hclose.reads hz)
    · rw [if_neg hparen]
      by_cases hm : Numeral.isMantissaChar x = true
      · rw [if_pos hm]
        refine meets_numeral hmove.reads fun hnot => ?_
        rw [hnot x hcurrent] at hm
        cases hm
      · rw [if_neg hm]
        by_cases hn : startsName x = true
        · rw [if_pos hn]
          exact meets_named hdescend hmove.reads
        · rw [if_neg hn]
          exact meets_failUnexpected hmove.reads

theorem steps_finish {g' : Setting σ} (node node' : Node) (constant constant' : Bool) :
    Steps source (fun _ _ => True) (finish g node constant) (finish g' node' constant') :=
  steps_of_still fun r => (meets_finish (locates_interrupted source) r node constant).mono
    fun p _ ht => ⟨⟨p, trivial⟩, ht⟩

theorem chains_steps
    (hdescend : ∀ entry inside, Steps source (fun _ _ => True) (g.descend entry inside)
      (g.descend entry inside)) :
    Chains (fun _ _ => True) g g (Steps (σ := σ) source) where
  toSequences := sequences_steps
  rounds := .inl rfl
  sees _ h := steps_sees h
  descend := hdescend
  primary := steps_primary (hdescend .formula)
  neg _ := steps_finish _ _ _ _
  joined _ _ _ := steps_finish _ _ _ _

/-! ### The whole text -/

theorem steps_nested (host : Host σ) (options : ReadingOptions) (steps depth : Nat) (entry : Entry)
    (inside : Bool) :
    Steps source (fun _ _ => True) (nested host options steps depth entry inside)
      (nested host options steps depth entry inside) :=
  nested_related sequences_steps (fun _ hdescend => chains_steps hdescend) depth entry inside

theorem meets_whole (host : Host σ) (options : ReadingOptions) (steps depth : Nat) {r : Reader σ}
    (hr : r.cursor.Reads source) :
    Run.Meets (whole host options steps depth) r (fun _ _ => True) (Locates source) := by
  refine (meets_skipBlanks (locates_interrupted source) host r).bind fun _ t ht => ?_
  obtain ⟨_, _, hmove, _⟩ := moves_skipBlanks hr ht
  show Run.Meets (if t.cursor.atEnd then _ else _) t _ _
  cases hend : t.cursor.atEnd with
  | true => exact meets_failHere hmove.reads (List.isEmpty_iff.mp hend)
  | false =>
    refine (steps_nested host options steps depth .formula options.insideSummation t hmove.reads).bind ?_
    rintro parsed u ⟨-, taken, -, hmove'⟩
    refine (meets_skipBlanks (locates_interrupted source) host u).bind fun _ v hv => ?_
    obtain ⟨_, _, hmove'', _⟩ := moves_skipBlanks hmove'.reads hv
    refine Run.Meets.of_ok (a := v.cursor) (t := v) rfl ?_
    cases hcurrent : v.cursor.current with
    | none => trivial
    | some found => exact meets_failHere hmove''.reads hcurrent

end Steps

end Reading

theorem utf8ByteSize_eq_byteLength (text : List Char) :
    (String.ofList text).utf8ByteSize = byteLength text := by
  induction text with
  | nil => rfl
  | cons c rest ih =>
    rw [String.ofList_cons, String.utf8ByteSize_append, String.utf8ByteSize_singleton, ih, byteLength_cons]

/-- A place in a text, as a split of the text. -/
theorem Points.exists_split {source : String} {position : Nat} {rest : List Char}
    (h : Points source position rest) :
    ∃ before, source = before ++ String.ofList rest ∧ position = before.utf8ByteSize := by
  obtain ⟨before, hsource, hposition⟩ := h
  refine ⟨String.ofList before, ?_, by rw [hposition, utf8ByteSize_eq_byteLength]⟩
  rw [← String.ofList_append, hsource, String.ofList_toList]

/-- A place in a text stands on a boundary of its characters. -/
theorem Points.isValid {source : String} {position : Nat} {rest : List Char}
    (h : Points source position rest) : (⟨position⟩ : String.Pos.Raw).IsValid source := by
  obtain ⟨before, hsplit, rfl⟩ := h.exists_split
  exact String.Pos.Raw.isValid_iff_exists_append.mpr ⟨before, String.ofList rest, hsplit, rfl⟩

/-- Whatever the host does and however a text is read, a fault of syntax names that text and stands between
two of its characters, and the text from there on shows the cause: the character that was not expected,
nothing at all, a parenthesis that nothing behind it closes, the comma or the parenthesis where an argument
is missing, the name with as many arguments in the parentheses at once behind it, or the numeral. -/
theorem Expression.read_fault_points (host : Host σ) (options : ReadingOptions) (steps : Nat)
    (source : String) (world after : σ) (fault : SyntaxFault)
    (h : Expression.read host options steps source world = some (.error (.syntactic fault), after)) :
    fault.source = source ∧
      (⟨fault.position⟩ : String.Pos.Raw).IsValid source ∧ fault.position ≤ source.utf8ByteSize ∧
      (fault.cause = .unexpectedEnd → fault.position = source.utf8ByteSize) ∧
      ∃ before rest, source = before ++ rest ∧ fault.position = before.utf8ByteSize ∧
        fault.cause.Describes rest.toList := by
  have hread : readNode host options steps source world = some (.error (.syntactic fault), after) := by
    unfold Expression.read at h
    rw [Run.bind_apply] at h
    split at h
    · cases h
    · rename_i hrun
      cases h
      exact hrun
    · cases h
  have hmeets := Reading.meets_whole host options steps (depthBound source)
    (r := ⟨Cursor.start source, world⟩) (Cursor.reads_start source)
  rw [Reading.readNode_eq_map] at hread
  obtain ⟨⟨outcome, r⟩, hwhole, hfault⟩ := Option.map_eq_some_iff.mp hread
  obtain ⟨rfl, -⟩ := Prod.mk.inj hfault
  unfold Run.Meets at hmeets
  rw [hwhole] at hmeets
  obtain ⟨hsource, rest, hpoints, hcause⟩ := hmeets fault rfl
  obtain ⟨before, hsplit, hposition⟩ := hpoints.exists_split
  refine ⟨hsource, ?_, ?_, fun hend => ?_, before, String.ofList rest, hsplit, hposition, ?_⟩
  · refine String.Pos.Raw.isValid_iff_exists_append.mpr ⟨before, String.ofList rest, hsplit, ?_⟩
    rw [hposition]
    rfl
  · rw [hposition, hsplit, String.utf8ByteSize_append]
    exact Nat.le_add_right _ _
  · rw [hend] at hcause
    obtain rfl : rest = [] := hcause
    rw [hposition, hsplit]
    simp
  · rw [String.toList_ofList]
    exact hcause

/-- A function that is not known, called with two arguments behind a name of five bytes. -/
theorem Expression.read_fault_points_unknown :
    ∃ before rest : String, "x + über(a, (b))" = before ++ rest ∧ before.utf8ByteSize = 4 ∧
      SyntaxCause.Describes (.unknownFunction "über" 2) rest.toList := by
  have hread : Expression.read Host.idle {} 0 "x + über(a, (b))" () =
      some (.error (.syntactic ⟨.unknownFunction "über" 2, 4, "x + über(a, (b))"⟩), ()) := by
    decide +kernel
  obtain ⟨-, -, -, -, before, rest, hsplit, hposition, hcause⟩ :=
    Expression.read_fault_points _ _ _ _ _ _ _ hread
  exact ⟨before, rest, hsplit, hposition.symm, hcause⟩

end Formulae
