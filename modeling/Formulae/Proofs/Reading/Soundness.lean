import Formulae.Proofs.Reading.Levels
import Formulae.Proofs.Reading.Tokens

/-!
# Proofs.Reading.Soundness — what is read can be derived

Under a quiet host and without folding, every reading ends in a subtree that the grammar derives from the
text that was taken, or in a fault of syntax (`ends_level`, `ends_nested`). What is nested is taken care
of by `Plain.descend`, which asks for a text shorter than the bound; every token that comes before
something nested takes a character.
-/

namespace Formulae.Reading

open Text Number Grammar

variable {σ : Type}

/-- The fault is one of syntax. -/
def IsSyntactic (fault : Fault) : Prop :=
  ∃ cause, fault = .syntactic cause

/-- From `r` to `t`, the text was taken as a formula of the level. -/
structure Took (inside : Bool) (l : Level) (r : Reader σ) (p : Parsed) (t : Reader σ) : Prop where
  derives : Derives inside (.formula l p.node) r.rest t.rest
  world : t.world = r.world

/-- A setting without folding under a quiet host, whose nested readings take what can be derived. -/
structure Plain (g : Setting σ) : Prop where
  quiet : g.host.Quiet
  unfolded : g.options.foldConstants = false
  descend : ∀ entry inside (r : Reader σ), r.rest.length < g.rounds →
    Run.Ends (g.descend entry inside) r (Took inside entry.level r) IsSyntactic

section Faults

variable {α : Type} {r : Reader σ} {post : α → Reader σ → Prop}

theorem ends_failUnexpected : Run.Ends failUnexpected r post IsSyntactic := by
  show IsSyntactic r.cursor.unexpected
  unfold Cursor.unexpected
  split <;> exact ⟨_, rfl⟩

theorem ends_failHere {cause : SyntaxCause} : Run.Ends (failHere cause) r post IsSyntactic :=
  ⟨_, rfl⟩

theorem ends_failAt {cause : SyntaxCause} {position : Nat} :
    Run.Ends (failAt cause position) r post IsSyntactic :=
  ⟨_, rfl⟩

end Faults

section Levels

variable {g : Setting σ} (h : Plain g) {inside : Bool} {r : Reader σ}
include h

theorem finish_of_plain (node : Node) (constant : Bool) :
    finish g node constant = pure ⟨node, constant⟩ := by
  simp [finish, h.unfolded]

/-! ### Calls -/

theorem ends_close (opening : Nat) :
    Run.Ends (close g opening) r (fun _ t => SignAt ")" r.rest t.rest ∧ t.world = r.world)
      IsSyntactic := by
  unfold close
  refine Run.ends_bind.mpr (ends_sees h.quiet (by decide) (fun t hs hw => ⟨hs, hw⟩) ?_)
  refine Run.ends_bind.mpr (Run.ends_of_ok (skipBlanks_of_quiet h.quiet r) ?_)
  refine Run.ends_bind.mpr ?_
  show Run.Ends (if _ then _ else _) _ _ _
  split
  · exact ends_failAt
  · exact ends_failUnexpected

theorem ends_arguments (opening : Nat) (rounds : Nat) (done : List Parsed)
    (hr : r.rest.length < rounds) (hg : r.rest.length < g.rounds) :
    Run.Ends (arguments g inside opening rounds done) r
      (fun args t => (∃ more, args = done.reverse ++ more ∧
        Derives inside (.arguments (more.map Parsed.node)) r.rest t.rest) ∧ t.world = r.world)
      IsSyntactic := by
  induction rounds generalizing r done with
  | zero => omega
  | succ rounds ih =>
    have hblanks : r.skipBlanks.rest = afterBlanks r.rest := r.rest_skipBlanks
    have hle : r.skipBlanks.rest.length ≤ r.rest.length := by
      rw [hblanks]
      exact length_afterBlanks_le _
    unfold arguments
    refine Run.ends_bind.mpr (Run.ends_of_ok (skipBlanks_of_quiet h.quiet r) ?_)
    refine Run.ends_bind.mpr
      (Run.ends_of_ok (t := r.skipBlanks) (a := r.skipBlanks.cursor) rfl ?_)
    split
    · exact ends_failAt
    · split
      · exact ends_failHere
      · refine (h.descend .formula inside r.skipBlanks (by omega)).bind ?_
        intro arg t harg
        have hderives : Derives inside (.formula .disjunction arg.node) r.rest t.rest := by
          have := harg.derives
          rw [hblanks] at this
          exact this.of_afterBlanks
        have hlt := hderives.length_lt
        refine Run.ends_bind.mpr (ends_sees h.quiet (by decide) (fun t' hcomma hw => ?_) ?_)
        · have hlt' := hcomma.length_lt
          refine (ih (arg :: done) (by omega) (by omega)).mono (fun args t'' hargs => ?_)
            fun _ h => h
          obtain ⟨⟨more, hmore, hd⟩, hw'⟩ := hargs
          refine ⟨⟨arg :: more, by simp [hmore], .argument hderives hcomma hd⟩, ?_⟩
          rw [hw', hw, harg.world, Reader.world_skipBlanks]
        · refine (ends_close h opening).bind ?_
          intro _ t' hclose
          refine ⟨⟨[arg], by simp, .lastArgument hderives hclose.1⟩, ?_⟩
          rw [hclose.2, harg.world, Reader.world_skipBlanks]

theorem ends_callArguments (opening : Nat) (hg : r.rest.length < g.rounds) :
    Run.Ends (callArguments g inside opening) r
      (fun args t => ((args = [] ∧ SignAt ")" r.rest t.rest) ∨
        Derives inside (.arguments (args.map Parsed.node)) r.rest t.rest) ∧ t.world = r.world)
      IsSyntactic := by
  unfold callArguments
  refine Run.ends_bind.mpr (ends_sees h.quiet (by decide) (fun t hs hw => ?_) ?_)
  · exact ⟨.inl ⟨rfl, hs⟩, hw⟩
  · refine (ends_arguments h opening g.rounds [] hg hg).mono (fun args t hargs => ?_) fun _ h => h
    obtain ⟨⟨more, rfl, hd⟩, hw⟩ := hargs
    exact ⟨.inr hd, hw⟩

/-! ### Primaries -/

theorem ends_numeral {c : Char} (hc : (afterBlanks r.rest).head? = some c)
    (hm : Numeral.isMantissaChar c = true) :
    Run.Ends (numeral g) r.skipBlanks (Took inside .primary r) IsSyntactic := by
  by_cases hnext : ∃ value rest, NumeralAt value r.rest rest
  · obtain ⟨value, rest, hnext⟩ := hnext
    obtain ⟨t, ht, hrest, hw⟩ := numeral_of_numeralAt h.quiet hnext
    exact Run.ends_of_ok ht ⟨hrest ▸ .numeral hnext, hw⟩
  · obtain ⟨cause, position, t, ht⟩ := numeral_of_not_numeralAt h.quiet hc hm
      fun value rest hv => hnext ⟨value, rest, hv⟩
    exact Run.ends_of_eq ht ends_failAt

theorem ends_named {c : Char} (hc : (afterBlanks r.rest).head? = some c)
    (hn : startsName c = true) (hg : r.rest.length ≤ g.rounds) :
    Run.Ends (named g inside) r.skipBlanks (Took inside .primary r) IsSyntactic := by
  rcases nameAt_or_callAt hc hn with ⟨name, rest, hnext⟩ | ⟨name, rest, hnext⟩
  · obtain ⟨t, ht, hrest, hw⟩ := named_of_nameAt h.quiet inside hnext
    exact Run.ends_of_ok ht ⟨hrest ▸ .name hnext (standsFor_iff.mpr rfl), hw⟩
  · obtain ⟨opening, start, t, ht, rfl, hw⟩ := named_of_callAt h.quiet inside hnext
    have hlt := hnext.length_lt
    refine Run.ends_of_eq ht ((ends_callArguments h opening (by omega)).bind fun args t' hargs => ?_)
    unfold call
    split
    · rename_i node hnode
      have hcalls := callNode?_eq_some_iff.mp hnode
      rw [finish_of_plain h]
      refine ⟨?_, hargs.2.trans hw⟩
      rcases hargs.1 with ⟨rfl, hclose⟩ | hargs
      · exact .emptyCall hnext hclose hcalls
      · exact .call hnext hargs hcalls
    · exact ends_failAt

theorem ends_primary (hg : r.rest.length ≤ g.rounds) :
    Run.Ends (primary g inside) r (Took inside .primary r) IsSyntactic := by
  have hblanks : r.skipBlanks.rest = afterBlanks r.rest := r.rest_skipBlanks
  have hp := primary_of_quiet h.quiet inside r
  rcases hc : (afterBlanks r.rest).head? with _ | x
  · rw [hc] at hp
    exact Run.ends_of_eq hp ends_failUnexpected
  · rw [hc] at hp
    by_cases hparen : x = '('
    · simp only [hparen, if_true] at hp
      rw [hparen] at hc
      have hopen : SignAt "(" r.rest (r.skipBlanks.skip 1).rest := by
        rw [Reader.rest_skip, hblanks]
        obtain ⟨rest, hrest⟩ := List.head?_eq_some_iff.mp hc
        exact signAt_of_unextended (by decide) ⟨rest, hrest.symm⟩
      have hlt := hopen.length_lt
      refine Run.ends_of_eq hp ?_
      refine (h.descend .formula inside _ (by omega)).bind ?_
      intro inner t hinner
      refine (ends_close h _).bind ?_
      intro _ t' hclose
      rw [finish_of_plain h]
      refine ⟨.group hopen hinner.derives hclose.1, ?_⟩
      rw [hclose.2, hinner.world, Reader.world_skip, Reader.world_skipBlanks]
    · simp only [hparen, if_false] at hp
      by_cases hm : Numeral.isMantissaChar x = true
      · rw [if_pos hm] at hp
        exact Run.ends_of_eq hp (ends_numeral h hc hm)
      · rw [if_neg hm] at hp
        by_cases hn : startsName x = true
        · rw [if_pos hn] at hp
          exact Run.ends_of_eq hp (ends_named h hc hn hg)
        · rw [if_neg hn] at hp
          exact Run.ends_of_eq hp ends_failUnexpected

/-! ### Signs, powers and chains -/

theorem finishJoined_of_plain (join : Node → Node → Node) (left right : Parsed) :
    finishJoined g join left right =
      pure ⟨join left.node right.node, left.constant && right.constant⟩ :=
  finish_of_plain h _ _

theorem ends_power (hg : r.rest.length ≤ g.rounds) :
    Run.Ends (power g inside) r (Took inside .power r) IsSyntactic := by
  unfold power
  refine (ends_primary h hg).bind ?_
  intro base t hbase
  have hlt := hbase.derives.length_lt
  refine Run.ends_bind.mpr (ends_sees h.quiet (by decide) (fun t' hnext hw => ?_) ?_)
  · have hlt' := hnext.length_lt
    refine (h.descend .signed inside t' (by omega)).bind ?_
    intro exponent t'' hexp
    rw [finishJoined_of_plain h]
    exact ⟨.raised hbase.derives hnext hexp.derives, hexp.world.trans (hw.trans hbase.world)⟩
  · exact ⟨.base hbase.derives, hbase.world⟩

theorem ends_signed (hg : r.rest.length ≤ g.rounds) :
    Run.Ends (signed g inside) r (Took inside .signed r) IsSyntactic := by
  unfold signed
  refine Run.ends_bind.mpr (ends_sees h.quiet (by decide) (fun t hnext hw => ?_) ?_)
  · have hlt := hnext.length_lt
    refine (h.descend .signed inside t (by omega)).bind ?_
    intro arg t' harg
    rw [finish_of_plain h]
    exact ⟨.negative hnext harg.derives, harg.world.trans hw⟩
  · refine Run.ends_bind.mpr (ends_sees h.quiet (by decide) (fun t hnext hw => ?_) ?_)
    · have hlt := hnext.length_lt
      exact (h.descend .signed inside t (by omega)).mono
        (fun node t' hnode => ⟨.positive hnext hnode.derives, hnode.world.trans hw⟩) fun _ h => h
    · exact (ends_power h hg).mono
        (fun node t hnode => ⟨.unsigned hnode.derives, hnode.world⟩) fun _ h => h

/-- One operand more makes a shorter text, from which the chain can be derived on. -/
theorem ends_moreOperands {l : Level} (left : Parsed)
    (operand : ∀ {r : Reader σ}, r.rest.length ≤ g.rounds →
      Run.Ends (level g l.tighter inside) r (Took inside l.tighter r) IsSyntactic)
    (hg : r.rest.length ≤ g.rounds) :
    Run.Ends (moreOperands g l.operators (level g l.tighter inside) (otherwise g inside l) left) r
      (fun more t => t.world = r.world ∧
        match more with
        | some longer => t.rest.length < r.rest.length ∧ ∀ node rest,
            Derives inside (.more l longer.node node) t.rest rest →
              Derives inside (.more l left.node node) r.rest rest
        | none => t.rest = r.rest)
      IsSyntactic := by
  unfold moreOperands
  refine Run.ends_bind.mpr (ends_firstSeen h.quiet [] (longestFirst_operators l) (by simp)
    (fun sign join t hmem hnext hw => ?_) fun _ => ?_)
  · have hlt := hnext.length_lt
    refine (operand (by omega)).bind ?_
    intro right t' hright
    have hlt' := hright.derives.length_lt
    refine Run.ends_map.mpr ?_
    rw [finishJoined_of_plain h]
    exact ⟨hright.world.trans hw, by omega, fun node rest hmore =>
      .operator hmem hnext hright.derives hmore⟩
  · have hnone : Run.Ends (noMore left) r (fun more t => t.world = r.world ∧
        match more with
        | some longer => t.rest.length < r.rest.length ∧ ∀ node rest,
            Derives inside (.more l longer.node node) t.rest rest →
              Derives inside (.more l left.node node) r.rest rest
        | none => t.rest = r.rest) IsSyntactic := ⟨rfl, rfl⟩
    cases l with
    | term =>
      show Run.Ends (if _ then _ else _) _ _ _
      split
      · refine (ends_power h hg).bind fun right t hright => Run.ends_map.mpr ?_
        rw [finishJoined_of_plain h]
        exact ⟨hright.world, hright.derives.length_lt, fun node rest hmore =>
          .juxtaposed hright.derives hmore⟩
      · exact hnone
    | _ => exact hnone

/-- A chain takes operands up to where it can be derived. -/
theorem ends_chain {l : Level} (left : Parsed)
    (operand : ∀ {r : Reader σ}, r.rest.length ≤ g.rounds →
      Run.Ends (level g l.tighter inside) r (Took inside l.tighter r) IsSyntactic)
    (rounds : Nat) (hr : r.rest.length < rounds) (hg : r.rest.length ≤ g.rounds) :
    Run.Ends
      (chain (moreOperands g l.operators (level g l.tighter inside) (otherwise g inside l)) rounds
        left) r
      (fun p t => Derives inside (.more l left.node p.node) r.rest t.rest ∧ t.world = r.world)
      IsSyntactic := by
  induction rounds generalizing r left with
  | zero => omega
  | succ rounds ih =>
    unfold chain
    refine (ends_moreOperands h left operand hg).bind ?_
    intro more t hmore
    cases more with
    | none =>
      obtain ⟨hw, hrest⟩ := hmore
      exact ⟨hrest ▸ .done, hw⟩
    | some longer =>
      obtain ⟨hw, hlt, hd⟩ := hmore
      refine (ih longer (by omega) (by omega)).mono (fun p t' hp => ?_) fun _ h => h
      exact ⟨hd _ _ hp.1, hp.2.trans hw⟩

/-- Every level takes what can be derived, or fails. -/
theorem ends_level (l : Level) (hg : r.rest.length ≤ g.rounds) :
    Run.Ends (level g l inside) r (Took inside l r) IsSyntactic := by
  have hchain : ∀ {l : Level}, l.isChain = true → (∀ {r : Reader σ}, r.rest.length ≤ g.rounds →
      Run.Ends (level g l.tighter inside) r (Took inside l.tighter r) IsSyntactic) →
      ∀ {r : Reader σ}, r.rest.length ≤ g.rounds →
        Run.Ends (level g l inside) r (Took inside l r) IsSyntactic := by
    intro l hl operand r hg
    rw [level_of_chain g hl]
    refine (operand hg).bind ?_
    intro left t hleft
    have hlt := hleft.derives.length_lt
    refine (ends_chain h left operand g.rounds (by omega) (by omega)).mono (fun p t' hp => ?_)
      fun _ h => h
    exact ⟨.chain hl hleft.derives hp.1, hp.2.trans hleft.world⟩
  have hsigned : ∀ {r : Reader σ}, r.rest.length ≤ g.rounds →
      Run.Ends (level g .signed inside) r (Took inside .signed r) IsSyntactic := ends_signed h
  have hterm := @hchain .term rfl hsigned
  have hsum := @hchain .sum rfl hterm
  have hcomparison := @hchain .comparison rfl hsum
  have hconjunction := @hchain .conjunction rfl hcomparison
  have hdisjunction := @hchain .disjunction rfl hconjunction
  cases l with
  | disjunction => exact hdisjunction hg
  | conjunction => exact hconjunction hg
  | comparison => exact hcomparison hg
  | sum => exact hsum hg
  | term => exact hterm hg
  | signed => exact hsigned hg
  | power => exact ends_power h hg
  | primary => exact ends_primary h hg

end Levels

/-- What is nested is taken as it can be derived, as long as the text is shorter than the bound. -/
theorem ends_nested {host : Host σ} {options : ReadingOptions} {steps : Nat} (quiet : host.Quiet)
    (unfolded : options.foldConstants = false) (depth : Nat) (entry : Entry) (inside : Bool)
    (r : Reader σ) (hr : r.rest.length < depth) :
    Run.Ends (nested host options steps depth entry inside) r (Took inside entry.level r)
      IsSyntactic := by
  induction depth generalizing entry inside r with
  | zero => omega
  | succ depth ih =>
    have h : Plain ⟨host, options, steps, depth, nested host options steps depth⟩ :=
      ⟨quiet, unfolded, ih⟩
    cases entry with
    | formula => exact ends_level h .disjunction (by show _ ≤ depth; omega)
    | signed => exact ends_level h .signed (by show _ ≤ depth; omega)

end Formulae.Reading
