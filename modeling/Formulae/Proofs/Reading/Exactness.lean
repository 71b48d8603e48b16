import Formulae.Proofs.Reading.Completeness
import Formulae.Proofs.Reading.Soundness

/-!
# Proofs.Reading.Exactness — the texts that are read are those of the grammar

* `whole_of_formula`: a text that can be derived is read, with every subtree settled.
* `readNode_exact`: without folding, what is read is what the grammar derives, in the one way it does, and
  every other text is a fault of syntax.
-/

namespace Formulae

open Text Grammar

variable {σ : Type}

namespace Reading

variable {host : Host σ} {options : ReadingOptions} {steps depth : Nat} {r : Reader σ}

/-- Reading a whole text behind its blanks. -/
theorem whole_of_quiet (quiet : host.Quiet) (r : Reader σ) :
    whole host options steps depth r =
      if r.skipBlanks.cursor.atEnd then failHere .unexpectedEnd r.skipBlanks
      else (do
        let parsed ← nested host options steps depth .formula options.insideSummation
        skipBlanks host
        let stop ← cursor
        match stop.current with
        | some found => failHere (.trailingInput found)
        | none => pure (.finite parsed.node) : Reading σ Node) r.skipBlanks := by
  rw [whole, Run.bind_of_ok (skipBlanks_of_quiet quiet r),
    Run.bind_of_ok (t := r.skipBlanks) (a := r.skipBlanks.cursor) rfl]
  exact Run.ite_apply _ _ _

/-- A whole text is read as it can be derived, or is a fault of syntax. -/
theorem ends_whole (steps : Nat) (quiet : host.Quiet) (unfolded : options.foldConstants = false)
    (hd : r.rest.length < depth) :
    Run.Ends (whole host options steps depth) r
      (fun tree t => (∃ node, tree = .finite node ∧ Formula options.insideSummation r.rest node) ∧
        t.world = r.world) IsSyntactic := by
  have hblanks : r.skipBlanks.rest = afterBlanks r.rest := r.rest_skipBlanks
  have hlt : r.skipBlanks.rest.length < depth := by
    rw [hblanks]
    exact Nat.lt_of_le_of_lt (length_afterBlanks_le _) hd
  refine Run.ends_of_eq ((whole_of_quiet quiet r).trans (Run.ite_apply _ _ _).symm) ?_
  split
  · exact ends_failHere
  · refine (ends_nested quiet unfolded depth .formula options.insideSummation _ hlt).bind
      fun parsed t hparsed => ?_
    refine Run.ends_bind.mpr (Run.ends_of_ok (skipBlanks_of_quiet quiet t) ?_)
    refine Run.ends_bind.mpr ?_
    show Run.Ends (match t.skipBlanks.cursor.current with | some _ => _ | none => _) _ _ _
    rcases hstop : t.skipBlanks.cursor.current with _ | found
    · have hend : afterBlanks t.rest = [] := by
        have := List.head?_eq_none_iff.mp hstop
        exact t.rest_skipBlanks.symm.trans this
      have hderives := hparsed.derives
      rw [hblanks] at hderives
      exact ⟨⟨parsed.node, rfl, t.rest, hderives.of_afterBlanks, hend⟩, hparsed.world⟩
    · exact ends_failHere

/-- A text that can be derived is read, with every subtree settled. -/
theorem whole_of_formula {settle : Node → Option Node} {node node' : Node} (quiet : host.Quiet)
    (settles : Settles host options steps settle)
    (h : Formula options.insideSummation r.rest node) (hn : node.refold settle = some node')
    (hd : r.rest.length < depth) :
    ∃ t, whole host options steps depth r = some (.ok (.finite node'), t) ∧ t.world = r.world := by
  obtain ⟨rest, hderives, hend⟩ := h
  have hblanks : r.skipBlanks.rest = afterBlanks r.rest := r.rest_skipBlanks
  have hle := length_afterBlanks_le r.rest
  have hderives' : Derives options.insideSummation (.formula .disjunction node) r.skipBlanks.rest
      rest := by
    rw [hblanks]
    exact hderives.congr rfl (afterBlanks_idem _)
  obtain ⟨d, rfl⟩ : ∃ d, depth = d + 1 := ⟨depth - 1, by omega⟩
  have hread : Yields (level (setting host options steps d) .disjunction options.insideSummation)
      (parsed node') r.skipBlanks rest :=
    yields_level quiet settles hderives' (stops_of_nil hend) hn (by rw [hblanks]; omega)
  obtain ⟨x, hx, -⟩ := hderives.starts
  have hstart : r.skipBlanks.cursor.atEnd = false := by
    have hne : r.skipBlanks.rest ≠ [] := by
      rw [hblanks]
      rintro he
      rw [he] at hx
      cases hx
    exact List.isEmpty_eq_false_iff.mpr hne
  obtain ⟨t, ht, hrest, hw⟩ := hread
  refine ⟨t.skipBlanks, ?_, hw⟩
  have hstop : t.skipBlanks.cursor.current = none := by
    have : t.skipBlanks.rest = [] := by rw [Reader.rest_skipBlanks, hrest]; exact hend
    exact congrArg List.head? this
  rw [whole_of_quiet quiet, hstart, nested_succ]
  show (level _ .disjunction _ >>= _) r.skipBlanks = _
  rw [Run.bind_of_ok ht, Run.bind_of_ok (skipBlanks_of_quiet quiet t),
    Run.bind_of_ok (t := t.skipBlanks) (a := t.skipBlanks.cursor) rfl, hstop]
  rfl

/-- Without folding every node that was just built stays as it is. -/
theorem settles_some (unfolded : options.foldConstants = false) :
    Settles host options steps some := by
  intro depth node node' r hn
  obtain rfl := Option.some.inj hn
  simp [finish, setting, unfolded, parsed, Run.pure_apply]

end Reading

/-- The start of a text, which is shorter than its bound. -/
theorem length_lt_depthBound (source : String) : source.toList.length < depthBound source := by
  rw [String.length_toList, depthBound]
  omega

/-- A text of the grammar is read, with every subtree settled. -/
theorem readNode_of_formula {host : Host σ} {options : ReadingOptions} {steps : Nat}
    {settle : Node → Option Node} {source : String} {node node' : Node} (quiet : host.Quiet)
    (settles : Reading.Settles host options steps settle)
    (h : Formula options.insideSummation source.toList node)
    (hn : node.refold settle = some node') (world : σ) :
    readNode host options steps source world = some (.ok (.finite node'), world) := by
  obtain ⟨t, ht, hw⟩ := Reading.whole_of_formula (r := ⟨Cursor.start source, world⟩) quiet settles
    h hn (length_lt_depthBound source)
  rw [readNode, ht]
  exact congrArg (fun w => some (_, w)) hw

/-- A text is derived as one tree at most. -/
theorem Grammar.Formula.unique {inside : Bool} {text : List Char} {node node' : Node}
    (h : Formula inside text node) (h' : Formula inside text node') : node = node' := by
  have hread : ∀ node, Formula inside text node →
      readNode Host.idle ⟨inside, false, {}⟩ 0 (String.ofList text) () =
        some (.ok (.finite node), ()) := by
    intro node h
    rw [← String.toList_ofList (l := text)] at h
    have settles : Reading.Settles Host.idle ⟨inside, false, {}⟩ 0 some := Reading.settles_some rfl
    exact readNode_of_formula Host.quiet_idle settles h node.refold_some ()
  have := (hread node h).symm.trans (hread node' h')
  simpa using this

/-- The reading of a whole text is the end of the reading from its start. -/
theorem ends_readNode {host : Host σ} {options : ReadingOptions} {steps : Nat} {source : String}
    {world : σ} {post : Node → σ → Prop} {fails : Fault → Prop}
    (h : Run.Ends (Reading.whole host options steps (depthBound source)) ⟨Cursor.start source, world⟩
      (fun tree t => post tree t.world) fails) :
    Run.Ends (readNode host options steps source) world post fails := by
  unfold Run.Ends at h ⊢
  unfold readNode
  rcases hrun : Reading.whole host options steps (depthBound source) ⟨Cursor.start source, world⟩
    with _ | ⟨fault | tree, t⟩ <;> rw [hrun] at h
  · exact h
  · exact h
  · exact h

/-- Without folding, a text that is read can be derived, and any other is a fault of syntax. -/
theorem readNode_ends {host : Host σ} (quiet : host.Quiet) {options : ReadingOptions}
    (unfolded : options.foldConstants = false) (steps : Nat) (source : String) (world : σ) :
    Run.Ends (readNode host options steps source) world
      (fun tree after => (∃ node, tree = .finite node ∧
        Formula options.insideSummation source.toList node) ∧ after = world)
      Reading.IsSyntactic :=
  ends_readNode (Reading.ends_whole (r := ⟨Cursor.start source, world⟩) steps quiet unfolded
    (length_lt_depthBound source))

/-- Without folding, what is read is exactly what the grammar derives; the tree is unique, and every text
that the grammar does not derive is a fault of syntax. -/
theorem readNode_exact {host : Host σ} (quiet : host.Quiet) (options : ReadingOptions)
    (unfolded : options.foldConstants = false) (steps : Nat) (source : String) (world : σ) :
    (∀ tree, readNode host options steps source world = some (.ok tree, world) ↔
      ∃ node, tree = .finite node ∧ Formula options.insideSummation source.toList node) ∧
    (∀ node node', Formula options.insideSummation source.toList node →
      Formula options.insideSummation source.toList node' → node = node') ∧
    ((∀ node, ¬ Formula options.insideSummation source.toList node) →
      ∃ fault after, readNode host options steps source world =
        some (.error (.syntactic fault), after)) := by
  have hread : ∀ node, Formula options.insideSummation source.toList node →
      readNode host options steps source world = some (.ok (.finite node), world) := fun node h =>
    readNode_of_formula quiet (Reading.settles_some unfolded) h node.refold_some world
  have hends := readNode_ends quiet unfolded steps source world
  refine ⟨fun tree => ⟨fun h => ?_, ?_⟩, fun node node' h h' => h.unique h', fun hnone => ?_⟩
  · exact ((Run.ends_iff_of_ok h).mp hends).1
  · rintro ⟨node, rfl, h⟩
    exact hread node h
  · unfold Run.Ends at hends
    split at hends
    · obtain ⟨⟨node, -, h⟩, -⟩ := hends
      exact absurd h (hnone node)
    · rename_i fault after hfault
      obtain ⟨cause, rfl⟩ := hends
      exact ⟨cause, after, hfault⟩
    · exact hends.elim

/-- A difference whose second term is a product without a sign between its factors. -/
theorem readNode_exact_difference :
    (Deadline.host ⟨1000, none⟩).Quiet ∧
      Formula false "a - b c".toList (.binary .sub (.reference "a" false)
        (.binary .mul (.reference "b" false) (.reference "c" false))) := by
  have quiet := Deadline.quiet_host 1000 (by decide)
  obtain ⟨hread, -, -⟩ := readNode_exact quiet { foldConstants := false } rfl 0 "a - b c"
    (World.start 0)
  obtain ⟨node, hnode, h⟩ := (hread (.finite (.binary .sub (.reference "a" false)
    (.binary .mul (.reference "b" false) (.reference "c" false))))).mp
    (by decide +kernel)
  cases hnode
  exact ⟨quiet, h⟩

end Formulae
