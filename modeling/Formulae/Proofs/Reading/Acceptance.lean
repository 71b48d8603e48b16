import Formulae.Proofs.Reading.Exactness
import Formulae.Proofs.Reading.Faults
import Formulae.Proofs.Reading.Tracking

/-!
# Proofs.Reading.Acceptance — every text that is read is a formula

A host can stop a reading and fail to fold a subtree, but it cannot make a reading accept another text:
whatever is read under any host and any options is read under the idle host without folding, too, and so it
is derived by the grammar.

* `Plainly`: a subtree and what it is without folding.
* `relates_plainly`: the reading under the idle host goes along with the other one.
* `exists_formula_of_readNode`: the whole text.
-/

namespace Formulae

open Grammar

variable {σ : Type}

namespace Reading

/-- Without folding, both subtrees are the same. -/
def Plainly (options : ReadingOptions) (p q : Parsed) : Prop :=
  options.foldConstants = false → p.node = q.node

/-- Where the first reading comes to a value, the second one does so in the idle world, at the same place. -/
def Idly {α β : Type} (rel : α → β → Prop) (x : Reading σ α) (y : Reading Unit β) : Prop :=
  Run.Along (Reader.along fun _ => ()) (fun _ => True) rel x y

theorem carries_idly (host : Host σ) : Carries host Host.idle Idly := by
  show Carries host Host.idle (Run.Along (Reader.along fun _ => ()) fun _ => True)
  refine carries_along fun w => ?_
  rcases hpoll : host.poll w with ⟨_ | cancelled, after⟩
  · exact .inr rfl
  · exact .inl ⟨cancelled, rfl, trivial⟩

section Relates

variable {options : ReadingOptions} {g : Setting σ} {g' : Setting Unit}

theorem idly_finish (hoptions : g.options = options) (plain : g'.options.foldConstants = false)
    {node node' : Node} {constant constant' : Bool} (h : options.foldConstants = false → node = node') :
    Idly (Plainly options) (finish g node constant) (finish g' node' constant') := by
  intro r
  have hstill : Run.Meets (finish g node constant) r (fun _ t => t.cursor = r.cursor) fun _ => True :=
    meets_finish (fun _ => trivial) r node constant
  unfold Run.Meets at hstill
  rcases hrun : finish g node constant r with _ | ⟨fault | p, t⟩
  · exact .inl trivial
  · exact .inl trivial
  · rw [hrun] at hstill
    have hsame : Reader.along (fun _ => ()) t = Reader.along (fun _ => ()) r := by
      rw [Reader.along, hstill]
      rfl
    refine ⟨⟨node', constant'⟩, ?_, fun unfolded => ?_⟩
    · rw [hsame]
      simp [finish, plain, Run.pure_apply]
    · have hkept : finish g node constant r = some (.ok ⟨node, constant⟩, r) := by
        simp [finish, hoptions, unfolded, Run.pure_apply]
      rw [hkept] at hrun
      cases hrun
      exact h unfolded

theorem idly_call (hoptions : g.options = options) (plain : g'.options.foldConstants = false)
    (name : String) (start : Nat) {ps qs : List Parsed} (hargs : List.Forall₂ (Plainly options) ps qs) :
    Idly (Plainly options) (call g name ps start) (call g' name qs start) := by
  have hlen : (ps.map Parsed.node).length = (qs.map Parsed.node).length := by
    rw [List.length_map, List.length_map, hargs.length_eq]
  unfold call
  rcases hp : callNode? name (ps.map Parsed.node) with _ | node
  · rw [callNode?_eq_none hp hlen, hargs.length_eq]
    exact (carries_idly g.host).failAt _ _
  · rcases hq : callNode? name (qs.map Parsed.node) with _ | node'
    · rw [callNode?_eq_none hq hlen.symm] at hp
      cases hp
    · refine idly_finish hoptions plain fun unfolded => ?_
      have hsame : List.Forall₂ Eq (ps.map Parsed.node) (qs.map Parsed.node) :=
        List.forall₂_map_left_iff.mpr (List.forall₂_map_right_iff.mpr
          (hargs.imp fun _ _ hpq => hpq unfolded))
      rw [List.forall₂_eq_eq_eq] at hsame
      rw [hsame, hq] at hp
      exact (Option.some.inj hp).symm

/-- The idle host goes along with everything that is built. -/
theorem relates_plainly (hoptions : g.options = options) (plain : g'.options.foldConstants = false)
    (host : g'.host = Host.idle) (rounds : g'.rounds = g.rounds)
    (descend : ∀ entry inside, Idly (Plainly options) (g.descend entry inside) (g'.descend entry inside)) :
    Relates (Plainly options) g g' Idly where
  toCarries := host ▸ carries_idly g.host
  rounds := .inl rounds.symm
  descend := descend
  number _ := fun _ => rfl
  reference _ _ := fun _ => rfl
  call name start _ _ := idly_call hoptions plain name start
  paren hpq := idly_finish hoptions plain fun unfolded => by rw [hpq unfolded]
  neg hpq := idly_finish hoptions plain fun unfolded => by rw [hpq unfolded]
  joined _ hpq hpq' := idly_finish hoptions plain fun unfolded => by rw [hpq unfolded, hpq' unfolded]

theorem whole_idly (host : Host σ) (options : ReadingOptions) (steps depth : Nat) :
    Idly (fun tree tree' => options.foldConstants = false → tree = tree') (whole host options steps depth)
      (whole Host.idle { options with foldConstants := false } 0 depth) := by
  have hnested : ∀ entry inside, Idly (Plainly options) (nested host options steps depth entry inside)
      (nested Host.idle { options with foldConstants := false } 0 depth entry inside) := by
    refine nested_related (carries_idly host).toSequences (fun depth hdescend => ?_) depth
    suffices h : Relates (Plainly options)
        ⟨host, options, steps, depth, nested host options steps depth⟩
        ⟨Host.idle, { options with foldConstants := false }, 0, depth,
          nested Host.idle { options with foldConstants := false } 0 depth⟩ Idly from h.chains
    exact relates_plainly rfl rfl rfl rfl hdescend
  have hinside : ({ options with foldConstants := false } : ReadingOptions).insideSummation =
      options.insideSummation := rfl
  refine whole_related (carries_idly host) hinside (hnested .formula options.insideSummation) ?_
  intro p q hpq unfolded
  rw [hpq unfolded]

end Relates

end Reading

/-- Whatever the host does and however a text is read, the grammar derives it; without folding, the tree is
the one that is derived. -/
theorem exists_formula_of_readNode {host : Host σ} {options : ReadingOptions} {steps : Nat}
    {source : String} {world after : σ} {tree : Node}
    (h : readNode host options steps source world = some (.ok tree, after)) :
    ∃ node, Formula options.insideSummation source.toList node ∧
      (options.foldConstants = false → tree = .finite node) := by
  rw [Reading.readNode_eq_map] at h
  obtain ⟨⟨outcome, r⟩, hwhole, hsame⟩ := Option.map_eq_some_iff.mp h
  obtain ⟨rfl, -⟩ := Prod.mk.inj hsame
  have hidly := Reading.whole_idly host options steps (depthBound source) ⟨Cursor.start source, world⟩
  rw [hwhole] at hidly
  obtain ⟨tree', hwhole', htree⟩ := hidly
  have hread : readNode Host.idle { options with foldConstants := false } 0 source () =
      some (.ok tree', ()) := by
    rw [Reading.readNode_eq_map]
    exact congrArg (Option.map _) hwhole'
  obtain ⟨⟨node, rfl, hformula⟩, -⟩ :=
    (Run.ends_iff_of_ok hread).mp (readNode_ends Host.quiet_idle rfl 0 source ())
  exact ⟨node, hformula, htree⟩

end Formulae
