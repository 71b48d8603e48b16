import Formulae.Proofs.Interruption.Transparency
import Formulae.Proofs.Reading.Finiteness

/-!
# Proofs.Interruption.Idleness — what is read is what the idle host reads

A host can end a reading, and it answers polls along the way; it does not decide what is read. The random
numbers that it draws do not come into it, since no subtree that draws them is folded.

* `evaluateFresh_idle`: a constant subtree under a host whose polls all pass.
* `Alike`: the same subtree, with the flag that tells whether it is constant.
* `readNode_idle`: the tree of a text, under any host.
-/

namespace Formulae

open Grammar

variable {σ : Type}

/-- The host never stops a run, whatever its polls do to the world. -/
def Host.Passes (host : Host σ) : Prop :=
  ∀ world, (host.poll world).1 = none

/-- Without bindings, a constant tree comes to what it comes to under the idle host. -/
theorem evaluateFresh_idle {host : Host σ} (passes : host.Passes) (steps : Nat) (limits : Limits) {node : Node}
    (hconstant : node.isConstant = true) (world : σ) :
    evaluateFresh Host.idle Source.none steps limits node () =
      (evaluateFresh host Source.none steps limits node world).map fun r => (r.1, ()) := by
  -- the idle host draws zeros, so let the other one draw them as well
  let still : Host σ := { host with random := fun world => (0.0, world) }
  have hclosed : node.isClosed = true := node.isConstant_eq_isClosed ▸ hconstant
  have hstill : evaluateFresh still Source.none steps limits node world =
      evaluateFresh host Source.none steps limits node world := by
    have hpoll : still.poll = host.poll := rfl
    rw [evaluateFresh_eq_map, evaluateFresh_eq_map, evaluate_eq_of_poll hpoll steps hclosed]
  have hhost : (View.along (fun _ => ()) limits).Hosts still Host.idle :=
    ⟨fun w _ => ⟨trivial, Prod.ext (passes w).symm rfl⟩, fun _ _ => ⟨trivial, rfl⟩⟩
  have hsource : (View.along (fun _ : σ => ()) limits).Sources Source.none Source.none :=
    fun _ _ _ => .inr ⟨trivial, rfl⟩
  rw [← hstill]
  exact View.evaluateFresh_along (fun _ => ()) hhost hsource steps node world

namespace Reading

/-- What the first reading does, the second one does in the idle world. -/
def Idles {α β : Type} (rel : α → β → Prop) (x : Reading σ α) (y : Reading Unit β) : Prop :=
  Run.Along (Reader.along fun _ => ()) (fun _ => False) rel x y

theorem carries_idles {host : Host σ} (passes : host.Passes) : Carries host Host.idle Idles := by
  show Carries host Host.idle (Run.Along (Reader.along fun _ => ()) fun _ => False)
  exact carries_along fun w => .inr (Prod.ext (passes w).symm rfl)

/-- The subtrees are the same one, and its flag tells whether it is constant. -/
def Alike (p q : Parsed) : Prop :=
  q = p ∧ Sound (fun _ => True) p

/-- Where both readings yield the same and the first one only what is sound, they yield the same that is. -/
theorem Idles.alike {x : Reading σ Parsed} {y : Reading Unit Parsed} (h : Idles Eq x y)
    (sound : YieldsOnly (fun p _ => Sound (fun _ => True) p) x x) : Idles Alike x y := by
  intro r
  have hsame := h r
  have hsound := sound r
  unfold Run.Meets at hsound
  rcases hx : x r with _ | ⟨fault | p, t⟩
  · rw [hx] at hsame
    exact hsame
  · rw [hx] at hsame
    exact hsame
  · rw [hx] at hsame hsound
    obtain ⟨_, hy, rfl⟩ := hsame
    exact ⟨p, hy, rfl, hsound.choose_spec⟩

section Relates

variable {g : Setting σ} {g' : Setting Unit} (passes : g.host.Passes) (host : g'.host = Host.idle)
  (options : g'.options = g.options) (steps : g'.steps = g.steps)

include passes host options steps

theorem idles_finish {node : Node} {constant : Bool} (sound : Sound (fun _ => True) ⟨node, constant⟩) :
    Idles Alike (finish g node constant) (finish g' node constant) := by
  refine Idles.alike ?_ (yieldsOnly_finish (makes_any g) sound)
  unfold finish
  rw [host, options, steps]
  rcases hboth : constant && g.options.foldConstants with _ | _
  · exact (carries_idles passes).pure rfl
  · obtain ⟨hconstant, -⟩ := (Bool.and_eq_true _ _).mp hboth
    have heval := evaluateFresh_idle passes g.steps g.options.limits (sound.constant.symm.trans hconstant)
    have hfold : Idles Eq (fold g.host g.steps g.options.limits node)
        (fold Host.idle g.steps g.options.limits node) :=
      along_fold heval
    exact (carries_idles passes).toSequences.bind_same hfold fun _ => (carries_idles passes).pure rfl

theorem idles_call (name : String) (start : Nat) {ps qs : List Parsed} (hargs : List.Forall₂ Alike ps qs) :
    Idles Alike (call g name ps start) (call g' name qs start) := by
  obtain ⟨rfl, hps⟩ : qs = ps ∧ ∀ p ∈ ps, Sound (fun _ => True) p := by
    induction hargs with
    | nil => exact ⟨rfl, nofun⟩
    | cons hpq _ ih =>
      obtain ⟨rfl, hp⟩ := hpq
      obtain ⟨rfl, hps⟩ := ih
      exact ⟨rfl, List.forall_mem_cons.mpr ⟨hp, hps⟩⟩
  unfold call
  rcases hnode : callNode? name (qs.map Parsed.node) with _ | node
  · exact (carries_idles passes).failAt _ _
  · exact idles_finish passes host options steps (.call hnode hps)

theorem relates_alike (rounds : g'.rounds = g.rounds)
    (descend : ∀ entry inside, Idles Alike (g.descend entry inside) (g'.descend entry inside)) :
    Relates Alike g g' Idles where
  toCarries := host ▸ carries_idles passes
  rounds := .inl rounds.symm
  descend := descend
  number _ := ⟨rfl, trivial, (Node.isConstant_number _).symm⟩
  reference name inside := ⟨rfl, sound_reference (makes_any g) name inside⟩
  call name start _ _ := idles_call passes host options steps name start
  paren := by
    rintro p _ ⟨rfl, hp⟩
    exact idles_finish passes host options steps (hp.unary .paren)
  neg := by
    rintro p _ ⟨rfl, hp⟩
    exact idles_finish passes host options steps (hp.unary .neg)
  joined := by
    rintro join p _ p' _ joins ⟨rfl, hp⟩ ⟨rfl, hp'⟩
    exact idles_finish passes host options steps (hp.joined joins hp')

end Relates

theorem whole_idles {host : Host σ} (passes : host.Passes) (options : ReadingOptions) (steps depth : Nat) :
    Idles Eq (whole host options steps depth) (whole Host.idle options steps depth) := by
  have hnested : ∀ entry inside, Idles Alike (nested host options steps depth entry inside)
      (nested Host.idle options steps depth entry inside) := by
    refine nested_related (carries_idles passes).toSequences (fun depth hdescend => ?_) depth
    suffices h : Relates Alike ⟨host, options, steps, depth, nested host options steps depth⟩
        ⟨Host.idle, options, steps, depth, nested Host.idle options steps depth⟩ Idles from h.chains
    exact relates_alike passes rfl rfl rfl rfl hdescend
  refine whole_related (carries_idles passes) rfl (hnested .formula options.insideSummation) ?_
  rintro p _ ⟨rfl, -⟩
  rfl

end Reading

/-- Whatever the host does, the tree that it lets a text be read as, folded or not, is the one that the idle
host reads. -/
theorem readNode_idle {host : Host σ} {options : ReadingOptions} {steps : Nat} {source : String}
    {world after : σ} {tree : Node}
    (h : readNode host options steps source world = some (.ok tree, after)) :
    readNode Host.idle options steps source () = some (.ok tree, ()) := by
  -- the polls that were answered have passed, so the host whose polls all pass reads the same
  rw [readNode_logged host options steps source [] world] at h
  obtain ⟨⟨outcome, last⟩, hlogged, heq⟩ := Option.map_eq_some_iff.mp h
  obtain ⟨rfl, -⟩ := Prod.mk.inj heq
  have hcut := Reading.cut_readNode host.logs_logged options steps source ([], world)
  rw [hlogged] at hcut
  obtain ⟨-, -, -, _, hpassing, rfl⟩ := hcut
  have passes : host.passing.logged.Passes := fun _ => rfl
  have hidle := Reading.whole_idles passes options steps (depthBound source)
    ⟨Cursor.start source, ([], world)⟩
  rw [Reading.readNode_eq_map] at hpassing ⊢
  obtain ⟨⟨outcome, r⟩, hwhole, heq⟩ := Option.map_eq_some_iff.mp hpassing
  obtain ⟨rfl, -⟩ := Prod.mk.inj heq
  rw [hwhole] at hidle
  obtain ⟨_, hread, rfl⟩ := hidle
  exact congrArg (Option.map _) hread

end Formulae
