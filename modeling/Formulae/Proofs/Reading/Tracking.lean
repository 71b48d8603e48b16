import Formulae.Proofs.Evaluation.Tracking
import Formulae.Proofs.Reading.Congruence

/-!
# Proofs.Reading.Tracking — a reading seen with less of its world

* `Run.Along`: what one run does, another one does to the state as it looks through a function, unless the
  first one ends in a way that parts them.
* `carries_along`: readings under hosts that go along do so too.
* `readNode_along`: where a function from worlds to worlds goes with hosts, it goes with the reading of a
  text, folding included.
-/

namespace Formulae

variable {σ τ α β : Type}

/-- What `x` does, `y` does to the state as it looks through `f`, up to `rel` between the values. Nothing is
said of an end that `parts` names, where `none` stands for a run that is cut short. -/
def Run.Along (f : τ → σ) (parts : Option Fault → Prop) (rel : α → β → Prop) (x : Run τ α)
    (y : Run σ β) : Prop :=
  ∀ s, match x s with
    | some (.ok a, t) => ∃ b, y (f s) = some (.ok b, f t) ∧ rel a b
    | some (.error fault, t) => parts (some fault) ∨ y (f s) = some (.error fault, f t)
    | none => parts none ∨ y (f s) = none

theorem Run.Along.bind {γ δ : Type} {f : τ → σ} {parts : Option Fault → Prop} {rel : α → β → Prop}
    {rel' : γ → δ → Prop} {x : Run τ α} {y : Run σ β} {k : α → Run τ γ} {k' : β → Run σ δ}
    (h : Run.Along f parts rel x y) (hk : ∀ a b, rel a b → Run.Along f parts rel' (k a) (k' b)) :
    Run.Along f parts rel' (x >>= k) (y >>= k') := by
  intro s
  have hs := h s
  rw [Run.bind_apply]
  rcases hx : x s with _ | ⟨fault | a, t⟩
  · rw [hx] at hs
    exact hs.imp_right Run.bind_of_none
  · rw [hx] at hs
    exact hs.imp_right Run.bind_of_error
  · rw [hx] at hs
    obtain ⟨b, hy, hab⟩ := hs
    rw [Run.bind_of_ok hy]
    exact hk a b hab t

/-- The reader in the world as it looks. -/
def Reader.along (f : τ → σ) (r : Reader τ) : Reader σ :=
  ⟨r.cursor, f r.world⟩

namespace Reading

/-- A poll of the one host is a poll of the other one, unless it parts them. -/
def PollsAlong (f : τ → σ) (parts : Option Fault → Prop) (host : Host τ) (host' : Host σ) : Prop :=
  ∀ w, (∃ cancelled, (host.poll w).1 = some cancelled ∧ parts (some (.interrupted cancelled))) ∨
    host'.poll (f w) = ((host.poll w).1, f (host.poll w).2)

section Along

variable {f : τ → σ} {parts : Option Fault → Prop} {host : Host τ} {host' : Host σ}

theorem along_advance (h : PollsAlong f parts host host') :
    Run.Along (Reader.along f) parts Eq (advance host) (advance host') := by
  have hpoll : Run.Along (Reader.along f) parts Eq (poll host) (poll host') := by
    intro r
    have hworld : (r.along f).world = f r.world := rfl
    unfold poll
    rw [hworld]
    rcases h r.world with ⟨cancelled, hstop, hparts⟩ | hsame
    · rcases hrun : host.poll r.world with ⟨stop, w⟩
      rw [hrun] at hstop
      obtain rfl : stop = some cancelled := hstop
      exact .inl hparts
    · rw [hsame]
      rcases host.poll r.world with ⟨_ | cancelled, w⟩
      · exact ⟨(), rfl, rfl⟩
      · exact .inr rfl
  exact hpoll.bind fun _ _ _ r => ⟨(), rfl, rfl⟩

theorem carries_along (h : PollsAlong f parts host host') :
    Carries host host' (Run.Along (Reader.along f) parts) where
  pure hab := fun _ => ⟨_, rfl, hab⟩
  bind hx hf := hx.bind hf
  fail _ _ := fun _ => .inr rfl
  exhausted _ := fun _ => .inr rfl
  cursor := fun r => ⟨r.cursor, rfl, rfl⟩
  moveTo _ := fun _ => ⟨(), rfl, rfl⟩
  advance := along_advance h

end Along

/-! ### The same reading in two worlds -/

/-- A node is folded in the same way if it comes to the same. -/
theorem along_fold {f : τ → σ} {host : Host τ} {host' : Host σ} {steps : Nat} {limits : Limits} {node : Node}
    (h : ∀ w, evaluateFresh host' Source.none steps limits node (f w) =
      (evaluateFresh host Source.none steps limits node w).map fun r => (r.1, f r.2)) :
    Run.Along (Reader.along f) (fun _ => False) Eq (fold host steps limits node)
      (fold host' steps limits node) := by
  intro r
  have hworld : (r.along f).world = f r.world := rfl
  unfold fold
  cases node.isLiteral with
  | true => exact ⟨node, rfl, rfl⟩
  | false =>
    simp only [Bool.false_eq_true, if_false, hworld]
    rw [h r.world]
    rcases evaluateFresh host Source.none steps limits node r.world with _ | ⟨fault | value, w⟩
    · exact .inr rfl
    · cases fault with
      | interrupted cancelled => exact .inr rfl
      | _ => exact ⟨node, rfl, rfl⟩
    · exact ⟨_, rfl, rfl⟩

section Same

variable {f : τ → σ} {host : Host τ} {host' : Host σ} {options : ReadingOptions}
  (h : (View.along f options.limits).Hosts host host')
include h

theorem pollsAlong_of_hosts : PollsAlong f (fun _ => False) host host' :=
  fun w => .inr (h.poll w trivial).2

/-- A node that was just built is treated in the same way. -/
theorem along_finish {g : Setting τ} {g' : Setting σ} (hg : g.host = host) (hg' : g'.host = host')
    (hoptions : g.options = options) (hoptions' : g'.options = options) (hsteps : g'.steps = g.steps)
    (node : Node) (constant : Bool) :
    Run.Along (Reader.along f) (fun _ => False) Eq (finish g node constant)
      (finish g' node constant) := by
  have hsource : (View.along f options.limits).Sources Source.none Source.none :=
    fun _ _ _ => .inr ⟨trivial, rfl⟩
  have hfold : Run.Along (Reader.along f) (fun _ => False) Eq (fold host g.steps options.limits node)
      (fold host' g.steps options.limits node) :=
    along_fold (View.evaluateFresh_along f h hsource g.steps node)
  unfold finish
  rw [hg, hg', hoptions, hoptions', hsteps]
  cases constant && options.foldConstants with
  | true => exact hfold.bind fun _ _ hn => hn ▸ fun _ => ⟨_, rfl, rfl⟩
  | false => exact fun _ => ⟨_, rfl, rfl⟩

/-- A function that goes with the hosts goes with the reading of a text. -/
theorem readNode_along (steps : Nat) (source : String) (w : τ) :
    readNode host' options steps source (f w) =
      (readNode host options steps source w).map fun r => (r.1, f r.2) := by
  have hwhole : Run.Along (Reader.along f) (fun _ => False) Eq
      (whole host options steps (depthBound source)) (whole host' options steps (depthBound source)) :=
    whole_related_of_finish (carries_along (pollsAlong_of_hosts h)) rfl
      (fun hg ho hs hg' ho' hs' => along_finish h hg hg' ho ho' (hs'.trans hs.symm)) _
  have hrun := hwhole ⟨Cursor.start source, w⟩
  have hstart : Reader.along f ⟨Cursor.start source, w⟩ = ⟨Cursor.start source, f w⟩ := rfl
  rw [hstart] at hrun
  rw [readNode_eq_map, readNode_eq_map]
  rcases hx : whole host options steps (depthBound source) ⟨Cursor.start source, w⟩ with
    _ | ⟨fault | tree, r⟩
  · rw [hx] at hrun
    rw [hrun.resolve_left id]
    rfl
  · rw [hx] at hrun
    rw [hrun.resolve_left id]
    rfl
  · rw [hx] at hrun
    obtain ⟨_, hy, rfl⟩ := hrun
    rw [hy]
    rfl

end Same

end Reading

end Formulae
