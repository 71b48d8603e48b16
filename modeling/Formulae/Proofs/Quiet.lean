import Formulae.Evaluation.Context

/-!
# Proofs.Quiet — hosts that never stop a run

* `Host.Quiet`: every poll goes on and leaves the world as it is, as a deadline does that never passes.
* `Host.idle`: the quiet host of a world without anything in it.
-/

namespace Formulae

variable {σ : Type}

/-- The host never stops a run, and polling it changes nothing. -/
def Host.Quiet (host : Host σ) : Prop :=
  ∀ world, host.poll world = (none, world)

theorem Host.Quiet.onSecond {host : Host σ} (quiet : host.Quiet) (τ : Type) :
    (host.onSecond τ).Quiet := by
  rintro ⟨t, world⟩
  simp [Host.onSecond, quiet world]

theorem Deadline.quiet_host (milliseconds : Nat) (h : milliseconds ≠ 0) :
    (Deadline.host ⟨milliseconds, none⟩).Quiet := by
  intro world
  simp [Deadline.host, Deadline.stop, h]

/-- The host of the empty world. -/
def Host.idle : Host Unit where
  poll world := (none, world)
  random world := (0.0, world)

theorem Host.quiet_idle : Host.idle.Quiet := fun _ => rfl

theorem Evaluation.poll_of_quiet {host : Host σ} (quiet : host.Quiet) (ctx : Context σ) :
    Evaluation.poll host ctx = some (.ok (), ctx) := by
  simp [Evaluation.poll, quiet ctx.world]

end Formulae
