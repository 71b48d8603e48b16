import Formulae.Proofs.Equation.Agreement
import Formulae.Proofs.Quiet
import Formulae.Proofs.Reading.Exactness

/-!
# Proofs.Relaxation — limits only cut runs off

Under higher limits a run takes the same steps as under lower ones, until the lower ones refuse a name or a
summation. So a run that does not end there comes to the same under the higher limits, with the same values
read in the same order.

* `Limits.CutsOff`: the faults of limits that were reached.
* `Limits.OnlyCuts`: one run ends in such a fault, or the other one is the same.
* `Limits.only_cut_off`: formulas under any source of bindings, and equations.
-/

namespace Formulae

variable {σ : Type}

/-- The fault says that one of the limits was reached. -/
def Limits.CutsOff (l : Limits) (fault : Fault) : Prop :=
  (∃ name, fault = .domain (.recursiveVariable name l.substitutions)) ∨
    ∃ length, fault = .domain (.summationTooLong length l.iterations)

/-- In every world the first run ends because a limit was reached, or the second one comes to the same value
or fault and leaves the same world. -/
def Limits.OnlyCuts (l : Limits) (lower higher : Run σ Float) : Prop :=
  ∀ world, (∃ fault after, l.CutsOff fault ∧ lower world = some (.error fault, after)) ∨
    higher world = lower world

/-- The equation with other limits for its evaluation. -/
def Equation.under (e : Equation σ) (limits : Limits) : Equation σ :=
  { e with expression := { e.expression with limits } }

section Relaxed

variable {l l' : Limits}

/-- What a run looks like under higher limits, until the lower ones are reached. -/
def View.relaxed (σ : Type) (h : l.Within l') : View σ σ where
  world := id
  limits := l
  limits' := l'
  valid _ := True
  exits := l.CutsOff
  iterations := .inr ⟨h, fun length => .inr ⟨length, rfl⟩⟩
  refused := .inr ⟨h.substitutions, fun name => .inl ⟨name, rfl⟩⟩

theorem evaluateFresh_relaxed (h : l.Within l') (host : Host σ) (source : Source σ) (steps : Nat)
    (node : Node) :
    l.OnlyCuts (evaluateFresh host source steps l node) (evaluateFresh host source steps l' node) := by
  intro world
  have hhosts : (View.relaxed σ h).Hosts host host :=
    ⟨fun _ _ => ⟨trivial, rfl⟩, fun _ _ => ⟨trivial, rfl⟩⟩
  have hsources : (View.relaxed σ h).Sources source source := fun _ _ _ => .inr ⟨trivial, rfl⟩
  refine (View.evaluateFresh_cases hhosts hsources steps node (w := world) trivial).imp_right ?_
  intro hsame
  refine hsame.trans ?_
  rcases hrun : evaluateFresh host source steps l node world with _ | ⟨outcome, after⟩
  · exact congrArg _ hrun
  · exact congrArg _ hrun

theorem Limits.OnlyCuts.of_valid {e : Expression} {host : Host σ} {source : Source σ} {steps : Nat}
    (h : l.OnlyCuts (e.evaluateUnder l host source steps) (e.evaluateUnder l' host source steps))
    (hl : l.validate = .ok l) (hl' : l'.validate = .ok l') :
    l.OnlyCuts (e.evaluateChecked l host source steps) (e.evaluateChecked l' host source steps) := by
  have hchecked : ∀ {limits : Limits}, limits.validate = .ok limits →
      e.evaluateChecked limits host source steps = e.evaluateUnder limits host source steps := by
    intro limits hvalid
    unfold Expression.evaluateChecked
    rw [hvalid]
    rfl
  rw [hchecked hl, hchecked hl']
  exact h

theorem Equation.evaluate_under (e : Equation σ) (limits : Limits) (host : Host σ) (steps : Nat) :
    (e.under limits).evaluate host steps = fun world =>
      (evaluateFresh (host.onSecond Tally) e.source steps limits e.expression.root
        (Tally.empty, world)).map fun r => (r.1, r.2.2) :=
  funext fun world => (e.under limits).evaluate_eq_map host steps world

end Relaxed

/-- Limits only cut runs off. Let other limits allow at least as many resolutions of a name and summations at
least as long. Whatever a formula comes to under any bindings, or an equation, that is not the fault of a
limit that was reached: under the other limits it comes to the same value or fault, in the same steps, and
in the same world, which every supplier that was asked has changed. Limits in their range that are given to
an evaluation do the same. -/
theorem Limits.only_cut_off {l l' : Limits} (h : l.Within l') (host : Host σ) (steps : Nat) :
    (∀ (e : Expression) (source : Source σ),
      l.OnlyCuts (e.evaluateUnder l host source steps) (e.evaluateUnder l' host source steps) ∧
      (l.validate = .ok l → l'.validate = .ok l' →
        l.OnlyCuts (e.evaluateChecked l host source steps)
          (e.evaluateChecked l' host source steps))) ∧
    ∀ e : Equation σ,
      l.OnlyCuts ((e.under l).evaluate host steps) ((e.under l').evaluate host steps) := by
  refine ⟨fun e source => ?_, fun e => ?_⟩
  · have hunder := evaluateFresh_relaxed h host source steps e.root
    exact ⟨hunder, hunder.of_valid⟩
  · intro world
    rw [e.evaluate_under, e.evaluate_under]
    -- the counts of the equation lie beside its world
    rcases evaluateFresh_relaxed h (host.onSecond Tally) e.source steps e.expression.root
      (Tally.empty, world) with ⟨fault, after, hcut, hrun⟩ | hsame
    · exact .inl ⟨fault, after.2, hcut, congrArg _ hrun⟩
    · exact .inr (congrArg _ hsame)

/-- A sum over three names is not cut off by limits of two resolutions and three iterations, so it is the same
under five resolutions and any number of iterations. -/
theorem Limits.only_cut_off_sum :
    (⟨2, 3⟩ : Limits).Within ⟨5, 0⟩ ∧
      (⟨"sum(1, 3, n)", .finite (.summation (.number 1.0) (.number 3.0) (.reference "n" true)), {}⟩ :
        Expression).evaluateUnder ⟨5, 0⟩ Host.idle Source.none 9 () = some (.ok 6.0, ()) := by
  have hwithin : (⟨2, 3⟩ : Limits).Within ⟨5, 0⟩ := ⟨by decide, .inl rfl⟩
  refine ⟨hwithin, ?_⟩
  have hlower : (⟨"sum(1, 3, n)", .finite (.summation (.number 1.0) (.number 3.0)
      (.reference "n" true)), {}⟩ : Expression).evaluateUnder ⟨2, 3⟩ Host.idle Source.none 9 () =
        some (.ok 6.0, ()) := by
    decide +kernel
  rcases ((Limits.only_cut_off hwithin Host.idle 9).1 _ Source.none).1 () with
    ⟨fault, after, -, hcut⟩ | hsame
  · rw [hlower] at hcut
    cases hcut
  · exact hsame.trans hlower

end Formulae
