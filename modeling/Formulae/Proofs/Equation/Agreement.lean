import Formulae.Equation
import Formulae.Proofs.Evaluation.Tracking

/-!
# Proofs.Equation.Agreement — an equation is its formula, evaluated with a cap

The counts of an equation lie beside the world of its bindings. Apart from a resolution that they refuse, the
counted source does to that world what the bindings do, so the run of an equation is that of its formula
under its bindings until a name is overused (`Equation.evaluate_cases`).
-/

namespace Formulae

variable {σ : Type}

/-- What a counted source finds: nothing for a name that it does not bind, a refusal of a name that was resolved
too often, or what the source finds. -/
theorem Equation.counted_cases (limit : Nat) (isBound : String → Bool) (source : Source σ) (name : String)
    (w : Tally × σ) :
    counted limit isBound source name w = (.unbound, w) ∨
    counted limit isBound source name w =
      (.value (.error (.overused name limit)), (w.1.add name, w.2)) ∨
    counted limit isBound source name w =
      ((source name w.2).1, (w.1.add name, (source name w.2).2)) := by
  obtain ⟨tally, world⟩ := w
  unfold counted
  cases isBound name with
  | false => exact .inl rfl
  | true =>
    by_cases hlimit : limit ≤ (tally.add name).count name
    · exact .inr (.inl (by simp only [hlimit, if_true]))
    · exact .inr (.inr (by simp only [hlimit, if_true, if_false]))

/-- What a run with counts looks like without them, as long as no name is overused. -/
def View.uncounted (σ : Type) (limits : Limits) (limit : Nat) (isBound : String → Bool) :
    View (Tally × σ) σ :=
  .under limits Prod.snd (fun _ => True) fun fault =>
    ∃ name, isBound name = true ∧ fault = .overused name limit

section Uncounted

variable (limits : Limits) (limit : Nat) (isBound : String → Bool)

theorem uncounted_hosts (host : Host σ) :
    (View.uncounted σ limits limit isBound).Hosts (host.onSecond Tally) host where
  poll _ _ := ⟨trivial, rfl⟩
  random _ _ := ⟨trivial, rfl⟩

/-- Counting a source changes nothing but that a name may be overused. -/
theorem uncounted_sources {source : Source σ}
    (unbound : ∀ name world, isBound name = false → source name world = (.unbound, world)) :
    (View.uncounted σ limits limit isBound).Sources (Equation.counted limit isBound source) source := by
  rintro name ⟨tally, world⟩ -
  unfold Equation.counted
  cases hbound : isBound name with
  | false => exact .inr ⟨trivial, unbound name world hbound⟩
  | true =>
    simp only [if_true]
    by_cases hlimit : limit ≤ (tally.add name).count name
    · simp only [hlimit, if_true]
      exact .inl ⟨_, .inl rfl, name, hbound, rfl⟩
    · simp only [hlimit, if_false]
      exact .inr ⟨trivial, rfl⟩

end Uncounted

theorem Bindings.source_of_unbound (v : Bindings σ) (name : String) (world : σ)
    (h : (v.get? name).isSome = false) : v.source name world = (.unbound, world) := by
  have hnone : v.get? name = none := Option.isNone_iff_eq_none.mp (by simpa using h)
  unfold Bindings.source
  rw [hnone]

namespace Equation

/-- The run of an equation is that of its formula under counted bindings, without the counts. -/
theorem evaluate_eq_map (e : Equation σ) (host : Host σ) (steps : Nat) (world : σ) :
    e.evaluate host steps world =
      (evaluateFresh (host.onSecond Tally) e.source steps e.expression.limits e.expression.root
        (Tally.empty, world)).map fun r => (r.1, r.2.2) := by
  unfold evaluate Expression.evaluate Expression.evaluateUnder
  rcases evaluateFresh (host.onSecond Tally) e.source steps e.expression.limits e.expression.root
    (Tally.empty, world) with _ | ⟨outcome, tally, after⟩ <;> rfl

/-- An equation fails because one of its names was resolved too often, or it comes to what its formula comes
to under its bindings, with the same values read in the same order: in the same steps, to the same value or
fault, and in the same world, which every supplier that was asked has changed. -/
theorem evaluate_cases (e : Equation σ) (host : Host σ) (steps : Nat) (world : σ) :
    (∃ name after, (e.bindings.get? name).isSome = true ∧
      e.evaluate host steps world = some (.error (.overused name resolutionLimit), after)) ∨
    e.expression.evaluate host e.bindings.source steps world = e.evaluate host steps world := by
  have h := View.evaluateFresh_cases
    (uncounted_hosts e.expression.limits resolutionLimit (fun name => (e.bindings.get? name).isSome) host)
    (uncounted_sources _ _ _ fun name world h => e.bindings.source_of_unbound name world h) steps
    e.expression.root (w := (Tally.empty, world)) trivial
  rcases h with ⟨fault, after, ⟨name, hbound, rfl⟩, hover⟩ | hsame
  · refine .inl ⟨name, after.2, hbound, ?_⟩
    rw [evaluate_eq_map]
    exact congrArg _ hover
  · exact .inr (hsame.trans (e.evaluate_eq_map host steps world).symm)

end Equation

end Formulae
