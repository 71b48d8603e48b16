import Formulae.Proofs.Evaluation.Pace
import Formulae.Proofs.Names
import Formulae.Proofs.Reading.Unfolding
import Formulae.Proofs.Relaxation

/-!
# Proofs.Equation.Inertness — limits on substitutions that have no effect

An equation counts the resolutions of a name in the whole run, and ends it at `Equation.resolutionLimit`. So a
scope does not come to a limit on substitutions that is not below that one. What is folded while a text is
read has no bindings: there a name fails when it is met for the first time.

* `Bindings.Candid`: no supplier answers with the fault of the limit.
* `Equation.paced_counted`, `Source.paced_none`: the two sources are paced.
* `Equation.evaluate_not_recursion`, `Equation.evaluate_allowing`: the run of an equation.
* `Reading.readNode_allowing`: the reading of a text.
-/

namespace Formulae

open Evaluation

variable {σ : Type}

/-! ### Equations -/

/-- No supplier answers with the fault of the limit on substitutions. -/
def Bindings.Candid (v : Bindings σ) : Prop :=
  ∀ name ask, v.get? name = some (.supplier ask) →
    ∀ world fault, (ask world).1 = .error fault → ¬ fault.IsRecursion

theorem Bindings.Candid.not_recursion {v : Bindings σ} (h : v.Candid) {name : String} {world : σ}
    {fault : Fault} (hfails : Lookup.Fails name (v.source name world).1 fault) : ¬ fault.IsRecursion := by
  have hunset : ¬ (Fault.unset name).IsRecursion := by
    rintro ⟨_, _, ⟨⟩⟩
  unfold Bindings.source at hfails
  rcases hb : v.get? name with _ | b
  · rw [hb] at hfails
    rcases hfails with ⟨⟨⟩⟩ | ⟨-, rfl⟩
    exact hunset
  · rw [hb] at hfails
    cases b with
    | value x =>
      rcases hfails with hvalue | ⟨⟨⟩, -⟩
      exact (operational_checkFinite x).not_recursion fault (Lookup.value.inj hvalue)
    | supplier ask =>
      rcases hfails with hvalue | ⟨⟨⟩, -⟩
      have hbind : (ask world).1.bind Number.checkFinite = .error fault := Lookup.value.inj hvalue
      rcases hask : (ask world).1 with fault' | x
      · rw [hask] at hbind
        cases hbind
        exact h name ask hb world _ hask
      · rw [hask] at hbind
        exact (operational_checkFinite x).not_recursion fault hbind
    | formula e => rcases hfails with ⟨⟨⟩⟩ | ⟨⟨⟩, -⟩

/-- Nothing is found without bindings, and nothing is counted. -/
theorem Source.paced_none (host : Host σ) : Source.none.Paced host (fun _ _ => 0) 1 where
  poll _ := rfl
  random _ := rfl
  candid := by
    rintro name world fault (⟨⟨⟩⟩ | ⟨-, rfl⟩) ⟨_, _, ⟨⟩⟩
  counted name _ := .inl ⟨.unset name, .inr ⟨rfl, rfl⟩⟩

/-- A counted source counts in its own world what it finds. -/
theorem Equation.paced_counted (host : Host σ) {source : Source σ} (limit : Nat)
    (isBound : String → Bool)
    (candid : ∀ name world fault, Lookup.Fails name (source name world).1 fault → ¬ fault.IsRecursion) :
    (counted limit isBound source).Paced (host.onSecond Tally) (fun w => w.1.count) limit where
  poll _ := rfl
  random _ := rfl
  candid name w fault hfails := by
    rcases counted_cases limit isBound source name w with hcase | hcase | hcase
    · rw [hcase] at hfails
      rcases hfails with ⟨⟨⟩⟩ | ⟨-, rfl⟩
      rintro ⟨_, _, ⟨⟩⟩
    · rw [hcase] at hfails
      rcases hfails with ⟨⟨⟩⟩ | ⟨⟨⟩, -⟩
      rintro ⟨_, _, ⟨⟩⟩
    · rw [hcase] at hfails
      exact candid name w.2 fault hfails
  counted := by
    rintro name ⟨tally, world⟩
    simp only [counted]
    split
    · split
      · exact .inl ⟨_, .inl rfl⟩
      · rename_i hbelow
        exact .inr ⟨Nat.lt_of_not_le hbelow, tally.count_add name⟩
    · exact .inl ⟨_, .inr ⟨rfl, rfl⟩⟩

namespace Equation

variable {e : Equation σ} (candid : e.bindings.Candid)
include candid

theorem paced_source (host : Host σ) :
    e.source.Paced (host.onSecond Tally) (fun w => w.1.count) resolutionLimit :=
  paced_counted host _ _ fun _ _ _ => candid.not_recursion

/-- The count of the equation comes first, so the limit on substitutions does not end the run. -/
theorem evaluate_not_recursion (hlimit : resolutionLimit ≤ e.expression.limits.substitutions)
    {host : Host σ} {steps : Nat} {world after : σ} {fault : Fault}
    (h : e.evaluate host steps world = some (.error fault, after)) : ¬ fault.IsRecursion := by
  rw [evaluate_eq_map] at h
  obtain ⟨⟨outcome, tally, world'⟩, hrun, heq⟩ := Option.map_eq_some_iff.mp h
  obtain ⟨rfl, -⟩ := Prod.mk.inj heq
  have hpos : 0 < resolutionLimit := by decide
  refine evaluateFresh_not_recursion (paced_source candid host) hlimit ?_ hrun
  exact fun _ => hpos

theorem evaluate_allowing (hlimit : resolutionLimit ≤ e.expression.limits.substitutions) {m : Nat}
    (hm : resolutionLimit ≤ m) (host : Host σ) (steps : Nat) :
    (e.under (e.expression.limits.allowing m)).evaluate host steps = e.evaluate host steps := by
  funext world
  rw [evaluate_under, evaluate_eq_map]
  have hpos : 0 < resolutionLimit := by decide
  exact congrArg _ (evaluateFresh_allowing (paced_source candid host) hlimit hm steps _ fun _ => hpos)

end Equation

/-! ### Readings -/

namespace Reading

/-- What is folded is folded under any limit that lets a name be met once. -/
theorem finish_allowing {g g' : Setting σ} (host : g'.host = g.host) (steps : g'.steps = g.steps) {m : Nat}
    (options : g'.options = { g.options with limits := g.options.limits.allowing m })
    (hlimit : 1 ≤ g.options.limits.substitutions) (hm : 1 ≤ m) (node : Node) (constant : Bool) :
    finish g' node constant = finish g node constant := by
  have hfold : fold g.host g.steps (g.options.limits.allowing m) node =
      fold g.host g.steps g.options.limits node := by
    funext r
    unfold fold
    rw [evaluateFresh_allowing (Source.paced_none g.host) hlimit hm g.steps node
      fun _ => Nat.zero_lt_one]
  unfold finish
  rw [host, steps, options]
  simp only [hfold]

/-- Two readings that treat the nodes they build in the same way are one. -/
theorem whole_eq_of_finish {host : Host σ} {options options' : ReadingOptions} {steps : Nat}
    (inside : options'.insideSummation = options.insideSummation)
    (hfinish : ∀ {g g' : Setting σ}, g.host = host → g.options = options → g.steps = steps →
      g'.host = host → g'.options = options' → g'.steps = steps →
      ∀ node constant, finish g' node constant = finish g node constant) (depth : Nat) :
    whole host options' steps depth = whole host options steps depth := by
  refine Run.eq_of_follows ?_ ?_
  · refine whole_related_of_finish (carries_follows host) inside.symm ?_ depth
    intro g g' hhost' hoptions' hsteps' hhost hoptions hsteps node constant
    rw [hfinish hhost hoptions hsteps hhost' hoptions' hsteps']
    exact Run.follows_refl _
  · refine whole_related_of_finish (carries_follows host) inside ?_ depth
    intro g g' hhost hoptions hsteps hhost' hoptions' hsteps' node constant
    rw [hfinish hhost hoptions hsteps hhost' hoptions' hsteps']
    exact Run.follows_refl _

/-- A text is read as under any other such limit. -/
theorem readNode_allowing (host : Host σ) (options : ReadingOptions) (steps : Nat) {m : Nat}
    (hlimit : 1 ≤ options.limits.substitutions) (hm : 1 ≤ m) (source : String) :
    readNode host { options with limits := options.limits.allowing m } steps source =
      readNode host options steps source := by
  have hwhole : whole host { options with limits := options.limits.allowing m } steps
      (depthBound source) = whole host options steps (depthBound source) := by
    refine whole_eq_of_finish ?_ ?_ _
    · rfl
    · rintro g g' rfl rfl rfl hhost hoptions hsteps
      exact finish_allowing hhost hsteps hoptions hlimit hm
  funext world
  rw [readNode_eq_map, readNode_eq_map, hwhole]

end Reading

end Formulae
