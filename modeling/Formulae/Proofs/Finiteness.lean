import Formulae.Proofs.Evaluation.Visits
import Formulae.Proofs.Folding
import Formulae.Proofs.Reading.Finiteness

/-!
# Proofs.Finiteness — only finite numbers flow through an evaluation

Values and suppliers may yield anything, but what is read of them is checked. So if formulas come from
texts, everything that the evaluation of an expression or an equation works with is finite.
-/

namespace Formulae

variable {σ : Type}

/-- The expression is what some text was read as. -/
def Expression.IsRead (e : Expression) : Prop :=
  ∃ (τ : Type) (host : Host τ) (options : ReadingOptions) (steps : Nat) (source : String)
    (world after : τ), Expression.read host options steps source world = some (.ok e, after)

/-- The formulas among the bindings were read, whatever else is bound. -/
def Bindings.FormulasRead (v : Bindings σ) : Prop :=
  ∀ name e, v.get? name = some (.formula e) → e.IsRead

theorem Expression.IsRead.allFinite {e : Expression} (h : e.IsRead) : e.root.AllFinite := by
  obtain ⟨τ, host, options, steps, source, world, after, hread⟩ := h
  obtain ⟨hroot, -⟩ := Expression.read_eq_some hread
  exact Reading.readNode_allFinite host options steps source hroot

theorem Expression.IsRead.exists_inner {e : Expression} (h : e.IsRead) :
    ∃ inner, e.root = .finite inner := by
  obtain ⟨τ, host, options, steps, source, world, after, hread⟩ := h
  obtain ⟨hroot, -⟩ := Expression.read_eq_some hread
  exact Reading.exists_inner_of_readNode hroot

theorem Bindings.FormulasRead.finite_source {v : Bindings σ} (h : v.FormulasRead) :
    v.source.Finite :=
  Bindings.finite_source fun name e he => (h name e he).allFinite

/-- What a tree comes to in a fresh context is among the numbers that flow through its evaluation. -/
theorem FiniteFlow.isFinite_of_fresh {host : Host σ} {source : Source σ} {steps : Nat} {root : Node}
    {limits : Limits} {world after : σ} {x : Float}
    (h : FiniteFlow host source steps root (Context.fresh limits world))
    (hx : evaluateFresh host source steps limits root world = some (.ok x, after)) :
    x.isFinite = true := by
  rw [evaluateFresh_eq_map, Option.map_eq_some_iff] at hx
  obtain ⟨⟨outcome, ctx⟩, hrun, heq⟩ := hx
  obtain rfl : outcome = .ok x := (Prod.mk.inj heq).1
  exact h.value .root hrun

/-- Only finite numbers flow through the evaluation of an expression under bindings and any limits, and
through that of an equation, and what they come to is finite. -/
theorem Expression.only_finite_numbers {host : Host σ} (uniform : host.Uniform) {e : Expression}
    (read : e.IsRead) {v : Bindings σ} (bound : v.FormulasRead) (limits : Limits) (steps : Nat)
    (world : σ) :
    e.root.AllFinite ∧
    (FiniteFlow host v.source steps e.root (Context.fresh limits world) ∧
      ∀ x after, e.evaluateUnder limits host v.source steps world = some (.ok x, after) →
        x.isFinite = true) ∧
    (FiniteFlow (host.onSecond Tally) (Equation.mk e v).source steps e.root
        (Context.fresh e.limits (Tally.empty, world)) ∧
      ∀ x after, (Equation.mk e v).evaluate host steps world = some (.ok x, after) →
        x.isFinite = true) := by
  have hflow : FiniteFlow host v.source steps e.root (Context.fresh limits world) :=
    finiteFlow uniform bound.finite_source steps read.allFinite (finiteIndex_fresh limits world)
  have hequation : FiniteFlow (host.onSecond Tally) (Equation.mk e v).source steps e.root
      (Context.fresh e.limits (Tally.empty, world)) :=
    finiteFlow (uniform.onSecond Tally) (bound.finite_source.counted _ _) steps read.allFinite
      (finiteIndex_fresh e.limits _)
  refine ⟨read.allFinite, ⟨hflow, fun x after hx => hflow.isFinite_of_fresh hx⟩, hequation, ?_⟩
  intro x after hx
  unfold Equation.evaluate Expression.evaluate Expression.evaluateUnder at hx
  rcases hrun : evaluateFresh (host.onSecond Tally) (Equation.mk e v).source steps e.limits e.root
    (Tally.empty, world) with _ | ⟨outcome, tally, world'⟩
  · simp only [hrun] at hx
    cases hx
  · simp only [hrun] at hx
    obtain rfl : outcome = .ok x := (Prod.mk.inj (Option.some.inj hx)).1
    exact hequation.isFinite_of_fresh hrun

/-- A summation to a folded bound over a supplied infinity and a formula that draws a random number. -/
theorem Expression.only_finite_numbers_infinite :
    ∃ (e e' : Expression) (v : Bindings World),
      e.root = .finite (.summation (.number 1.0) (.constant 6.0 "2 * 3")
        (.binary .mul (.reference "x" true) (.reference "y" true))) ∧
      v = ⟨[("x", .supplier fun world => (.ok (1.0 / 0.0), world)), ("y", .formula e')]⟩ ∧
      (Deadline.host ⟨1000, none⟩).Uniform ∧ e.IsRead ∧ v.FormulasRead ∧
      FiniteFlow (Deadline.host ⟨1000, none⟩) v.source 9 e.root
        (Context.fresh {} (World.start 7)) := by
  have hroot : readNode (Deadline.host ⟨1000, none⟩) ⟨false, true, {}⟩ 3 "sum(1, 2 * 3, x y)"
      (World.start 0) = some (.ok (.finite (.summation (.number 1.0) (.constant 6.0 "2 * 3")
        (.binary .mul (.reference "x" true) (.reference "y" true)))), World.start 0) := by
    decide +kernel
  have hroot' : readNode (Deadline.host ⟨1000, none⟩) ⟨false, true, {}⟩ 3 "rand() + 1"
      (World.start 0) = some (.ok (.finite (.binary .add .random (.number 1.0))), World.start 0) := by
    decide +kernel
  have uniform := Deadline.uniform_host ⟨1000, none⟩
  have read : Expression.IsRead ⟨"sum(1, 2 * 3, x y)", _, {}⟩ :=
    ⟨World, _, _, _, _, _, _, Expression.read_of_readNode hroot⟩
  have read' : Expression.IsRead ⟨"rand() + 1", .finite (.binary .add .random (.number 1.0)), {}⟩ :=
    ⟨World, _, _, _, _, _, _, Expression.read_of_readNode hroot'⟩
  have bound : Bindings.FormulasRead (σ := World)
      ⟨[("x", .supplier fun world => (.ok (1.0 / 0.0), world)),
        ("y", .formula ⟨"rand() + 1", .finite (.binary .add .random (.number 1.0)), {}⟩)]⟩ := by
    intro name e he
    unfold Bindings.get? Bindings.getIn Bindings.getIn at he
    split at he
    · cases he
    · split at he
      · obtain rfl := Binding.formula.inj (Option.some.inj he)
        exact read'
      · cases he
  have hflow := Expression.only_finite_numbers uniform read bound {} 9 (World.start 7)
  exact ⟨_, _, _, rfl, rfl, uniform, read, bound, hflow.2.1.1⟩

end Formulae
