import Formulae.Bindings

/-!
# Equations — formulas whose names stand for formulas

An equation is a formula with bindings that may refer to each other and to themselves. In one evaluation
each bound name is resolved less than `Equation.resolutionLimit` times, counted over all nested formulas
and all iterations of summations, so a cycle ends in a fault.
-/

namespace Formulae

/-- A formula with its own bindings. -/
structure Equation (σ : Type) where
  expression : Expression
  bindings : Bindings σ

namespace Equation

variable {σ : Type}

/-- The count at which a resolution of a name fails. -/
def resolutionLimit : Nat := 500

/-- The formula with nothing bound. -/
def ofExpression (expression : Expression) : Equation σ :=
  ⟨expression, Bindings.empty⟩

/-- Binds a name. -/
def bind (e : Equation σ) (name : String) (b : Binding σ) : Equation σ :=
  { e with bindings := e.bindings.set name b }

/-- A source with a count for each name that it binds; beyond the limit a resolution fails. -/
def counted (limit : Nat) (isBound : String → Bool) (source : Source σ) : Source (Tally × σ) :=
  fun name (tally, world) =>
    if isBound name then
      let tally := tally.add name
      if limit ≤ tally.count name then (.value (.error (.overused name limit)), (tally, world))
      else
        let (found, world) := source name world
        (found, (tally, world))
    else (.unbound, (tally, world))

/-- The bindings of the equation, counted. -/
def source (e : Equation σ) : Source (Tally × σ) :=
  counted resolutionLimit (fun name => (e.bindings.get? name).isSome) e.bindings.source

/-- The value of the equation. -/
def evaluate (e : Equation σ) (host : Host σ) (steps : Nat) : Run σ Float := fun world =>
  match e.expression.evaluate (host.onSecond Tally) e.source steps (Tally.empty, world) with
  | some (outcome, (_, world)) => some (outcome, world)
  | none => none

end Equation

end Formulae
