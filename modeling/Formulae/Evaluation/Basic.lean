import Formulae.Evaluation.Context

/-!
# Evaluation — the value of a tree

Left operands are evaluated before right ones, both operands of logic always, and of a choice only the
branch that is taken. Every node except values and random numbers polls the host first, and so does
every iteration of a summation. Results of functions and arithmetic have to be finite.

* `Node.evaluateWith enter steps` evaluates a tree; names that stand for formulas are evaluated by
  `enter`, and a summation may run for less than `steps` iterations.
* `evaluate host source steps` ties the knot: `steps` bounds the nesting of formulas and the iterations,
  and the evaluation is `none` where that does not suffice.
-/

namespace Formulae

open Number

namespace Evaluation

variable {σ : Type} (host : Host σ)

/-- The iterations of a summation from the one numbered `step`, as many as `steps` allows. -/
def iterate (lower upper : Float) (body : Evaluation σ Float) :
    Nat → Nat → Float → Evaluation σ Float
  | 0, _, _ => Run.exhausted
  | steps + 1, step, total => do
    let index := lower + Float.ofNat step
    if upper < index then Run.ofExcept (checkFinite total)
    else do
      poll host
      let value ← inScope index body
      iterate lower upper body steps (step + 1) (total + value)

/-- How many iterations a summation has by its bounds. -/
def summationLength (lower upper : Float) : Float :=
  floor (upper - lower) + 1.0

/-- The sum of a body over `lower`, `lower + 1`, … up to `upper`. -/
def sumOver (steps : Nat) (lower upper : Float) (body : Evaluation σ Float) :
    Evaluation σ Float := do
  if upper < lower then Run.fail (.domain (.summationBounds lower upper))
  else do
    let limit ← Run.read fun ctx => ctx.limits.iterations
    let length := summationLength lower upper
    if 0 < limit && Float.ofNat limit < length then
      Run.fail (.domain (.summationTooLong length limit))
    else iterate host lower upper body steps 0 0.0

end Evaluation

namespace Node

variable {σ : Type} (host : Host σ) (source : Source σ)

open Evaluation

/-- The value of a tree, given how to evaluate the formulas that names stand for. -/
def evaluateWith (enter : Node → Evaluation σ Float) (steps : Nat) : Node → Evaluation σ Float
  | .number value => pure value
  | .constant value _ => pure value
  | .random => draw host
  | .reference name _ => do
    poll host
    resolve source enter name
  | .unary op arg => do
    poll host
    let x ← arg.evaluateWith enter steps
    Run.ofExcept (checkFinite (op.apply x))
  | .binary op left right => do
    poll host
    let x ← left.evaluateWith enter steps
    let y ← right.evaluateWith enter steps
    let z ← Run.ofExcept (op.apply x y)
    Run.ofExcept (checkFinite z)
  | .comparison op left right => do
    poll host
    let x ← left.evaluateWith enter steps
    let y ← right.evaluateWith enter steps
    pure (ofBool (op.test x y))
  | .logic op left right => do
    poll host
    let x ← left.evaluateWith enter steps
    let p ← Run.ofExcept (toBool x)
    let y ← right.evaluateWith enter steps
    let q ← Run.ofExcept (toBool y)
    pure (ofBool (op.apply p q))
  | .choice test yes no => do
    poll host
    let x ← test.evaluateWith enter steps
    let p ← Run.ofExcept (toBool x)
    if p then yes.evaluateWith enter steps else no.evaluateWith enter steps
  | .summation lower upper body => do
    poll host
    let lo ← lower.evaluateWith enter steps
    let hi ← upper.evaluateWith enter steps
    sumOver host steps lo hi (body.evaluateWith enter steps)
  | .finite inner => do
    poll host
    let x ← inner.evaluateWith enter steps
    Run.ofExcept (checkFinite x)

end Node

/-- The value of a tree, with formulas nested at most `steps` deep and summations of less than `steps`
iterations. -/
def evaluate {σ : Type} (host : Host σ) (source : Source σ) : Nat → Node → Evaluation σ Float
  | 0, _ => Run.exhausted
  | steps + 1, node => node.evaluateWith host source (evaluate host source steps) steps

/-- The value of a tree in a fresh context, and the world it leaves. -/
def evaluateFresh {σ : Type} (host : Host σ) (source : Source σ) (steps : Nat) (limits : Limits)
    (node : Node) : Run σ Float := fun world =>
  match evaluate host source steps node (Context.fresh limits world) with
  | some (outcome, ctx) => some (outcome, ctx.world)
  | none => none

end Formulae
