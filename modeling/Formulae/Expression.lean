import Formulae.Reading.Grammar

/-!
# Expressions — formulas that were read from a text

An expression is a tree with the text it was read from and the limits it was read under. It is evaluated
against a source of bindings; every evaluation starts from a fresh context.
-/

namespace Formulae

/-- A formula that was read from a text. -/
structure Expression where
  source : String
  root : Node
  /-- The limits of evaluations that are given none. -/
  limits : Limits
deriving DecidableEq

namespace Expression

variable {σ : Type}

/-- Reads a text under a host. -/
def read (host : Host σ) (options : ReadingOptions) (steps : Nat) (source : String) :
    Run σ Expression := do
  let root ← readNode host options steps source
  pure ⟨source, root, options.limits⟩

/-- Whether the formula needs no bindings. -/
def isConstant (e : Expression) : Bool :=
  e.root.isConstant

/-- The formula as text, with the values of folded subtrees if `reduced`. -/
def render (e : Expression) (reduced : Bool) : String :=
  e.root.render reduced

/-- The value under given limits. -/
def evaluateUnder (e : Expression) (limits : Limits) (host : Host σ) (source : Source σ)
    (steps : Nat) : Run σ Float :=
  evaluateFresh host source steps limits e.root

/-- The value under the limits that the expression was read under. -/
def evaluate (e : Expression) (host : Host σ) (source : Source σ) (steps : Nat) : Run σ Float :=
  e.evaluateUnder e.limits host source steps

/-- The value under given limits if they are in their range. -/
def evaluateChecked (e : Expression) (limits : Limits) (host : Host σ) (source : Source σ)
    (steps : Nat) : Run σ Float := do
  let limits ← Run.ofExcept limits.validate
  e.evaluateUnder limits host source steps

/-- The value in a context that goes on afterwards. -/
def evaluateIn (e : Expression) (host : Host σ) (source : Source σ) (steps : Nat) :
    Evaluation σ Float :=
  Formulae.evaluate host source steps e.root

/-- Whether two expressions have the same tree. -/
def sameTree (a b : Expression) : Bool :=
  a.root == b.root

end Expression

end Formulae
