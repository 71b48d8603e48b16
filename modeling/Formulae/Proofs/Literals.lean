import Formulae.Proofs.Evaluation.Congruence
import Formulae.Proofs.Refolding

/-!
# Proofs.Literals — the numbers in a tree

* `Node.Numbers P`: all numbers of the tree satisfy `P`.
* `Node.unlabelled`: the tree with a number for every named or folded one. It comes to the same
  (`Evaluator.run_unlabelled`, `evaluate_unlabelled`).
-/

namespace Formulae

open Evaluation

namespace Node

/-- All numbers of the tree satisfy `P`: numerals, named constants and folded values. -/
@[simp] def Numbers (P : Float → Prop) : Node → Prop
  | .number value | .constant value _ => P value
  | .reference _ _ | .random => True
  | .unary _ arg | .finite arg => arg.Numbers P
  | .binary _ left right | .comparison _ left right | .logic _ left right =>
    left.Numbers P ∧ right.Numbers P
  | .choice a b c | .summation a b c => a.Numbers P ∧ b.Numbers P ∧ c.Numbers P

theorem Numbers.mono {P Q : Float → Prop} {node : Node} (h : node.Numbers P) (hPQ : ∀ x, P x → Q x) :
    node.Numbers Q := by
  induction node with
  | number | constant => exact hPQ _ h
  | reference | random => trivial
  | unary _ _ ih | finite _ ih => exact ih h
  | binary _ _ _ iha ihb | comparison _ _ _ iha ihb | logic _ _ _ iha ihb =>
    exact ⟨iha h.1, ihb h.2⟩
  | choice _ _ _ iha ihb ihc | summation _ _ _ iha ihb ihc =>
    exact ⟨iha h.1, ihb h.2.1, ihc h.2.2⟩

/-- The tree without the texts of its named and folded values. -/
@[simp] def unlabelled : Node → Node
  | .number value => .number value
  | .constant value _ => .number value
  | .reference name inSummation => .reference name inSummation
  | .random => .random
  | .unary op arg => .unary op arg.unlabelled
  | .binary op left right => .binary op left.unlabelled right.unlabelled
  | .comparison op left right => .comparison op left.unlabelled right.unlabelled
  | .logic op left right => .logic op left.unlabelled right.unlabelled
  | .choice a b c => .choice a.unlabelled b.unlabelled c.unlabelled
  | .summation a b c => .summation a.unlabelled b.unlabelled c.unlabelled
  | .finite inner => .finite inner.unlabelled

end Node

section Joins

variable {join : Node → Node → Node} {a b : Node}

theorem Grammar.Joins.numbers (h : Joins join) {P : Float → Prop} :
    (join a b).Numbers P ↔ a.Numbers P ∧ b.Numbers P := by
  cases h <;> rfl

theorem Grammar.Joins.unlabelled (h : Joins join) :
    (join a b).unlabelled = join a.unlabelled b.unlabelled := by
  cases h <;> rfl

end Joins

namespace Node

theorem isConstant_unlabelled (node : Node) : node.unlabelled.isConstant = node.isConstant := by
  induction node <;> simp_all

theorem isLiteral_unlabelled (node : Node) : node.unlabelled.isLiteral = node.isLiteral := by
  cases node <;> rfl

end Node

variable {σ : Type}

/-- A tree comes to the same without the texts of its values. -/
theorem Evaluator.run_unlabelled (E : Evaluator σ) (node : Node) :
    E.run node.unlabelled = E.run node := by
  unfold Evaluator.run
  induction node with
  | number | constant | reference | random => rfl
  | unary _ _ ih | finite _ ih => simp only [Node.unlabelled, Node.evaluateWith, ih]
  | binary _ _ _ iha ihb | comparison _ _ _ iha ihb | logic _ _ _ iha ihb =>
    simp only [Node.unlabelled, Node.evaluateWith, iha, ihb]
  | choice _ _ _ iha ihb ihc | summation _ _ _ iha ihb ihc =>
    simp only [Node.unlabelled, Node.evaluateWith, iha, ihb, ihc]

/-- Trees that only differ in the texts of their values come to the same. -/
theorem evaluate_of_unlabelled_eq {a b : Node} (h : a.unlabelled = b.unlabelled) (host : Host σ)
    (source : Source σ) (steps : Nat) :
    evaluate host source steps a = evaluate host source steps b := by
  cases steps with
  | zero => rfl
  | succ steps =>
    have hrun := Evaluator.run_unlabelled ⟨host, source, evaluate host source steps, steps⟩
    exact (hrun a).symm.trans ((congrArg _ h).trans (hrun b))

end Formulae
