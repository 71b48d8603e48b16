import Formulae.Proofs.Evaluation.Finiteness
import Formulae.Proofs.Rendering

/-!
# Proofs.Bracketing — precedence made explicit

The plain text of a tree with parentheses around every operator and its operands is read as that tree, so
the grammar groups the operands as the parentheses do; and the parentheses change no value.

* `Node.bracketed` puts the parentheses, `Node.stripped` takes all parentheses away.
* `Grammar.Derives.bracketed`: each phrase of the grammar is a primary once its operators stand between
  parentheses, by induction on the derivation.
* `Evaluator.run_bracketed`: the results of operators are checked already, so the parentheses let them pass.
-/

namespace Formulae

open Number

namespace Node

/-- Whether the node is an operator with its operands: a sign, arithmetic, a comparison or logic. -/
def isOperation : Node → Bool
  | .unary op _ => op == .neg
  | .binary op _ _ => op.sign?.isSome
  | .comparison _ _ _ | .logic _ _ _ => true
  | _ => false

/-- The tree, between parentheses if it is an operator with its operands. -/
def enclosed (node : Node) : Node :=
  if node.isOperation then .unary .paren node else node

/-- The tree with parentheses around every operator and its operands, apart from those it has. -/
@[simp] def bracketed : Node → Node
  | .number value => .number value
  | .constant value label => .constant value label
  | .reference name inSummation => .reference name inSummation
  | .random => .random
  | .unary op arg => (Node.unary op arg.bracketed).enclosed
  | .binary op left right => (Node.binary op left.bracketed right.bracketed).enclosed
  | .comparison op left right => (Node.comparison op left.bracketed right.bracketed).enclosed
  | .logic op left right => (Node.logic op left.bracketed right.bracketed).enclosed
  | .choice a b c => .choice a.bracketed b.bracketed c.bracketed
  | .summation a b c => .summation a.bracketed b.bracketed c.bracketed
  | .finite inner => .finite inner.bracketed

/-- The tree without its parentheses. -/
@[simp] def stripped : Node → Node
  | .number value => .number value
  | .constant value label => .constant value label
  | .reference name inSummation => .reference name inSummation
  | .random => .random
  | .unary op arg => if op = .paren then arg.stripped else .unary op arg.stripped
  | .binary op left right => .binary op left.stripped right.stripped
  | .comparison op left right => .comparison op left.stripped right.stripped
  | .logic op left right => .logic op left.stripped right.stripped
  | .choice a b c => .choice a.stripped b.stripped c.stripped
  | .summation a b c => .summation a.stripped b.stripped c.stripped
  | .finite inner => .finite inner.stripped

theorem enclosed_of_isOperation {node : Node} (h : node.isOperation = true) :
    node.enclosed = .unary .paren node :=
  if_pos h

theorem enclosed_of_not_isOperation {node : Node} (h : node.isOperation = false) :
    node.enclosed = node :=
  if_neg (Bool.eq_false_iff.mp h)

@[simp] theorem stripped_enclosed (node : Node) : node.enclosed.stripped = node.stripped := by
  unfold enclosed
  split
  · rw [stripped, if_pos rfl]
  · rfl

/-- The parentheses that are put are taken away with all others. -/
theorem stripped_bracketed (node : Node) : node.bracketed.stripped = node.stripped := by
  induction node with
  | number | constant | reference | random => rfl
  | unary _ _ ih | finite _ ih => simp [ih]
  | binary _ _ _ iha ihb | comparison _ _ _ iha ihb | logic _ _ _ iha ihb => simp [iha, ihb]
  | choice _ _ _ iha ihb ihc | summation _ _ _ iha ihb ihc => simp [iha, ihb, ihc]

end Node

namespace Grammar

/-! ### Operators between parentheses -/

theorem bracketed_joined {l : Level} {sign : String} {join : Node → Node → Node}
    (mem : (sign, join) ∈ l.operators) (left right : Node) :
    (join left right).bracketed = .unary .paren (join left.bracketed right.bracketed) := by
  have hall : ∀ entry ∈ l.operators, ∀ left right,
      (entry.2 left right).bracketed = .unary .paren (entry.2 left.bracketed right.bracketed) := by
    cases l <;> simp [Level.operators, Node.enclosed, Node.isOperation, BinaryOp.sign?]
  exact hall _ mem left right

/-- A call is no operator. -/
theorem Calls.bracketed {name : String} {args : List Node} {node : Node} (h : Calls name args node) :
    Calls name (args.map Node.bracketed) node.bracketed := by
  cases h with
  | random mem => exact .random mem
  | @unary _ op arg mem =>
    have hall : ∀ entry ∈ unaryFunctions, (entry.2 == .neg) = false := by decide
    have hop : (Node.unary op arg.bracketed).isOperation = false := hall _ mem
    rw [Node.bracketed, Node.enclosed_of_not_isOperation hop]
    exact .unary mem
  | @binary _ op left right mem =>
    have hall : ∀ entry ∈ binaryFunctions, entry.2.sign?.isSome = false := by decide
    have hop : (Node.binary op left.bracketed right.bracketed).isOperation = false := hall _ mem
    rw [Node.bracketed, Node.enclosed_of_not_isOperation hop]
    exact .binary mem
  | choice => exact .choice
  | summation mem => exact .summation mem

theorem StandsFor.bracketed {inside : Bool} {name : String} {node : Node}
    (h : StandsFor inside name node) : node.bracketed = node := by
  cases h <;> rfl

section Rules

variable {inside : Bool} {l : Level} {sign : String} {join : Node → Node → Node}
  {left right node : Node}

/-- Two operands with an operator of a chain between them are a primary between parentheses. -/
theorem rendered_bracketed_joined (mem : (sign, join) ∈ l.operators)
    (hl : Rendered inside (.formula .primary left.bracketed))
    (hr : Rendered inside (.formula .primary right.bracketed)) :
    Rendered inside (.formula .primary (join left right).bracketed) := by
  have chain : Rendered inside (.formula l (join left.bracketed right.bracketed)) :=
    rendered_chain (isChain_of_mem mem) (rendered_of_primary hl l.tighter)
      (rendered_operator mem (rendered_of_primary hr l.tighter) rendered_done)
  rw [bracketed_joined mem]
  exact rendered_group (rendered_whole chain)

theorem rendered_bracketed_negative (h : Rendered inside (.formula .primary node.bracketed)) :
    Rendered inside (.formula .primary (Node.unary .neg node).bracketed) := by
  have negative := rendered_negative (rendered_of_primary h .signed)
  rw [Node.bracketed, Node.enclosed_of_isOperation rfl]
  exact rendered_group (rendered_whole negative)

theorem rendered_bracketed_raised (base : Rendered inside (.formula .primary left.bracketed))
    (exponent : Rendered inside (.formula .primary right.bracketed)) :
    Rendered inside (.formula .primary (Node.binary .pow left right).bracketed) := by
  have raised := rendered_raised base (rendered_of_primary exponent .signed)
  rw [Node.bracketed, Node.enclosed_of_isOperation rfl]
  exact rendered_group (rendered_whole raised)

theorem rendered_bracketed_group (h : Rendered inside (.formula .primary node.bracketed)) :
    Rendered inside (.formula .primary (Node.unary .paren node).bracketed) := by
  rw [Node.bracketed, Node.enclosed_of_not_isOperation rfl]
  exact rendered_group (rendered_of_primary h .disjunction)

end Rules

/-- With parentheses around its operators, a formula of any level is a primary; a chain is one as soon as
its first operands are. -/
def Bracketed (inside : Bool) : Phrase → Prop
  | .formula _ node => Rendered inside (.formula .primary node.bracketed)
  | .more _ left node => Rendered inside (.formula .primary left.bracketed) →
    Rendered inside (.formula .primary node.bracketed)
  | .arguments args => Rendered inside (.arguments (args.map Node.bracketed))

/-- Every rule passes to the texts with parentheses; the induction is on the derivation. -/
theorem Derives.bracketed {inside : Bool} {phrase : Phrase} {text rest : List Char}
    (h : Derives inside phrase text rest) : Bracketed inside phrase := by
  induction h with
  | chain _ _ _ ih ih' => exact ih' ih
  | done => exact id
  | operator mem _ _ _ ih ih' => exact fun first => ih' (rendered_bracketed_joined mem first ih)
  | juxtaposed _ _ ih ih' =>
    have mem : ("*", Node.binary .mul) ∈ Level.term.operators := by simp [Level.operators]
    exact fun first => ih' (rendered_bracketed_joined mem first ih)
  | negative _ _ ih => exact rendered_bracketed_negative ih
  | positive _ _ ih | unsigned _ ih | base _ ih => exact ih
  | raised _ _ _ ih ih' => exact rendered_bracketed_raised ih ih'
  | group _ _ _ ih => exact rendered_bracketed_group ih
  | numeral next =>
    obtain ⟨spelling, -, -, hvalue⟩ := next
    exact rendered_number (Numeral.readsBack_value? hvalue)
  | name next stands =>
    have primary := rendered_name next stands
    rw [← stands.bracketed] at primary
    exact primary
  | emptyCall _ _ calls => exact rendered_emptyCall calls.bracketed
  | call _ _ calls ih => exact rendered_call calls.bracketed ih
  | lastArgument _ _ ih => exact rendered_lastArgument (rendered_of_primary ih .disjunction)
  | argument _ _ _ ih ih' => exact rendered_argument (rendered_of_primary ih .disjunction) ih'

/-- A tree of the grammar is derived from its text with all parentheses put. -/
theorem Formula.bracketed {inside : Bool} {text : List Char} {node : Node}
    (h : Formula inside text node) : Formula inside (plain node.bracketed) node.bracketed := by
  obtain ⟨rest, hderives, -⟩ := h
  exact Rendered.formula (rendered_of_primary hderives.bracketed .disjunction)

end Grammar

/-! ### Values -/

section Values

variable {σ : Type} {E : Evaluator σ} (quiet : E.host.Quiet)
include quiet

theorem Evaluator.run_enclosed (node : Node) : E.run node.enclosed = E.run node := by
  unfold Node.enclosed
  split
  · rename_i operation
    refine E.run_paren quiet ?_
    cases node with
    | unary op a => exact E.checked_unary op a
    | binary op a b => exact E.checked_binary op a b
    | comparison op a b => exact E.checked_comparison op a b
    | logic op a b => exact E.checked_logic op a b
    | _ => cases operation
  · rfl

/-- A tree comes to the same with all parentheses put. -/
theorem Evaluator.run_bracketed (node : Node) : E.run node.bracketed = E.run node := by
  have enclosed := E.run_enclosed quiet
  unfold Evaluator.run at enclosed ⊢
  induction node with
  | number | constant | reference | random => rfl
  | unary _ _ ih | finite _ ih => simp only [Node.bracketed, enclosed, Node.evaluateWith, ih]
  | binary _ _ _ iha ihb | comparison _ _ _ iha ihb | logic _ _ _ iha ihb =>
    simp only [Node.bracketed, enclosed, Node.evaluateWith, iha, ihb]
  | choice _ _ _ iha ihb ihc | summation _ _ _ iha ihb ihc =>
    simp only [Node.bracketed, Node.evaluateWith, iha, ihb, ihc]

end Values

theorem evaluateFresh_bracketed {σ : Type} {host : Host σ} (quiet : host.Quiet) (source : Source σ)
    (steps : Nat) (limits : Limits) (node : Node) :
    evaluateFresh host source steps limits node.bracketed =
      evaluateFresh host source steps limits node := by
  have same : evaluate host source steps node.bracketed = evaluate host source steps node := by
    cases steps with
    | zero => rfl
    | succ steps =>
      exact Evaluator.run_bracketed (E := ⟨host, source, evaluate host source steps, steps⟩) quiet node
  unfold evaluateFresh
  rw [same]

/-! ### Reading -/

section Reading

variable {σ : Type}

/-- The text of an expression with parentheses around every operator and its operands is read; the two
trees are the same without their parentheses and come to the same, under all bindings and limits and in as
many steps. -/
theorem Expression.read_bracketed {host : Host σ} (quiet : host.Quiet) {options : ReadingOptions}
    (unfolded : options.foldConstants = false) {steps : Nat} {source : String} {world after : σ}
    {e : Expression} (h : Expression.read host options steps source world = some (.ok e, after))
    (world' : σ) :
    ∃ e', Expression.read host options steps (e.root.bracketed.render false) world' =
        some (.ok e', world') ∧
      e'.root = e.root.bracketed ∧ e'.root.stripped = e.root.stripped ∧ e'.limits = e.limits ∧
      ∀ {τ : Type} (host' : Host τ), host'.Quiet →
        ∀ (bound : Source τ) (limits : Limits) (steps' : Nat),
          e'.evaluateUnder limits host' bound steps' = e.evaluateUnder limits host' bound steps' := by
  obtain ⟨hroot, he⟩ := Expression.read_eq_some h
  obtain ⟨node, hnode, hformula⟩ := formula_of_readNode quiet unfolded hroot
  have hbracketed : e.root.bracketed = .finite node.bracketed := congrArg Node.bracketed hnode
  have hplain : (e.root.bracketed.render false).toList = Grammar.plain node.bracketed := by
    rw [hbracketed]
    exact congrArg String.toList (render_finite node.bracketed)
  have hread : readNode host options steps (e.root.bracketed.render false) world' =
      some (.ok e.root.bracketed, world') := by
    rw [hbracketed] at hplain ⊢
    refine readNode_of_formula quiet (Reading.settles_some unfolded) ?_ (Node.refold_some _) world'
    rw [hplain]
    exact hformula.bracketed
  refine ⟨_, Expression.read_of_readNode hread, rfl, Node.stripped_bracketed e.root, ?_, ?_⟩
  · rw [he]
  · intro τ host' quiet' bound limits steps'
    exact evaluateFresh_bracketed quiet' bound steps' limits e.root

/-- A difference, a product without its operator, a power and a sign. -/
theorem Expression.read_bracketed_difference :
    ∃ e e' : Expression,
      Expression.read (Deadline.host ⟨1000, none⟩) ⟨false, false, {}⟩ 0 "2-a^-b c" (World.start 0) =
        some (.ok e, World.start 0) ∧
      Expression.read (Deadline.host ⟨1000, none⟩) ⟨false, false, {}⟩ 0 "(2 - ((a ^ (-b)) * c))"
        (World.start 0) = some (.ok e', World.start 0) ∧
      e'.root.stripped = e.root.stripped := by
  have hroot : readNode (Deadline.host ⟨1000, none⟩) ⟨false, false, {}⟩ 0 "2-a^-b c"
      (World.start 0) = some (.ok (.finite (.binary .sub (.number 2)
        (.binary .mul (.binary .pow (.reference "a" false) (.unary .neg (.reference "b" false)))
          (.reference "c" false)))), World.start 0) := by
    decide +kernel
  have hread := Expression.read_of_readNode hroot
  obtain ⟨e', hread', -, hstripped, -⟩ :=
    Expression.read_bracketed (Deadline.quiet_host 1000 (by decide)) rfl hread (World.start 0)
  exact ⟨_, e', hread, by exact hread', hstripped⟩

end Reading

end Formulae
