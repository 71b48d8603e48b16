import Mathlib.Data.List.Forall2
import Formulae.Proofs.Constancy
import Formulae.Proofs.Grammar.Derivation

/-!
# Proofs.Refolding — settling a tree from its leaves up

`Node.refold settle` is what reading makes of a tree when each subtree that was just built is settled at
once. Without folding a subtree settles as it is, and so does the tree (`refold_some`).

* `Node.Congruence.refold`: what passes from subtrees to trees, and is kept by settling, holds between a
  tree and what becomes of it.
* `Joins join`: `join` builds a node of two operands, as every operator and the power do.
* `Calls.refold`, `Calls.settled`: a call is settled after its arguments.
-/

namespace Formulae

namespace Node

/-- The tree with every subtree settled, the lower ones first. -/
def refold (settle : Node → Option Node) : Node → Option Node
  | .number value => some (.number value)
  | .constant value label => some (.constant value label)
  | .reference name inSummation => some (.reference name inSummation)
  | .random => settle .random
  | .unary op arg => do settle (.unary op (← refold settle arg))
  | .binary op left right => do settle (.binary op (← refold settle left) (← refold settle right))
  | .comparison op left right => do
    settle (.comparison op (← refold settle left) (← refold settle right))
  | .logic op left right => do settle (.logic op (← refold settle left) (← refold settle right))
  | .choice test yes no => do
    settle (.choice (← refold settle test) (← refold settle yes) (← refold settle no))
  | .summation lower upper body => do
    settle (.summation (← refold settle lower) (← refold settle upper) (← refold settle body))
  | .finite inner => do some (.finite (← refold settle inner))

theorem refold_some (node : Node) : node.refold some = some node := by
  induction node with
  | number | constant | reference | random => rfl
  | unary op arg ih | finite arg ih => simp [refold, ih]
  | binary op left right ihl ihr | comparison op left right ihl ihr | logic op left right ihl ihr =>
    simp [refold, ihl, ihr]
  | choice a b c iha ihb ihc | summation a b c iha ihb ihc => simp [refold, iha, ihb, ihc]

/-- The relation holds between equal leaves and passes from subtrees to trees. -/
structure Congruence (P : Node → Node → Prop) : Prop where
  leaf : ∀ node, node.childrenReversed = [] → P node node
  unary : ∀ op {a a' : Node}, P a a' → P (.unary op a) (.unary op a')
  binary : ∀ op {a a' b b' : Node}, P a a' → P b b' → P (.binary op a b) (.binary op a' b')
  comparison : ∀ op {a a' b b' : Node}, P a a' → P b b' →
    P (.comparison op a b) (.comparison op a' b')
  logic : ∀ op {a a' b b' : Node}, P a a' → P b b' → P (.logic op a b) (.logic op a' b')
  choice : ∀ {a a' b b' c c' : Node}, P a a' → P b b' → P c c' →
    P (.choice a b c) (.choice a' b' c')
  summation : ∀ {a a' b b' c c' : Node}, P a a' → P b b' → P c c' →
    P (.summation a b c) (.summation a' b' c')
  finite : ∀ {a a' : Node}, P a a' → P (.finite a) (.finite a')

/-- A congruence holds between every tree and itself. -/
theorem Congruence.refl {P : Node → Node → Prop} (h : Congruence P) (node : Node) :
    P node node := by
  induction node with
  | number | constant | reference | random => exact h.leaf _ rfl
  | unary op a ih => exact h.unary op ih
  | finite a ih => exact h.finite ih
  | binary op a b iha ihb => exact h.binary op iha ihb
  | comparison op a b iha ihb => exact h.comparison op iha ihb
  | logic op a b iha ihb => exact h.logic op iha ihb
  | choice a b c iha ihb ihc => exact h.choice iha ihb ihc
  | summation a b c iha ihb ihc => exact h.summation iha ihb ihc

/-- A congruence that settling keeps holds between a tree and what becomes of it. -/
theorem Congruence.refold {P : Node → Node → Prop} (h : Congruence P)
    {settle : Node → Option Node}
    (settled : ∀ {node mid out}, P node mid → settle mid = some out → P node out)
    {node out : Node} (hn : node.refold settle = some out) : P node out := by
  induction node generalizing out with
  | number | constant | reference =>
    obtain rfl := Option.some.inj hn
    exact h.leaf _ rfl
  | random => exact settled (h.leaf _ rfl) hn
  | unary op a ih =>
    obtain ⟨a', ha, hs⟩ := Option.bind_eq_some_iff.mp hn
    exact settled (h.unary op (ih ha)) hs
  | finite a ih =>
    obtain ⟨a', ha, hs⟩ := Option.bind_eq_some_iff.mp hn
    obtain rfl := Option.some.inj hs
    exact h.finite (ih ha)
  | binary op a b iha ihb =>
    obtain ⟨a', ha, hn⟩ := Option.bind_eq_some_iff.mp hn
    obtain ⟨b', hb, hs⟩ := Option.bind_eq_some_iff.mp hn
    exact settled (h.binary op (iha ha) (ihb hb)) hs
  | comparison op a b iha ihb =>
    obtain ⟨a', ha, hn⟩ := Option.bind_eq_some_iff.mp hn
    obtain ⟨b', hb, hs⟩ := Option.bind_eq_some_iff.mp hn
    exact settled (h.comparison op (iha ha) (ihb hb)) hs
  | logic op a b iha ihb =>
    obtain ⟨a', ha, hn⟩ := Option.bind_eq_some_iff.mp hn
    obtain ⟨b', hb, hs⟩ := Option.bind_eq_some_iff.mp hn
    exact settled (h.logic op (iha ha) (ihb hb)) hs
  | choice a b c iha ihb ihc =>
    obtain ⟨a', ha, hn⟩ := Option.bind_eq_some_iff.mp hn
    obtain ⟨b', hb, hn⟩ := Option.bind_eq_some_iff.mp hn
    obtain ⟨c', hc, hs⟩ := Option.bind_eq_some_iff.mp hn
    exact settled (h.choice (iha ha) (ihb hb) (ihc hc)) hs
  | summation a b c iha ihb ihc =>
    obtain ⟨a', ha, hn⟩ := Option.bind_eq_some_iff.mp hn
    obtain ⟨b', hb, hn⟩ := Option.bind_eq_some_iff.mp hn
    obtain ⟨c', hc, hs⟩ := Option.bind_eq_some_iff.mp hn
    exact settled (h.summation (iha ha) (ihb hb) (ihc hc)) hs

end Node

namespace Grammar

/-- The nodes of two operands that stand between operators. -/
inductive Joins : (Node → Node → Node) → Prop where
  | binary (op : BinaryOp) : Joins (.binary op)
  | comparison (op : ComparisonOp) : Joins (.comparison op)
  | logic (op : LogicOp) : Joins (.logic op)

theorem Joins.isConstant {join : Node → Node → Node} (h : Joins join) (left right : Node) :
    (join left right).isConstant = (left.isConstant && right.isConstant) := by
  cases h with
  | binary op => exact Node.isConstant_binary op left right
  | comparison op => exact Node.isConstant_comparison op left right
  | logic op => exact Node.isConstant_logic op left right

/-- It is settled after both operands. -/
theorem Joins.refold {join : Node → Node → Node} (h : Joins join) (settle : Node → Option Node)
    (left right : Node) : (join left right).refold settle =
      (left.refold settle).bind fun left => (right.refold settle).bind fun right =>
        settle (join left right) := by
  cases h <;> rfl

theorem joins_of_mem {l : Level} {sign : String} {join : Node → Node → Node}
    (mem : (sign, join) ∈ l.operators) : Joins join := by
  have hall : ∀ entry ∈ l.operators, Joins entry.2 := by
    cases l <;> simp [Level.operators, Joins.binary, Joins.comparison, Joins.logic]
  exact hall _ mem

theorem Joins.of_refold {join : Node → Node → Node} (h : Joins join) {settle : Node → Option Node}
    {left right node : Node} (hn : (join left right).refold settle = some node) :
    ∃ left' right', left.refold settle = some left' ∧ right.refold settle = some right' ∧
      settle (join left' right') = some node := by
  rw [h.refold] at hn
  obtain ⟨left', hl, hn⟩ := Option.bind_eq_some_iff.mp hn
  obtain ⟨right', hr, hn⟩ := Option.bind_eq_some_iff.mp hn
  exact ⟨left', right', hl, hr, hn⟩

/-- Names stay as they are. -/
theorem StandsFor.refold {inside : Bool} {name : String} {node : Node}
    (h : StandsFor inside name node) (settle : Node → Option Node) :
    node.refold settle = some node := by
  cases h <;> rfl

/-- A call is constant if it has arguments and all of them are. -/
theorem Calls.isConstant {name : String} {args : List Node} {node : Node}
    (h : Calls name args node) : node.isConstant = (!args.isEmpty && args.all Node.isConstant) := by
  cases h <;> simp [Bool.and_assoc]

/-- A call is settled after its arguments. -/
theorem Calls.refold {name : String} {args : List Node} {node node' : Node}
    {settle : Node → Option Node} (h : Calls name args node)
    (hn : node.refold settle = some node') :
    ∃ args' mid, args.mapM (Node.refold settle) = some args' ∧ Calls name args' mid ∧
      settle mid = some node' := by
  cases h with
  | random mem => exact ⟨[], .random, rfl, .random mem, hn⟩
  | unary mem =>
    obtain ⟨arg', ha, hn⟩ := Option.bind_eq_some_iff.mp hn
    exact ⟨[arg'], _, by simp [ha], .unary mem, hn⟩
  | binary mem =>
    obtain ⟨left', right', hl, hr, hn⟩ := (Joins.binary _).of_refold hn
    exact ⟨[left', right'], _, by simp [hl, hr], .binary mem, hn⟩
  | choice =>
    obtain ⟨a, ha, hn⟩ := Option.bind_eq_some_iff.mp hn
    obtain ⟨b, hb, hn⟩ := Option.bind_eq_some_iff.mp hn
    obtain ⟨c, hc, hn⟩ := Option.bind_eq_some_iff.mp hn
    exact ⟨[a, b, c], _, by simp [ha, hb, hc], .choice, hn⟩
  | summation mem =>
    obtain ⟨a, ha, hn⟩ := Option.bind_eq_some_iff.mp hn
    obtain ⟨b, hb, hn⟩ := Option.bind_eq_some_iff.mp hn
    obtain ⟨c, hc, hn⟩ := Option.bind_eq_some_iff.mp hn
    exact ⟨[a, b, c], _, by simp [ha, hb, hc], .summation mem, hn⟩

/-- With as many other arguments something is called, too. -/
theorem Calls.of_length_eq {name : String} {args args' : List Node} {node : Node}
    (h : Calls name args node) (hlen : args'.length = args.length) :
    ∃ node', Calls name args' node' := by
  cases h with
  | random mem =>
    obtain rfl := List.length_eq_zero_iff.mp hlen
    exact ⟨_, .random mem⟩
  | unary mem =>
    obtain ⟨a, rfl⟩ := List.length_eq_one_iff.mp hlen
    exact ⟨_, .unary mem⟩
  | binary mem =>
    obtain ⟨a, b, rfl⟩ := List.length_eq_two.mp hlen
    exact ⟨_, .binary mem⟩
  | choice =>
    obtain ⟨a, b, c, rfl⟩ := List.length_eq_three.mp hlen
    exact ⟨_, .choice⟩
  | summation mem =>
    obtain ⟨a, b, c, rfl⟩ := List.length_eq_three.mp hlen
    exact ⟨_, .summation mem⟩

/-- What is called with settled arguments is what is left to settle of the call without folding. -/
theorem Calls.settled {settle : Node → Option Node} {name : String} {args args' : List Node}
    {node : Node} (h : Calls name args node)
    (hargs : List.Forall₂ (fun arg arg' => Node.refold settle arg' = some arg) args args') :
    ∃ node', Calls name args' node' ∧ node'.refold settle = settle node := by
  cases h with
  | random mem =>
    cases hargs
    exact ⟨_, .random mem, rfl⟩
  | unary mem =>
    obtain _ | ⟨ha, _ | _⟩ := hargs
    exact ⟨_, .unary mem, by simp [Node.refold, ha]⟩
  | binary mem =>
    obtain _ | ⟨ha, _ | ⟨hb, _ | _⟩⟩ := hargs
    exact ⟨_, .binary mem, by simp [Node.refold, ha, hb]⟩
  | choice =>
    obtain _ | ⟨ha, _ | ⟨hb, _ | ⟨hc, _ | _⟩⟩⟩ := hargs
    exact ⟨_, .choice, by simp [Node.refold, ha, hb, hc]⟩
  | summation mem =>
    obtain _ | ⟨ha, _ | ⟨hb, _ | ⟨hc, _ | _⟩⟩⟩ := hargs
    exact ⟨_, .summation mem, by simp [Node.refold, ha, hb, hc]⟩

end Grammar

end Formulae
