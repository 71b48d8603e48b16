import Formulae.Formula.Node

/-!
# Proofs.Constancy — constancy along the tree

`Node.isConstant` walks over a list of pending subtrees. It is the conjunction of `Node.isSelfContained`
over the whole tree, so it can be computed along the tree (`isConstant_unary` and its companions).

`Node.leaves` lists the leaves of a tree, each with whether it stands in the body of a summation; a constant
tree has only constant ones.
-/

namespace Formulae.Node

/-- Whether the node and all nodes below it are self-contained. -/
@[simp] def isClosed : Node → Bool
  | .number _ | .constant _ _ => true
  | .reference name inSummation => isBoundIndex name inSummation
  | .random => false
  | .unary _ arg | .finite arg => arg.isClosed
  | .binary _ left right | .comparison _ left right | .logic _ left right =>
    left.isClosed && right.isClosed
  | .choice a b c | .summation a b c => a.isClosed && b.isClosed && c.isClosed

theorem isClosed_eq (node : Node) :
    node.isClosed = (node.isSelfContained && node.childrenReversed.all isClosed) := by
  cases node <;> simp [isSelfContained, childrenReversed, Bool.and_comm]

theorem allConstant_eq_all (pending : List Node) : allConstant pending = pending.all isClosed := by
  fun_induction allConstant pending with
  | case1 => rfl
  | case2 node rest h ih =>
    rw [ih, List.all_append, List.all_cons, isClosed_eq, h, Bool.true_and]
  | case3 node rest h =>
    have hs : node.isSelfContained = false := by simpa using h
    rw [List.all_cons, isClosed_eq, hs, Bool.false_and, Bool.false_and]

theorem isConstant_eq_isClosed (node : Node) : node.isConstant = node.isClosed := by
  simp [isConstant, allConstant_eq_all]

@[simp] theorem isConstant_number (value : Float) : (number value).isConstant = true := by
  simp [isConstant_eq_isClosed]

@[simp] theorem isConstant_constant (value : Float) (label : String) :
    (constant value label).isConstant = true := by
  simp [isConstant_eq_isClosed]

@[simp] theorem isConstant_reference (name : String) (inSummation : Bool) :
    (reference name inSummation).isConstant = isBoundIndex name inSummation := by
  simp [isConstant_eq_isClosed]

@[simp] theorem isConstant_random : random.isConstant = false := by
  simp [isConstant_eq_isClosed]

@[simp] theorem isConstant_unary (op : UnaryOp) (arg : Node) :
    (unary op arg).isConstant = arg.isConstant := by
  simp [isConstant_eq_isClosed]

@[simp] theorem isConstant_binary (op : BinaryOp) (left right : Node) :
    (binary op left right).isConstant = (left.isConstant && right.isConstant) := by
  simp [isConstant_eq_isClosed]

@[simp] theorem isConstant_comparison (op : ComparisonOp) (left right : Node) :
    (comparison op left right).isConstant = (left.isConstant && right.isConstant) := by
  simp [isConstant_eq_isClosed]

@[simp] theorem isConstant_logic (op : LogicOp) (left right : Node) :
    (logic op left right).isConstant = (left.isConstant && right.isConstant) := by
  simp [isConstant_eq_isClosed]

@[simp] theorem isConstant_choice (test yes no : Node) :
    (choice test yes no).isConstant = (test.isConstant && yes.isConstant && no.isConstant) := by
  simp [isConstant_eq_isClosed]

@[simp] theorem isConstant_summation (lower upper body : Node) :
    (summation lower upper body).isConstant =
      (lower.isConstant && upper.isConstant && body.isConstant) := by
  simp [isConstant_eq_isClosed]

@[simp] theorem isConstant_finite (inner : Node) : (finite inner).isConstant = inner.isConstant := by
  simp [isConstant_eq_isClosed]

/-- The leaves of a tree, each with whether it stands in the body of a summation of the tree or the tree
itself does. -/
def leaves (inBody : Bool) : Node → List (Node × Bool)
  | .unary _ arg | .finite arg => arg.leaves inBody
  | .binary _ left right | .comparison _ left right | .logic _ left right =>
    left.leaves inBody ++ right.leaves inBody
  | .choice a b c => a.leaves inBody ++ b.leaves inBody ++ c.leaves inBody
  | .summation lower upper body => lower.leaves inBody ++ upper.leaves inBody ++ body.leaves true
  | leaf => [(leaf, inBody)]

theorem childrenReversed_of_mem_leaves {node leaf : Node} {inBody within : Bool}
    (h : (leaf, within) ∈ node.leaves inBody) : leaf.childrenReversed = [] := by
  induction node generalizing inBody with
  | number | constant | reference | random =>
    obtain ⟨rfl, rfl⟩ := Prod.mk.inj (List.mem_singleton.mp h)
    rfl
  | unary _ _ ih | finite _ ih => exact ih h
  | binary _ _ _ iha ihb | comparison _ _ _ iha ihb | logic _ _ _ iha ihb =>
    rcases List.mem_append.mp h with h | h
    · exact iha h
    · exact ihb h
  | choice _ _ _ iha ihb ihc | summation _ _ _ iha ihb ihc =>
    rcases List.mem_append.mp h with h | h
    · rcases List.mem_append.mp h with h | h
      · exact iha h
      · exact ihb h
    · exact ihc h

theorem isClosed_of_mem_leaves {node leaf : Node} {inBody within : Bool}
    (hc : node.isClosed = true) (h : (leaf, within) ∈ node.leaves inBody) : leaf.isClosed = true := by
  induction node generalizing inBody with
  | number | constant | reference | random =>
    obtain ⟨rfl, rfl⟩ := Prod.mk.inj (List.mem_singleton.mp h)
    exact hc
  | unary _ _ ih | finite _ ih => exact ih hc h
  | binary _ _ _ iha ihb | comparison _ _ _ iha ihb | logic _ _ _ iha ihb =>
    obtain ⟨ha, hb⟩ := (Bool.and_eq_true _ _).mp hc
    rcases List.mem_append.mp h with h | h
    · exact iha ha h
    · exact ihb hb h
  | choice _ _ _ iha ihb ihc | summation _ _ _ iha ihb ihc =>
    obtain ⟨hab, hc⟩ := (Bool.and_eq_true _ _).mp hc
    obtain ⟨ha, hb⟩ := (Bool.and_eq_true _ _).mp hab
    rcases List.mem_append.mp h with h | h
    · rcases List.mem_append.mp h with h | h
      · exact iha ha h
      · exact ihb hb h
    · exact ihc hc h

end Formulae.Node
