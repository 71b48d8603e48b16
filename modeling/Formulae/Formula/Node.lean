import Formulae.Formula.Operator

/-!
# Nodes — the tree of a formula

* `Node` is the tree; `Node.size` counts its nodes.
* `Node.isConstant` tells whether a tree needs no bindings, by a walk over the nodes still to be seen.
-/

namespace Formulae

/-- The name of the index of a summation. -/
def summationIndex : String := "n"

/-- The tree of a formula. -/
inductive Node where
  /-- A numeral. -/
  | number (value : Float)
  /-- A value with the text that stands for it: a named constant, or what a constant subtree came to. -/
  | constant (value : Float) (label : String)
  /-- A name, and whether it stands among the arguments of a summation. -/
  | reference (name : String) (inSummation : Bool)
  /-- A random number. -/
  | random
  | unary (op : UnaryOp) (arg : Node)
  | binary (op : BinaryOp) (left right : Node)
  | comparison (op : ComparisonOp) (left right : Node)
  | logic (op : LogicOp) (left right : Node)
  /-- The second subtree if the first is true, else the third. -/
  | choice (test yes no : Node)
  /-- The sum of the body over an index from the lower to the upper bound. -/
  | summation (lower upper body : Node)
  /-- The outermost node of a formula, which lets only finite values pass. -/
  | finite (inner : Node)
deriving BEq, DecidableEq

namespace Node

/-- How many nodes the tree has. -/
def size : Node → Nat
  | .number _ | .constant _ _ | .reference _ _ | .random => 1
  | .unary _ arg | .finite arg => arg.size + 1
  | .binary _ left right | .comparison _ left right | .logic _ left right =>
    left.size + right.size + 1
  | .choice a b c | .summation a b c => a.size + b.size + c.size + 1

/-- Whether the node is a value already. -/
def isLiteral : Node → Bool
  | .number _ | .constant _ _ => true
  | _ => false

/-- The constants that have names. -/
def namedConstant? : String → Option Node
  | "pi" => some (.constant 3.141592653589793 "pi")
  | "e" => some (.constant 2.718281828459045 "e")
  | "true" => some (.constant (Number.ofBool true) "true")
  | "false" => some (.constant (Number.ofBool false) "false")
  | _ => none

/-- Whether a name is the index of the summation it stands in. -/
def isBoundIndex (name : String) (inSummation : Bool) : Bool :=
  inSummation && name == summationIndex

/-- The subtrees right below a node, the last one first. -/
def childrenReversed : Node → List Node
  | .number _ | .constant _ _ | .reference _ _ | .random => []
  | .unary _ arg | .finite arg => [arg]
  | .binary _ left right | .comparison _ left right | .logic _ left right => [right, left]
  | .choice a b c | .summation a b c => [c, b, a]

/-- Whether a node by itself, without its subtrees, needs no binding. -/
def isSelfContained : Node → Bool
  | .reference name inSummation => isBoundIndex name inSummation
  | .random => false
  | _ => true

/-- How many nodes some trees have together. -/
def sizeAll : List Node → Nat
  | [] => 0
  | node :: rest => node.size + sizeAll rest

theorem sizeAll_append (a b : List Node) : sizeAll (a ++ b) = sizeAll a + sizeAll b := by
  induction a with
  | nil => simp [sizeAll]
  | cons node rest ih => simp [sizeAll, ih, Nat.add_assoc]

theorem sizeAll_childrenReversed (node : Node) : sizeAll node.childrenReversed < node.size := by
  cases node <;> simp +arith [childrenReversed, size, sizeAll]

/-- Whether all of the pending trees need no bindings. The latest tree is looked at first, and its
subtrees are put before the others. -/
def allConstant (pending : List Node) : Bool :=
  match pending with
  | [] => true
  | node :: rest =>
    if node.isSelfContained then allConstant (node.childrenReversed ++ rest) else false
termination_by sizeAll pending
decreasing_by
  have := sizeAll_childrenReversed node
  rw [sizeAll_append, sizeAll]
  omega

/-- Whether the tree evaluates without bindings and without drawing random numbers. The index of a
summation counts as constant, since every iteration binds it. -/
def isConstant (node : Node) : Bool :=
  allConstant [node]

end Node

end Formulae
