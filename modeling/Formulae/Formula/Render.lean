import Formulae.Formula.Node

/-!
# Rendering — writing a tree as text

The plain rendering is the text of the formula: parentheses are nodes of their own, and a folded value is
written as the text it came from. The reduced rendering writes the values of folded subtrees instead,
negative ones between parentheses so that they stay whole as operands.
-/

namespace Formulae.Node

open Number

/-- Operands with a sign between them. -/
def infixText (left sign right : String) : String :=
  left ++ " " ++ sign ++ " " ++ right

/-- A call with its arguments. -/
def callText (name : String) (args : List String) : String :=
  name ++ "(" ++ String.intercalate ", " args ++ ")"

/-- A folded value: the text it came from, or the value itself. -/
def constantText (reduced : Bool) (value : Float) (label : String) : String :=
  if reduced then if value < 0.0 then "(" ++ display value ++ ")" else display value
  else label

/-- A sign, a pair of parentheses or a call of one argument. -/
def unaryText (op : UnaryOp) (arg : String) : String :=
  match op with
  | .neg => "-" ++ arg
  | .paren => "(" ++ arg ++ ")"
  | op => callText (op.functionName?.getD "") [arg]

/-- An arithmetic operator or a call of two arguments. -/
def binaryText (op : BinaryOp) (left right : String) : String :=
  match op.sign? with
  | some sign => infixText left sign right
  | none => callText (op.functionName?.getD "") [left, right]

/-- The tree as text, with the values of folded subtrees if `reduced`. -/
def render (reduced : Bool) : Node → String
  | .number value => display value
  | .constant value label => constantText reduced value label
  | .reference name _ => name
  | .random => callText "rand" []
  | .unary op arg => unaryText op (arg.render reduced)
  | .binary op left right => binaryText op (left.render reduced) (right.render reduced)
  | .comparison op left right => infixText (left.render reduced) op.sign (right.render reduced)
  | .logic op left right => infixText (left.render reduced) op.sign (right.render reduced)
  | .choice test yes no =>
    callText "if" [test.render reduced, yes.render reduced, no.render reduced]
  | .summation lower upper body =>
    callText "sum" [lower.render reduced, upper.render reduced, body.render reduced]
  | .finite (.constant value label) => if reduced then display value else label
  | .finite inner => inner.render reduced

end Formulae.Node
