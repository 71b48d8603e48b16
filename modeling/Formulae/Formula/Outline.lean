import Formulae.Formula.Node
import Formulae.Text.Quoted

/-!
# Outlines — a tree with one field to a line

An outline is a list of lines. The fields of a node stand between brackets or braces, four columns
further to the right, each followed by a comma.
-/

namespace Formulae.Node

open Number

/-- One field: its name, if it has one, in front, and a comma after its last line. -/
def fieldLines (label : Option String) : List String → List String
  | [] => []
  | first :: rest =>
    let first := match label with
      | some label => label ++ ": " ++ first
      | none => first
    let lines := first :: rest
    (lines.dropLast ++ [lines.getLastD "" ++ ","]).map ("    " ++ ·)

/-- A constructor with unnamed fields. -/
def tupleLines (name : String) (fields : List (List String)) : List String :=
  (name ++ "(") :: fields.flatMap (fieldLines none) ++ [")"]

/-- A constructor with named fields. -/
def recordLines (name : String) (fields : List (String × List String)) : List String :=
  (name ++ " \x7b") :: fields.flatMap (fun field => fieldLines (some field.1) field.2) ++ ["\x7d"]

/-- The name of an operator in an outline. -/
def unaryTag : UnaryOp → String
  | .neg => "Neg"
  | .paren => "Paren"
  | .sqrt => "Sqrt"
  | .sin => "Sin"
  | .cos => "Cos"
  | .tan => "Tan"
  | .log10 => "Log10"
  | .ln => "Ln"
  | .floor => "Floor"
  | .ceil => "Ceil"
  | .round => "Round"
  | .abs => "Abs"

/-- The name of an operator in an outline. -/
def binaryTag : BinaryOp → String
  | .add => "Add"
  | .sub => "Sub"
  | .mul => "Mul"
  | .div => "Div"
  | .mod => "Mod"
  | .pow => "Pow"
  | .logBase => "LogBase"
  | .floorPlaces => "FloorPlaces"
  | .ceilPlaces => "CeilPlaces"
  | .roundPlaces => "RoundPlaces"

/-- The name of an operator in an outline. -/
def comparisonTag : ComparisonOp → String
  | .lt => "Lt"
  | .le => "Le"
  | .gt => "Gt"
  | .ge => "Ge"
  | .eq => "Eq"
  | .eqEq => "EqEq"
  | .ne => "Ne"
  | .ltGt => "LtGt"

/-- The name of an operator in an outline. -/
def logicTag : LogicOp → String
  | .and => "And"
  | .or => "Or"

/-- The lines of a number. -/
def numberLines (value : Float) : List String :=
  [Layout.explicit.text value]

/-- The lines of a node with an operator and two operands. -/
def operatorLines (name tag : String) (left right : List String) : List String :=
  recordLines name [("op", [tag]), ("left", left), ("right", right)]

/-- The lines of a tree. -/
def outline : Node → List String
  | .number value => tupleLines "Number" [numberLines value]
  | .constant value label =>
    recordLines "Constant" [("value", numberLines value), ("label", [Text.quoted label])]
  | .reference name inSummation =>
    recordLines "Variable"
      [("name", [Text.quoted name]), ("in_summation", [if inSummation then "true" else "false"])]
  | .random => tupleLines "Nullary" [["Random"]]
  | .unary op arg => recordLines "Unary" [("op", [unaryTag op]), ("arg", arg.outline)]
  | .binary op left right => operatorLines "Binary" (binaryTag op) left.outline right.outline
  | .comparison op left right =>
    operatorLines "Comparison" (comparisonTag op) left.outline right.outline
  | .logic op left right => operatorLines "Logic" (logicTag op) left.outline right.outline
  | .choice test yes no =>
    recordLines "Trinary"
      [("op", ["If"]), ("first", test.outline), ("second", yes.outline), ("third", no.outline)]
  | .summation lower upper body =>
    recordLines "Summation"
      [("from", lower.outline), ("to", upper.outline), ("body", body.outline)]
  | .finite inner => tupleLines "Finite" [inner.outline]

/-- The outline as one text. -/
def outlineText (node : Node) : String :=
  String.intercalate "\n" node.outline

end Formulae.Node
