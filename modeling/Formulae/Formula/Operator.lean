import Formulae.Number.Truth

/-!
# Operators — the arithmetic, comparisons and logic of formulas

Each kind of operator is a type with the text that writes it and the function it stands for.
Trigonometric functions take degrees. The functions that take two arguments besides the arithmetic
operators are the logarithm to a base and the roundings to a number of decimal places.
-/

namespace Formulae

open Number

/-- Signs, parentheses and functions of one argument. -/
inductive UnaryOp where
  | neg | paren | sqrt | sin | cos | tan | log10 | ln | floor | ceil | round | abs
deriving DecidableEq

namespace UnaryOp

/-- The name in a call, for the functions. -/
def functionName? : UnaryOp → Option String
  | .neg | .paren => none
  | .sqrt => some "sqrt"
  | .sin => some "sin"
  | .cos => some "cos"
  | .tan => some "tan"
  | .log10 => some "log"
  | .ln => some "ln"
  | .floor => some "floor"
  | .ceil => some "ceil"
  | .round => some "round"
  | .abs => some "abs"

/-- The function of one argument that a name calls. -/
def ofFunctionName? : String → Option UnaryOp
  | "sqrt" => some .sqrt
  | "sin" => some .sin
  | "cos" => some .cos
  | "tan" => some .tan
  | "log" | "log10" => some .log10
  | "ln" => some .ln
  | "floor" => some .floor
  | "ceil" | "ceiling" => some .ceil
  | "round" => some .round
  | "abs" | "absolute" => some .abs
  | _ => none

/-- Radians in a degree. -/
def degree : Float := 3.141592653589793 / 180.0

/-- The value at an argument. -/
def apply : UnaryOp → Float → Float
  | .neg, x => -x
  | .paren, x => x
  | .sqrt, x => x.sqrt
  | .sin, x => Float.sin (x * degree)
  | .cos, x => Float.cos (x * degree)
  | .tan, x => Float.tan (x * degree)
  | .log10, x => Float.log10 x
  | .ln, x => Float.log x
  | .floor, x => Number.floor x
  | .ceil, x => Number.ceil x
  | .round, x => Number.round x
  | .abs, x => x.abs

end UnaryOp

/-- Arithmetic and functions of two arguments. -/
inductive BinaryOp where
  | add | sub | mul | div | mod | pow | logBase | floorPlaces | ceilPlaces | roundPlaces
deriving DecidableEq

namespace BinaryOp

/-- The sign between the operands, for the arithmetic operators. -/
def sign? : BinaryOp → Option String
  | .add => some "+"
  | .sub => some "-"
  | .mul => some "*"
  | .div => some "/"
  | .mod => some "%"
  | .pow => some "^"
  | _ => none

/-- The name in a call, for the functions. -/
def functionName? : BinaryOp → Option String
  | .logBase => some "log"
  | .floorPlaces => some "floor"
  | .ceilPlaces => some "ceil"
  | .roundPlaces => some "round"
  | _ => none

/-- The function of two arguments that a name calls. -/
def ofFunctionName? : String → Option BinaryOp
  | "log" | "log10" => some .logBase
  | "floor" => some .floorPlaces
  | "ceil" | "ceiling" => some .ceilPlaces
  | "round" => some .roundPlaces
  | _ => none

/-- The value at two operands. Only a division by zero fails; any other result outside of the numbers
is infinite or not a number. -/
def apply : BinaryOp → Float → Float → Except Fault Float
  | .add, x, y => .ok (x + y)
  | .sub, x, y => .ok (x - y)
  | .mul, x, y => .ok (x * y)
  | .div, x, y => if y == 0.0 then .error (.domain .divideByZero) else .ok (x / y)
  | .mod, x, y => .ok (remainder x y)
  | .pow, x, y => .ok (Float.pow x y)
  | .logBase, x, y => .ok (Float.log x / Float.log y)
  | .floorPlaces, x, y => .ok (atPlaces Number.floor x y)
  | .ceilPlaces, x, y => .ok (atPlaces Number.ceil x y)
  | .roundPlaces, x, y => .ok (atPlaces Number.round x y)

end BinaryOp

/-- Comparisons; equality and inequality have two spellings each. -/
inductive ComparisonOp where
  | lt | le | gt | ge | eq | eqEq | ne | ltGt
deriving DecidableEq

namespace ComparisonOp

/-- The sign between the operands. -/
def sign : ComparisonOp → String
  | .lt => "<"
  | .le => "<="
  | .gt => ">"
  | .ge => ">="
  | .eq => "="
  | .eqEq => "=="
  | .ne => "!="
  | .ltGt => "<>"

/-- The orders of the operands that satisfy the comparison. -/
def accepts : ComparisonOp → Ordering → Bool
  | .lt, o => o == .lt
  | .le, o => o != .gt
  | .gt, o => o == .gt
  | .ge, o => o != .lt
  | .eq, o | .eqEq, o => o == .eq
  | .ne, o | .ltGt, o => o != .eq

/-- The order of two operands, up to the tolerance. -/
def order (x y : Float) : Ordering :=
  if approxEq x y then .eq else if x - y < 0.0 then .lt else .gt

/-- Whether two operands satisfy the comparison. -/
def test (op : ComparisonOp) (x y : Float) : Bool :=
  op.accepts (order x y)

end ComparisonOp

/-- Conjunction and disjunction. -/
inductive LogicOp where
  | and | or
deriving DecidableEq

namespace LogicOp

/-- The sign between the operands. -/
def sign : LogicOp → String
  | .and => "&&"
  | .or => "||"

/-- The value at two operands. -/
def apply : LogicOp → Bool → Bool → Bool
  | .and, x, y => x && y
  | .or, x, y => x || y

end LogicOp

end Formulae
