import Formulae.Fault

/-!
# Truth — tolerance, booleans and finiteness

Numbers closer than `tolerance` count as equal. True is one and false is zero; a number within tolerance
of either is that boolean, any other number is none.
-/

namespace Formulae.Number

/-- The distance below which two numbers count as equal. -/
def tolerance : Float := 1e-10

/-- Whether two numbers count as equal. -/
def approxEq (a b : Float) : Bool :=
  (a - b).abs < tolerance

/-- The number of a boolean. -/
def ofBool (b : Bool) : Float :=
  if b then 1.0 else 0.0

/-- The boolean of a number. -/
def toBool (value : Float) : Except Fault Bool :=
  if approxEq value (ofBool true) then .ok true
  else if approxEq value (ofBool false) then .ok false
  else .error (.notBoolean value)

/-- The number itself if it is finite. -/
def checkFinite (value : Float) : Except Fault Float :=
  if value.isNaN then .error (.domain .notANumber)
  else if value.isInf then .error (.domain .infinite)
  else .ok value

/-- A rounding at so many decimal places. -/
def atPlaces (rounding : Float → Float) (value places : Float) : Float :=
  let scale := Float.pow 10.0 places
  rounding (value * scale) / scale

end Formulae.Number
