/-!
# Dyadic — the exact value of a floating-point number

A finite double is `± significand · 2 ^ exponent` with natural `significand`, so rounding to an integer
and taking a remainder are exact computations on integers.

* `Dyadic.ofFloat?` decodes a double, `Dyadic.toFloat` encodes a value that a double can hold.
* `floor`, `ceil`, `round` are the integers below, above and nearest (a half goes away from zero);
  the sign of a zero result is the sign of the argument.
* `remainder x y` has the sign of `x` and less than the magnitude of `y`.
-/

namespace Formulae.Number

/-- The number `± significand · 2 ^ exponent`. -/
structure Dyadic where
  negative : Bool
  significand : Nat
  exponent : Int
deriving Repr, DecidableEq

namespace Dyadic

/-- The leading bit of a significand, which the encoding of a normal double leaves out. -/
def hidden : Nat := Nat.pow 2 52

/-- The exact value of a double, unless it is infinite or not a number. -/
def ofFloat? (x : Float) : Option Dyadic :=
  let bits := x.toBits.toNat
  let negative := decide (bits >>> 63 = 1)
  let biased := bits >>> 52 % 2048
  let fraction := bits % hidden
  if biased = 2047 then none
  else if biased = 0 then some ⟨negative, fraction, -1074⟩
  else some ⟨negative, hidden + fraction, (biased : Int) - 1075⟩

/-- The sign bit as it stands in the encoding. -/
def signBits (negative : Bool) : Nat :=
  if negative then Nat.pow 2 63 else 0

/-- The double of a value whose significand is below `2 ^ 53` and whose exponent is in range. -/
def toFloat (d : Dyadic) : Float :=
  let top := d.significand.log2
  let scale := (top : Int) + d.exponent
  let magnitude :=
    if d.significand = 0 then 0
    else if -1022 ≤ scale then
      (scale + 1023).toNat * hidden + (d.significand <<< (52 - top) - hidden)
    else d.significand <<< (d.exponent + 1074).toNat
  Float.ofBits (UInt64.ofNat (signBits d.negative + magnitude))

/-- The whole part of the magnitude. -/
def whole (d : Dyadic) : Nat :=
  if 0 ≤ d.exponent then d.significand <<< d.exponent.toNat
  else d.significand >>> (-d.exponent).toNat

/-- One, measured in units of the last place, where the exponent is negative. -/
def unit (d : Dyadic) : Nat :=
  Nat.pow 2 (-d.exponent).toNat

/-- Twice the part of the magnitude after the point, compared with one. -/
def compareHalf (d : Dyadic) : Ordering :=
  if 0 ≤ d.exponent then .lt
  else
    compare (2 * (d.significand % d.unit)) d.unit

/-- Whether anything stands after the point. -/
def hasFraction (d : Dyadic) : Bool :=
  !decide (0 ≤ d.exponent) && d.significand % d.unit != 0

end Dyadic

/-- A rule that rounds a magnitude up (`true`) or down to a whole number. -/
abbrev Rounding := Dyadic → Bool

/-- Down towards minus infinity. -/
def downward : Rounding := fun d => d.negative && d.hasFraction

/-- Up towards plus infinity. -/
def upward : Rounding := fun d => !d.negative && d.hasFraction

/-- To the nearest whole number, a half away from zero. -/
def halfAway : Rounding := fun d => d.compareHalf != .lt

/-- The whole number that a rule selects; what is already whole, infinite or not a number is kept. -/
def roundBy (rule : Rounding) (x : Float) : Float :=
  match Dyadic.ofFloat? x with
  | none => x
  | some d =>
    if 0 ≤ d.exponent then x
    else
      let magnitude := Float.ofNat (d.whole + if rule d then 1 else 0)
      if d.negative then -magnitude else magnitude

/-- The greatest whole number not above `x`. -/
def floor (x : Float) : Float := roundBy downward x

/-- The least whole number not below `x`. -/
def ceil (x : Float) : Float := roundBy upward x

/-- The nearest whole number, a half away from zero. -/
def round (x : Float) : Float := roundBy halfAway x

/-- Not a number. -/
def notANumber : Float := 0.0 / 0.0

/-- What is left of `x` after taking away `y` as often as it fits, with the sign of `x`. -/
def remainder (x y : Float) : Float :=
  match Dyadic.ofFloat? x, Dyadic.ofFloat? y with
  | some a, some b =>
    if b.significand = 0 then notANumber
    else
      let e := min a.exponent b.exponent
      let r := a.significand <<< (a.exponent - e).toNat % b.significand <<< (b.exponent - e).toNat
      Dyadic.toFloat ⟨a.negative, r, e⟩
  | some _, none => if y.isNaN then y else x
  | none, _ => notANumber

end Formulae.Number
