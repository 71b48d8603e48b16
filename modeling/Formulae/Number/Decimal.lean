import Formulae.Number.Dyadic

/-!
# Decimal — writing a number with the fewest digits that read back

The doubles nearest to a real number `v` form an interval around each double; its ends belong to it iff
the significand is even. The digits of a double are the point of the coarsest decimal grid that lies in
its interval, the nearest one if two do, the upper one on a tie.

* `shortest` finds those digits.
* `Layout` says how they are laid out: `plain` never uses an exponent and writes whole numbers without a
  point, `explicit` keeps a point and uses an exponent for very small and very large magnitudes.
-/

namespace Formulae.Number

/-- The decimal number `digits · 10 ^ exponent`. -/
structure Decimal where
  digits : Nat
  exponent : Int
deriving Repr, DecidableEq

/-- A value with the ends of the interval of reals that round to it, over a common denominator. -/
structure Interval where
  low : Nat
  value : Nat
  high : Nat
  denominator : Nat
  /-- Whether the ends round to the value too. -/
  closed : Bool

namespace Interval

/-- The interval of reals that round to `d`, a quarter of a unit in the last place being one. -/
def ofDyadic (d : Dyadic) : Interval :=
  let scale := Nat.pow 2 (d.exponent - 2).toNat
  let low := if d.significand = Dyadic.hidden && -1074 < d.exponent then 4 * d.significand - 1
    else 4 * d.significand - 2
  { low := low * scale
    value := 4 * d.significand * scale
    high := (4 * d.significand + 2) * scale
    denominator := Nat.pow 2 (2 - d.exponent).toNat
    closed := d.significand % 2 == 0 }

/-- Measured in units of `10 ^ exponent`. -/
def inUnits (i : Interval) (exponent : Int) : Interval :=
  let up := Nat.pow 10 (-exponent).toNat
  { i with
    low := i.low * up
    value := i.value * up
    high := i.high * up
    denominator := i.denominator * Nat.pow 10 exponent.toNat }

/-- Whether `n` units lie in the interval. -/
def holds (i : Interval) (n : Nat) : Bool :=
  let m := n * i.denominator
  if i.closed then i.low ≤ m && m ≤ i.high else i.low < m && m < i.high

/-- The whole number of units that lies in the interval and is nearest to the value, a tie going up. -/
def nearest? (i : Interval) : Option Nat :=
  let below := i.value / i.denominator
  match i.holds below, i.holds (below + 1) with
  | false, false => none
  | true, false => some below
  | false, true => some (below + 1)
  | true, true =>
    if 2 * (i.value % i.denominator) < i.denominator then some below else some (below + 1)

end Interval

/-- The first grid, from `10 ^ exponent` down, with a point in the interval. -/
def firstGrid (i : Interval) : Nat → Int → Decimal
  | 0, exponent => ⟨0, exponent⟩
  | n + 1, exponent =>
    match (i.inUnits exponent).nearest? with
    | some digits => ⟨digits, exponent⟩
    | none => firstGrid i n (exponent - 1)

/-- An exponent of ten no smaller than that of the leading digit. -/
def leadingExponent (d : Dyadic) : Int :=
  ((d.significand.log2 : Int) + d.exponent) * 30103 / 100000 + 1

/-- A value without zeros at its end. -/
def Decimal.trim : Nat → Decimal → Decimal
  | 0, d => d
  | n + 1, d => if d.digits % 10 = 0 then Decimal.trim n ⟨d.digits / 10, d.exponent + 1⟩ else d

/-- The fewest digits that read back as a positive value. -/
def shortest (d : Dyadic) : Decimal :=
  (firstGrid (Interval.ofDyadic d) 22 (leadingExponent d)).trim 22

/-- How the digits of a number are laid out. -/
structure Layout where
  /-- Whether a whole number is followed by a point and a zero. -/
  wholePoint : Bool
  /-- The exponents of the leading digit that are written without an exponent, if they are bounded. -/
  positional : Option (Int × Int)

namespace Layout

/-- Never an exponent, and no point after a whole number. -/
def plain : Layout := ⟨false, none⟩

/-- A point always, unless an exponent is written: below `1e-4` and from `1e16` on. -/
def explicit : Layout := ⟨true, some (-4, 15)⟩

/-- The decimal digits of a natural number. -/
def digitText (n : Nat) : String := String.ofList (Nat.toDigits 10 n)

/-- So many zeros. -/
def zeros (n : Nat) : String := String.ofList (List.replicate n '0')

/-- Digits with the point where the exponent puts it. -/
def position (layout : Layout) (d : Decimal) : String :=
  let text := digitText d.digits
  if 0 ≤ d.exponent then
    text ++ zeros d.exponent.toNat ++ if layout.wholePoint then ".0" else ""
  else
    let places := (-d.exponent).toNat
    let padded := zeros (places + 1 - text.length) ++ text
    let cut := padded.length - places
    String.ofList (padded.toList.take cut) ++ "." ++ String.ofList (padded.toList.drop cut)

/-- One digit, the others after a point, and the exponent. -/
def scientific (d : Decimal) : String :=
  let text := (digitText d.digits).toList
  let lead := d.exponent + (text.length : Int) - 1
  let mantissa := match text with
    | first :: [] => String.ofList [first]
    | first :: rest => String.ofList (first :: '.' :: rest)
    | [] => ""
  mantissa ++ "e" ++ (if lead < 0 then "-" else "") ++ digitText lead.natAbs

/-- A positive decimal number. -/
def decimal (layout : Layout) (d : Decimal) : String :=
  let lead := d.exponent + ((digitText d.digits).length : Int) - 1
  match layout.positional with
  | none => layout.position d
  | some (least, most) =>
    if least ≤ lead && lead ≤ most then layout.position d else scientific d

/-- A number as text. -/
def text (layout : Layout) (x : Float) : String :=
  match Dyadic.ofFloat? x with
  | none => if x.isNaN then "NaN" else if x < 0 then "-inf" else "inf"
  | some d =>
    let magnitude :=
      if d.significand = 0 then layout.position ⟨0, 0⟩ else layout.decimal (shortest d)
    if d.negative then "-" ++ magnitude else magnitude

end Layout

/-- A number as the program prints it. -/
def display (x : Float) : String := Layout.plain.text x

end Formulae.Number
