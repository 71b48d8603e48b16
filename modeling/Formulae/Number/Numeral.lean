import Formulae.Text.Word

/-!
# Numerals — numbers as they are written in a formula

A numeral is the longest run of digits and points, followed by an exponent if an `e` is followed by a
digit, with or without a sign between them. It denotes a number if it has a digit and at most one point.

* `scan` cuts the numeral off the start of a text.
* `value?` is the finite double nearest to what it denotes.
-/

namespace Formulae.Number.Numeral

open Formulae.Text

/-- A character of a numeral before its exponent. -/
def isMantissaChar (c : Char) : Bool :=
  isDigit c || c == '.'

/-- The exponent at the start of a text, empty if no digit follows the `e`. -/
def scanExponent : List Char → List Char
  | e :: rest =>
    if e = 'e' ∨ e = 'E' then
      match rest with
      | sign :: digits =>
        if sign = '+' ∨ sign = '-' then
          if digits.head?.any isDigit then e :: sign :: digits.takeWhile isDigit else []
        else if isDigit sign then e :: rest.takeWhile isDigit
        else []
      | [] => []
    else []
  | [] => []

/-- The numeral at the start of a text. -/
def scan (text : List Char) : List Char :=
  text.takeWhile isMantissaChar ++ scanExponent (text.dropWhile isMantissaChar)

/-- The value of a run of digits. -/
def digitsValue (digits : List Char) : Nat :=
  digits.foldl (fun n c => 10 * n + (c.toNat - '0'.toNat)) 0

/-- The exponent that follows the mantissa, zero if there is none. -/
def exponentValue : List Char → Int
  | _ :: '-' :: digits => -(digitsValue digits : Int)
  | _ :: '+' :: digits => digitsValue digits
  | _ :: digits => digitsValue digits
  | [] => 0

/-- The double nearest to `digits · 10 ^ exponent`; far outside the range of doubles it is zero or
infinite whatever the digits are. -/
def scaled (digits : Nat) (exponent : Int) : Float :=
  let size := (Nat.toDigits 10 digits).length + exponent
  if digits = 0 || size < -400 then 0.0
  else if 400 < size then 1.0 / 0.0
  else if exponent < 0 then Float.ofScientific digits true exponent.natAbs
  else Float.ofScientific digits false exponent.natAbs

/-- The nearest double to what a numeral denotes, possibly infinite; `none` if it denotes nothing. -/
def nearest? (text : List Char) : Option Float :=
  let mantissa := text.takeWhile isMantissaChar
  let wholePart := mantissa.takeWhile isDigit
  let fraction := (mantissa.dropWhile isDigit).drop 1
  if wholePart.isEmpty && fraction.isEmpty then none
  else if fraction.all isDigit then
    let exponent := exponentValue (text.dropWhile isMantissaChar)
    some (scaled (digitsValue (wholePart ++ fraction)) (exponent - fraction.length))
  else none

/-- The finite double that a numeral denotes. -/
def value? (text : List Char) : Option Float :=
  (nearest? text).filter Float.isFinite

end Formulae.Number.Numeral
