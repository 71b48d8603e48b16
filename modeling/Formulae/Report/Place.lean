import Formulae.Reading.Cursor

/-!
# Places — the line and column of a byte offset

A line ends with a line feed, a carriage return, both in this order, or one of the other characters that
end lines. The end of a text belongs to its last line, so a terminator at the very end starts no line.
-/

namespace Formulae.Report

open Text

/-- A character that ends a line. -/
def isTerminator (c : Char) : Bool :=
  c == '\n' || c == '\r' || c == '\x0B' || c == '\x0C' || c == '\u0085' || c == '\u2028' ||
    c == '\u2029'

/-- A place in a text. -/
structure Place where
  /-- The number of the line, from one. -/
  line : Nat
  /-- The characters of the line before the place. -/
  column : Nat
  /-- The text from the start of the line on. -/
  tail : List Char

/-- The place of a byte offset: `rest` follows after `offset` bytes in the line `line`, which starts
with `tail` and of which `column` characters were passed. -/
def locateFrom (target : Nat) : List Char → Nat → Nat → Nat → List Char → Place
  | [], _, line, column, tail => ⟨line, column, tail⟩
  | c :: rest, offset, line, column, tail =>
    if target ≤ offset then ⟨line, column, tail⟩
    else if isTerminator c && !rest.isEmpty && !(c == '\r' && rest.head? == some '\n') then
      locateFrom target rest (offset + c.utf8Size) (line + 1) 0 rest
    else locateFrom target rest (offset + c.utf8Size) line (column + 1) tail

/-- The place of a byte offset of a text. -/
def locate (source : String) (target : Nat) : Place :=
  locateFrom target source.toList 0 1 0 source.toList

/-- A list without the elements at its end that satisfy a test. -/
def dropEndWhile (p : Char → Bool) (chars : List Char) : List Char :=
  (chars.reverse.dropWhile p).reverse

/-- The line without the blanks at its end. -/
def Place.text (p : Place) : List Char :=
  dropEndWhile isBlank (p.tail.takeWhile fun c => !isTerminator c)

end Formulae.Report
