import Formulae.Report.Paint
import Formulae.Report.Place
import Formulae.Text.Width

/-!
# Reports — faults as they are shown to a reader

A fault in a text is drawn below the line where it was found: the line stands in a frame, an arrow points
to the character, and the cause stands beside the arrow. Any other fault is one line of text.
-/

namespace Formulae.Report

open Text

/-- The shade of the frame. -/
def frameShade : Nat := 246

/-- The shade of the margin beside the arrow. -/
def marginShade : Nat := 240

/-- The shade of the text around the marked character. -/
def sourceShade : Nat := 249

/-- The shade of the marked character and the arrow. -/
def markShade : Nat := 155

/-- The shade of the word that introduces a hint. -/
def hintShade : Nat := 115

/-- So many spaces. -/
def blanks (n : Nat) : String := String.ofList (List.replicate n ' ')

/-- So many strokes of an arrow, each a piece of its own. -/
def strokes (stroke : String) (n : Nat) : List Piece :=
  List.replicate n (.shaded markShade stroke)

/-- Columns of the character with that index in its line. A tab reaches to the next multiple of four. -/
def columns (index : Nat) (c : Char) : Nat :=
  if c = '\t' then 4 - index % 4
  else if isBlank c then 1
  else width c

/-- Columns at an index of a line; past its end each index takes one. -/
def columnsAt (text : List Char) (index : Nat) : Nat :=
  match text[index]? with
  | some c => columns index c
  | none => 1

/-- A character as it is drawn. -/
def drawn (index : Nat) (shade : Nat) (c : Char) : List Piece :=
  if isBlank c then List.replicate (columns index c) (.shaded shade " ")
  else [.shaded shade c.toString]

/-- The line, with the character at `marked` in another shade. -/
def drawnLine (text : List Char) (marked : Option Nat) : List Piece :=
  text.zipIdx.flatMap fun (c, index) =>
    drawn index (if marked = some index then markShade else sourceShade) c

/-- What precedes the arrow: a blank for each column before the place. -/
def indent (text : List Char) (column : Nat) : List Piece :=
  [.plain (blanks ((List.range column).foldl (fun n index => n + columnsAt text index) 0))]

/-- The upper row of the arrow below a character: its head and blanks for two characters more. -/
def upperArrow (text : List Char) (column : Nat) : List Piece :=
  let width := columnsAt text column
  strokes "┬" (min 1 width) ++ strokes "─" (width - 1) ++
    [.plain (blanks (columnsAt text (column + 1) + columnsAt text (column + 2)))]

/-- The lower row of the arrow below a character: its bend and a line for two characters more. -/
def lowerArrow (text : List Char) (column : Nat) : List Piece :=
  let width := columnsAt text column
  strokes "╰" (min 1 width) ++
    strokes "─" ((width - 1) + columnsAt text (column + 1) + columnsAt text (column + 2))

/-- The margin of the rows below the line. -/
def margin (digits : Nat) : List Piece :=
  [.plain " ", .shaded marginShade (blanks (digits + 1) ++ "│"), .plain " "]

/-- The frame with the line, the arrow, the cause and the hint, row by row. -/
def rows (fault : SyntaxFault) : List (List Piece) :=
  let size := fault.source.utf8ByteSize
  let target := min fault.position size
  let place := locate fault.source target
  let text := place.text
  let number := toString place.line
  let digits := number.length
  let side := margin digits
  let onCharacter := target < size
  let upper := if onCharacter then upperArrow text place.column
    else [.shaded markShade "│", .plain " "]
  let lower := if onCharacter then lowerArrow text place.column
    else [.shaded markShade "╰", .shaded markShade "─"]
  let frame := Piece.shaded frameShade
  let marked := if onCharacter then some place.column else none
  [ [⟨some .red, "Error:"⟩, .plain (" Parse error at position " ++ toString fault.position)],
    [.plain (blanks (digits + 2)), frame "╭", frame "─", frame "[",
      .plain (" <formula>:" ++ number ++ ":" ++ toString (place.column + 1) ++ " "), frame "]"],
    [.plain (blanks (digits + 2)), frame "│"],
    [.plain " ", frame (number ++ " │"), .plain " "] ++ drawnLine text marked,
    side ++ indent text place.column ++ upper,
    side ++ indent text place.column ++ lower ++ [.plain (" " ++ fault.cause.message)] ] ++
  (match fault.help with
    | some help => [side, side ++ [.shaded hintShade "Help", .plain (": " ++ help)]]
    | none => []) ++
  [[frame (String.ofList (List.replicate (digits + 2) '─') ++ "╯")]]

/-- The report of a fault, each row ended by a line feed. -/
def ofFault (colours : Bool) : Fault → String
  | .syntactic fault =>
    (rows fault).foldl (fun out row => out ++ Piece.writeAll colours row ++ "\n") ""
  | fault => "Error: " ++ fault.message ++ "\n"

end Formulae.Report
