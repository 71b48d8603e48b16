/-!
# Paint — text in terminal colours

A piece of text is plain or has a colour, the basic red or one of the 256 shades.
-/

namespace Formulae.Report

/-- A terminal colour. -/
inductive Paint where
  | red
  /-- A colour of the 256-colour palette. -/
  | shade (number : Nat)
deriving DecidableEq

/-- The parameter of the escape sequence that turns a colour on. -/
def Paint.code : Paint → String
  | .red => "31"
  | .shade number => "38;5;" ++ toString number

/-- Text with a colour, or without. -/
structure Piece where
  paint : Option Paint
  text : String
deriving DecidableEq

namespace Piece

/-- Text without a colour. -/
def plain (text : String) : Piece := ⟨none, text⟩

/-- Text with a shade. -/
def shaded (number : Nat) (text : String) : Piece := ⟨some (.shade number), text⟩

/-- The text, between escape sequences if it has a colour and colours are wanted. -/
def write (colours : Bool) (p : Piece) : String :=
  match p.paint with
  | some paint =>
    if colours then "\x1b[" ++ paint.code ++ "m" ++ p.text ++ "\x1b[0m" else p.text
  | none => p.text

/-- Pieces one after the other. -/
def writeAll (colours : Bool) (pieces : List Piece) : String :=
  pieces.foldl (fun out p => out ++ p.write colours) ""

end Piece

end Formulae.Report
