import Formulae.Console.Token

/-!
# Highlighting — the colours of a line

Numbers and named constants, functions, variables, operators and stray characters have a colour each;
parentheses, commas and gaps have the colour of plain text. A name is a function if a parenthesis
follows at once.
-/

namespace Formulae.Console

/-- The colours of a line. -/
inductive Hue where
  | white | cyan | blue | red | magenta | darkGray
deriving DecidableEq

/-- The names of constants. -/
def constantNames : List String := ["pi", "e", "true", "false"]

/-- Whether a parenthesis opens right behind, at the start of the remaining tokens. -/
def opensAtOnce : List Token → Bool
  | next :: _ => next.gap.isEmpty && next.kind == .open
  | [] => false

/-- The colour of a token before the remaining ones. -/
def hue (t : Token) (following : List Token) : Hue :=
  match t.kind with
  | .numeral => .cyan
  | .name =>
    if opensAtOnce following then .blue
    else if constantNames.contains (String.ofList t.text) then .cyan
    else .red
  | .operator => .magenta
  | .open | .close | .comma => .white
  | .stray => .darkGray

/-- A gap, if it is not empty. -/
def gapSegment (gap : List Char) : List (Hue × List Char) :=
  if gap.isEmpty then [] else [(.white, gap)]

/-- The coloured segments of tokens. -/
def segmentsOf : List Token → List (Hue × List Char)
  | [] => []
  | t :: following => gapSegment t.gap ++ (hue t following, t.text) :: segmentsOf following

/-- The coloured segments of a line. -/
def highlight (line : String) : List (Hue × List Char) :=
  let (found, last) := tokens line
  segmentsOf found ++ gapSegment last

end Formulae.Console
