import Formulae.Console.Arguments
import Formulae.Equation
import Formulae.Formula.Outline
import Formulae.Report.Basic

/-!
# Sessions — evaluating lines with the bindings of a command line

The bindings are formulas that are read once, in the order in which they were given. Each line that is
not blank is read and evaluated as an equation with these bindings, under a deadline of its own for each
of the two. What it prints comes in this order: the tree and the reduced formula, where they are wanted,
then the value or the report of a fault.
-/

namespace Formulae.Console

/-- What goes to the two streams. -/
structure Printed where
  out : String := ""
  err : String := ""

namespace Printed

/-- One after the other. -/
def append (a b : Printed) : Printed := ⟨a.out ++ b.out, a.err ++ b.err⟩

/-- Text for the reader. -/
def toOut (text : String) : Printed := { out := text }

/-- Text about a fault. -/
def toErr (text : String) : Printed := { err := text }

end Printed

/-- What stays the same for all lines. -/
structure Session where
  arguments : Arguments
  bindings : List (String × Expression)
  /-- Whether reports are coloured. -/
  colours : Bool
  /-- The allowance of steps for each reading and each evaluation. -/
  steps : Nat

/-- The outcome of a run; one that has used up its steps is out of time. -/
def settle {σ α : Type} (x : Run σ α) (world : σ) : Except Fault α × σ :=
  (x world).getD (.error (.interrupted false), world)

/-- How the arguments say to read formulas. -/
def readingOptions (a : Arguments) : ReadingOptions where
  insideSummation := false
  foldConstants := !a.keepConstants
  limits := a.limits

/-- Reads a formula as the arguments say. -/
def readFormula (a : Arguments) (steps : Nat) (text : String) (world : World) :
    Except Fault Expression × World :=
  settle (Expression.read (Deadline.host ⟨a.deadline, none⟩) (readingOptions a) steps text) world

/-- Reads the formulas of bindings in turn, up to the first that cannot be read. -/
def readBindings (a : Arguments) (steps : Nat) :
    List (String × String) → World → Except Fault (List (String × Expression)) × World
  | [], world => (.ok [], world)
  | (name, text) :: rest, world =>
    match readFormula a steps text world with
    | (.error fault, world) => (.error fault, world)
    | (.ok expression, world) =>
      match readBindings a steps rest world with
      | (.error fault, world) => (.error fault, world)
      | (.ok expressions, world) => (.ok ((name, expression) :: expressions), world)

/-- The session that arguments start, if their limits are in range and their bindings can be read. -/
def Session.start (colours : Bool) (steps : Nat) (a : Arguments) (world : World) :
    Except Fault Session × World :=
  match a.limits.validate with
  | .error fault => (.error fault, world)
  | .ok _ =>
    match readBindings a steps a.bindings world with
    | (.error fault, world) => (.error fault, world)
    | (.ok bindings, world) => (.ok ⟨a, bindings, colours, steps⟩, world)

namespace Session

/-- The report of a fault. -/
def report (s : Session) (fault : Fault) : Printed :=
  .toErr (Report.ofFault s.colours fault)

/-- The formula as an equation with the bindings of the session. -/
def equation (s : Session) (expression : Expression) : Equation World :=
  s.bindings.foldl (fun e binding => e.bind binding.1 (.formula binding.2))
    (Equation.ofExpression expression)

/-- The tree, if it is wanted. -/
def tree (s : Session) (expression : Expression) : Printed :=
  if s.arguments.showTree then
    .toOut ("=== Parsed tree ===\n" ++ expression.root.outlineText ++ "\n\n")
  else {}

/-- The reduced formula, if it is wanted. -/
def reduced (s : Session) (expression : Expression) : Printed :=
  if s.arguments.showReduced then .toOut (expression.render true ++ "\n") else {}

/-- What one line prints. -/
def interpret (s : Session) (line : String) (world : World) : Printed × World :=
  if line.toList.all Text.isBlank then ({}, world)
  else
    match readFormula s.arguments s.steps line world with
    | (.error fault, world) => (s.report fault, world)
    | (.ok expression, world) =>
      let shown := (s.tree expression).append (s.reduced expression)
      let host := Deadline.host ⟨s.arguments.deadline, none⟩
      match settle ((s.equation expression).evaluate host s.steps) world with
      | (.ok value, world) => (shown.append (.toOut (Number.display value ++ "\n")), world)
      | (.error fault, world) => (shown.append (s.report fault), world)

/-- What lines print, one after the other, and the world behind the last one. -/
def interpretAll (s : Session) : List String → World → Printed × World
  | [], world => ({}, world)
  | line :: rest, world =>
    let (first, world) := s.interpret line world
    let (others, world) := s.interpretAll rest world
    (first.append others, world)

end Session

/-- A line without the line feed at its end and a carriage return before it. -/
def chompLine (line : List Char) : List Char :=
  match line.reverse with
  | '\n' :: '\r' :: rest => rest.reverse
  | '\n' :: rest => rest.reverse
  | _ => line

/-- The lines of a text, each up to and with its line feed; `line` is the current one, its latest
character first. -/
def linesFrom : List Char → List Char → List (List Char)
  | [], [] => []
  | line, [] => [line.reverse]
  | line, c :: rest =>
    if c = '\n' then (c :: line).reverse :: linesFrom [] rest else linesFrom (c :: line) rest

/-- The lines of a text. -/
def lines (text : String) : List String :=
  (linesFrom [] text.toList).map fun line => String.ofList (chompLine line)

/-- How a program ends. -/
structure Ending where
  exitCode : Nat
  printed : Printed

/-- The session that the command line `args` starts. Without one the program ends: with 2 if it is used
wrongly, with 1 if its limits are out of range or a binding cannot be read. -/
def startProgram (colours : Bool) (steps : Nat) (args : List String) (world : World) :
    Except Ending (Session × World) :=
  match readArguments args with
  | .error fault => .error ⟨2, .toErr (fault.message ++ "\n")⟩
  | .ok arguments =>
    match Session.start colours steps arguments world with
    | (.error fault, _) => .error ⟨1, .toErr (Report.ofFault colours fault)⟩
    | (.ok session, world) => .ok (session, world)

/-- The whole program: the command line `args`, and `input` for the lines if no formula is given. Faults
of formulas do not count against its exit code. -/
def runProgram (colours : Bool) (steps : Nat) (args : List String) (input : String)
    (world : World) : Ending :=
  match startProgram colours steps args world with
  | .error ending => ending
  | .ok (session, world) =>
    match session.arguments.formula with
    | some formula => ⟨0, (session.interpret formula world).1⟩
    | none => ⟨0, (session.interpretAll (lines input) world).1⟩

end Formulae.Console
