import Formulae.Console.Session

/-!
# The command line program

Evaluates the formula of the command line, or each line of the standard input.
-/

open Formulae Formulae.Console

namespace Formulae.Console

/-- An allowance of steps that no evaluation uses up in a lifetime. -/
def allowance : Nat := 4611686018427387904

/-- Prints to both streams. -/
def Printed.print (printed : Printed) : IO Unit := do
  (← IO.getStdout).putStr printed.out
  (← IO.getStdout).flush
  (← IO.getStderr).putStr printed.err

/-- Interprets the lines of the standard input until it ends. -/
partial def interpretInput (session : Session) (world : World) : IO Unit := do
  let line ← (← IO.getStdin).getLine
  if line.isEmpty then return
  let (printed, world) := session.interpret (String.ofList (chompLine line.toList)) world
  printed.print
  interpretInput session world

end Formulae.Console

/-- Runs the program. -/
def main (args : List String) : IO UInt32 := do
  let world := World.start (UInt64.ofNat (← IO.rand 0 allowance))
  match startProgram true allowance args world with
  | .error ending =>
    ending.printed.print
    return UInt32.ofNat ending.exitCode
  | .ok (session, world) =>
    match session.arguments.formula with
    | some formula => (session.interpret formula world).1.print
    | none => interpretInput session world
    return 0
