import Formulae.Number.Decimal

/-!
# Faults — the causes for which reading or evaluating a formula fails

* `SyntaxFault`: what is wrong with a text, and where; `help` is a hint for some of the causes.
* `DomainFault`: an operation left its domain, or a resource limit was reached.
* `Fault`: all causes; `Fault.message` is the one place where they are put into words.
-/

namespace Formulae

open Number (display)

/-- What is wrong with a text. -/
inductive SyntaxCause where
  | unexpectedCharacter (found : Char)
  | unexpectedEnd
  | unclosedParenthesis
  | unknownFunction (name : String) (arity : Nat)
  | invalidNumber (text : String)
  | trailingInput (found : Char)
  | emptyArgument
deriving DecidableEq

/-- The cause in words. -/
def SyntaxCause.message : SyntaxCause → String
  | .unexpectedCharacter found => "Unexpected character '" ++ found.toString ++ "'"
  | .unexpectedEnd => "Unexpected end of input"
  | .unclosedParenthesis => "Unclosed parenthesis"
  | .unknownFunction name arity =>
    "Unknown function '" ++ name ++ "' with " ++ toString arity ++ " argument(s)"
  | .invalidNumber text => "Invalid number literal '" ++ text ++ "'"
  | .trailingInput found => "Unexpected trailing input starting with '" ++ found.toString ++ "'"
  | .emptyArgument => "Empty argument"

/-- A cause, the byte offset where it was found, and the text. -/
structure SyntaxFault where
  cause : SyntaxCause
  position : Nat
  source : String
deriving DecidableEq

namespace SyntaxFault

/-- The cause with its place, in words. -/
def message (f : SyntaxFault) : String :=
  "Parse error at position " ++ toString f.position ++ ": " ++ f.cause.message

/-- A hint, for the causes that have one. -/
def help (f : SyntaxFault) : Option String :=
  match f.cause with
  | .unclosedParenthesis => some "Add the missing ')'"
  | .unknownFunction _ _ => some
    "Known functions: rand, sqrt, sin, cos, tan, log, log10, ln, floor, ceil, round, abs, if, sum"
  | .emptyArgument => some "Remove the extra ',' or fill in the argument"
  | _ => none

end SyntaxFault

/-- An operation outside its domain, or a limit that was reached. -/
inductive DomainFault where
  | divideByZero
  | infinite
  | notANumber
  | summationBounds (lower upper : Float)
  | summationTooLong (length : Float) (limit : Nat)
  | recursiveVariable (name : String) (limit : Nat)
deriving DecidableEq

/-- The cause in words. -/
def DomainFault.message : DomainFault → String
  | .divideByZero => "Divide by 0"
  | .infinite => "Infinity"
  | .notANumber => "NaN"
  | .summationBounds lower upper =>
    "Summation upper bound " ++ display upper ++ " is lower than lower bound " ++ display lower
  | .summationTooLong length limit =>
    "Summation of " ++ display length ++ " iterations exceeds the limit of " ++ toString limit
  | .recursiveVariable name limit =>
    "Variable '" ++ name ++ "' is recursive (resolved more than " ++ toString limit ++ " times)"

/-- The causes for which an operation of the library fails. -/
inductive Fault where
  | syntactic (fault : SyntaxFault)
  /-- No binding for a name. -/
  | unset (name : String)
  | domain (fault : DomainFault)
  /-- An operand of logic that is neither zero nor one. -/
  | notBoolean (value : Float)
  /-- The deadline has passed, or the work was cancelled. -/
  | interrupted (cancelled : Bool)
  /-- A name of an equation was resolved too often in one call. -/
  | overused (name : String) (limit : Nat)
  /-- A setting out of its range. -/
  | badSetting (text : String)
deriving DecidableEq

namespace Fault

/-- The cause in words. -/
def message : Fault → String
  | .syntactic fault => fault.message
  | .unset name => "Variable '" ++ name ++ "' is not set"
  | .domain fault => fault.message
  | .notBoolean value =>
    "Logic error: " ++ display value ++ " is not a boolean value (expected 0 or 1)"
  | .interrupted true => "Evaluation cancelled"
  | .interrupted false => "Evaluation timed out"
  | .overused name limit =>
    "Operation limit exceeded: variable '" ++ name ++ "' resolved " ++ toString limit ++ " times"
  | .badSetting text => "Invalid option: " ++ text

/-- A hint, for the causes that have one. -/
def help : Fault → Option String
  | .syntactic fault => fault.help
  | _ => none

/-- Whether the cause is a missing binding for `name`. -/
def isUnset (name : String) : Fault → Bool
  | .unset missing => missing == name
  | _ => false

/-- Whether the cause is the deadline or a cancellation. -/
def isInterruption : Fault → Bool
  | .interrupted _ => true
  | _ => false

end Fault

end Formulae
