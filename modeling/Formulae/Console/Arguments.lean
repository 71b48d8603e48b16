import Formulae.Limits
import Formulae.Text.Basic

/-!
# Arguments — the command line

Options are `--name value` or `--name=value`; a value that is an argument of its own may not look like an
option. Every option but `--var` may be given once. One formula may be given; behind `--` everything is a
formula.
-/

namespace Formulae.Console

/-- What is wrong with a command line. -/
inductive UsageFault where
  | unknownOption (name : String)
  | missingValue (name : String)
  | needlessValue (name : String)
  | repeated (name : String)
  | invalidNumber (text : String)
  | invalidBinding (text : String)
  | surplus (text : String)
deriving DecidableEq

/-- The cause in words. -/
def UsageFault.message : UsageFault → String
  | .unknownOption name => "error: unexpected argument '" ++ name ++ "' found"
  | .missingValue name => "error: a value is required for '" ++ name ++ "' but none was supplied"
  | .needlessValue name => "error: unexpected value for '" ++ name ++ "' found"
  | .repeated name => "error: the argument '" ++ name ++ "' cannot be used multiple times"
  | .invalidNumber text => "error: invalid number '" ++ text ++ "'"
  | .invalidBinding text => "error: expected NAME=VALUE, got '" ++ text ++ "'"
  | .surplus text => "error: unexpected argument '" ++ text ++ "' found"

/-- A command line. Settings that were not given are `none`. -/
structure Arguments where
  /-- Names and the texts of their formulas. -/
  bindings : List (String × String) := []
  milliseconds : Option Nat := none
  keepConstants : Bool := false
  iterations : Option Nat := none
  substitutions : Option Nat := none
  showTree : Bool := false
  showReduced : Bool := false
  formula : Option String := none

namespace Arguments

/-- The time for reading and for evaluating a formula. -/
def deadline (a : Arguments) : Nat := a.milliseconds.getD 5000

/-- The limits of evaluations. -/
def limits (a : Arguments) : Limits :=
  ⟨a.substitutions.getD 1000, a.iterations.getD 100000⟩

end Arguments

/-- A text without the blanks around it. -/
def trim (chars : List Char) : List Char :=
  ((chars.dropWhile Text.isBlank).reverse.dropWhile Text.isBlank).reverse

/-- A natural number below `2 ^ 64`, perhaps with a plus in front. -/
def readNumber (text : String) : Except UsageFault Nat :=
  let digits := match text.toList with
    | '+' :: rest => rest
    | chars => chars
  let value := digits.foldl (fun n c => 10 * n + (c.toNat - '0'.toNat)) 0
  if !digits.isEmpty && digits.all Char.isDigit && value < Nat.pow 2 64 then .ok value
  else .error (.invalidNumber text)

/-- A name and a text, with an equals sign between them. -/
def readBinding (text : String) : Except UsageFault (String × String) :=
  let chars := text.toList
  let name := trim (chars.takeWhile (· != '='))
  match chars.dropWhile (· != '=') with
  | _ :: value =>
    if name.isEmpty then .error (.invalidBinding text)
    else .ok (String.ofList name, String.ofList (trim value))
  | [] => .error (.invalidBinding text)

/-- Whether an argument looks like an option. -/
def looksLikeOption (arg : String) : Bool :=
  match arg.toList with
  | '-' :: _ :: _ => true
  | _ => false

/-- The name of an option, and the value behind an equals sign. -/
def splitOption (arg : String) : String × Option String :=
  let chars := arg.toList
  let name := String.ofList (chars.takeWhile (· != '='))
  match chars.dropWhile (· != '=') with
  | _ :: value => (name, some (String.ofList value))
  | [] => (name, none)

/-- A setting that is given for the first time. -/
def once (name : String) (old : Option Nat) (text : String) : Except UsageFault (Option Nat) :=
  match old with
  | some _ => .error (.repeated name)
  | none => some <$> readNumber text

/-- A command line with the value of an option; `none` if the option takes no value or is unknown. -/
def withValue? (a : Arguments) (name text : String) : Option (Except UsageFault Arguments) :=
  match name with
  | "--var" => some do
    let binding ← readBinding text
    pure { a with bindings := a.bindings ++ [binding] }
  | "--timeout-ms" => some do
    let milliseconds ← once name a.milliseconds text
    pure { a with milliseconds }
  | "--max-summation" => some do
    let iterations ← once name a.iterations text
    pure { a with iterations }
  | "--max-recursion" => some do
    let substitutions ← once name a.substitutions text
    pure { a with substitutions }
  | _ => none

/-- A command line with an option that takes no value; `none` if the option is unknown. -/
def withFlag? (a : Arguments) (name : String) : Option (Except UsageFault Arguments) :=
  match name with
  | "--no-fold" =>
    some (if a.keepConstants then .error (.repeated name) else .ok { a with keepConstants := true })
  | "--debug-parse" =>
    some (if a.showTree then .error (.repeated name) else .ok { a with showTree := true })
  | "--reduced" =>
    some (if a.showReduced then .error (.repeated name) else .ok { a with showReduced := true })
  | _ => none

/-- Whether an option takes a value. -/
def takesValue (name : String) : Bool :=
  ["--var", "--timeout-ms", "--max-summation", "--max-recursion"].contains name

/-- A command line with a formula. -/
def withFormula (a : Arguments) (text : String) : Except UsageFault Arguments :=
  match a.formula with
  | some _ => .error (.surplus text)
  | none => .ok { a with formula := some text }

/-- Reads arguments on top of those read already; `literal` behind `--`. -/
def readFrom (a : Arguments) (literal : Bool) : List String → Except UsageFault Arguments
  | [] => .ok a
  | arg :: rest =>
    if literal || !looksLikeOption arg then do
      let a ← withFormula a arg
      readFrom a literal rest
    else if arg = "--" then readFrom a true rest
    else
      let (name, value) := splitOption arg
      if takesValue name then
        match value, rest with
        | some value, rest => do
          let a ← (withValue? a name value).getD (.error (.unknownOption name))
          readFrom a literal rest
        | none, value :: rest =>
          if looksLikeOption value then .error (.missingValue name)
          else do
            let a ← (withValue? a name value).getD (.error (.unknownOption name))
            readFrom a literal rest
        | none, [] => .error (.missingValue name)
      else
        match withFlag? a name, value with
        | some _, some _ => .error (.needlessValue name)
        | some flagged, none => do
          let a ← flagged
          readFrom a literal rest
        | none, _ => .error (.unknownOption arg)

/-- Reads a command line. -/
def readArguments (args : List String) : Except UsageFault Arguments :=
  readFrom {} false args

end Formulae.Console
