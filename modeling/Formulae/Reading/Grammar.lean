import Formulae.Evaluation.Basic
import Formulae.Formula.Render
import Formulae.Number.Numeral
import Formulae.Reading.Cursor

/-!
# Grammar — reading a formula

From the loosest to the tightest level:

```text
formula     := disjunction
disjunction := conjunction (("||" | "|") conjunction)*
conjunction := comparison (("&&" | "&") comparison)*
comparison  := sum (("<=" | "<>" | "<" | ">=" | ">" | "==" | "=" | "!=") sum)*
sum         := term (("+" | "-") term)*
term        := signed (("*" | "/" | "%") signed | power)*
signed      := ("-" | "+") signed | power
power       := primary ("^" signed)?
primary     := "(" formula ")" | numeral | name ["(" arguments ")"]
```

Blanks may stand between any two tokens but for a name and the parenthesis that makes it a call. Two
operands without an operator are multiplied; the second one then carries no sign.

Each level is a reading that is given `descend`, which reads what is nested: a formula between
parentheses or commas, or what a sign or an exponent stands for. `nested` ties the knot with a bound on
the depth, and every loop is bounded too; as each nested entry and each round of a loop consumes a
character, a bound above the length of the text never shows.

A subtree that needs no bindings is evaluated while the text is read. If that succeeds, its value stands
in its place, labelled with the text of the subtree. If it fails, the subtree stays as it is, so that the
fault shows when the formula is evaluated; only an interruption ends the reading.
-/

namespace Formulae

/-- How a text is read. -/
structure ReadingOptions where
  /-- Whether the whole text stands among the arguments of a summation. -/
  insideSummation : Bool := false
  /-- Whether constant subtrees are replaced by their values. -/
  foldConstants : Bool := true
  /-- The limits for folding, and those of the formula. -/
  limits : Limits := {}

/-- A subtree, and whether it needs no bindings. -/
structure Parsed where
  node : Node
  constant : Bool
deriving DecidableEq

/-- What may be nested in a formula. -/
inductive Entry where
  /-- A whole formula, between parentheses or commas. -/
  | formula
  /-- An operand that may carry signs, behind a sign or as an exponent. -/
  | signed
deriving DecidableEq

namespace Reading

open Text Number

variable {σ : Type}

/-! ### Folding -/

/-- A node, or the value that it comes to without bindings. -/
def fold (host : Host σ) (steps : Nat) (limits : Limits) (node : Node) : Reading σ Node := fun r =>
  if node.isLiteral then some (.ok node, r)
  else
    match evaluateFresh host Source.none steps limits node r.world with
    | none => none
    | some (.ok value, world) => some (.ok (.constant value (node.render false)), { r with world })
    | some (.error (.interrupted cancelled), world) =>
      some (.error (.interrupted cancelled), { r with world })
    | some (.error _, world) => some (.ok node, { r with world })

/-! ### Operands and operators -/

/-- What the levels of the grammar share. -/
structure Setting (σ : Type) where
  host : Host σ
  options : ReadingOptions
  /-- The allowance of steps for folding. -/
  steps : Nat
  /-- The bound on the rounds of a loop. -/
  rounds : Nat
  /-- Reads what is nested, inside a summation or not. -/
  descend : Entry → Bool → Reading σ Parsed

variable (g : Setting σ)

/-- Whether a literal comes next; if so it is consumed. -/
def sees (literal : String) : Reading σ Bool :=
  eat g.host literal.toList

/-- A node that was just built, folded if that is asked for. -/
def finish (node : Node) (constant : Bool) : Reading σ Parsed :=
  if constant && g.options.foldConstants then do
    let node ← fold g.host g.steps g.options.limits node
    pure ⟨node, constant⟩
  else pure ⟨node, constant⟩

/-- Two operands, joined to one node. -/
def finishJoined (join : Node → Node → Node) (left right : Parsed) : Reading σ Parsed :=
  finish g (join left.node right.node) (left.constant && right.constant)

/-- Reads operand after operand: `more` takes what was read so far and yields it with one operand more,
or nothing if no operator follows. -/
def chain (more : Parsed → Reading σ (Option Parsed)) : Nat → Parsed → Reading σ Parsed
  | 0, _ => Run.exhausted
  | rounds + 1, left => do
    match ← more left with
    | none => pure left
    | some longer => chain more rounds longer

/-- The first of the spellings that comes next is consumed, and what it stands for is the result. -/
def firstSeen {α : Type} : List (String × α) → Reading σ (Option α)
  | [] => pure none
  | (spelling, meaning) :: others => do
    if ← sees g spelling then pure (some meaning) else firstSeen others

/-- One more operand behind one of the operators; `otherwise` is what happens if none of them follows. -/
def moreOperands (operators : List (String × (Node → Node → Node))) (operand : Reading σ Parsed)
    (otherwise : Parsed → Reading σ (Option Parsed)) (left : Parsed) :
    Reading σ (Option Parsed) := do
  match ← firstSeen g operators with
  | some join => do
    let right ← operand
    some <$> finishJoined g join left right
  | none => otherwise left

/-- Operands, joined from the left as long as `moreOperands` finds one more. -/
def operands (operators : List (String × (Node → Node → Node))) (operand : Reading σ Parsed)
    (otherwise : Parsed → Reading σ (Option Parsed)) : Reading σ Parsed := do
  let left ← operand
  chain (moreOperands g operators operand otherwise) g.rounds left

/-! ### Numerals, names and calls -/

/-- A numeral. -/
def numeral : Reading σ Parsed := do
  let start ← cursor
  let text := Numeral.scan start.rest
  advanceBy g.host text.length
  match Numeral.value? text with
  | some value => pure ⟨.number value, true⟩
  | none => failAt (.invalidNumber (String.ofList text)) start.position

/-- Consumes the parenthesis that closes the one at the offset `opening`. -/
def close (opening : Nat) : Reading σ Unit := do
  if ← sees g ")" then pure ()
  else do
    skipBlanks g.host
    let c ← cursor
    if c.atEnd then failAt .unclosedParenthesis opening else failUnexpected

/-- The arguments of a call from the next one on, up to the closing parenthesis; `done` are those read
already, the latest first. -/
def arguments (inside : Bool) (opening : Nat) :
    Nat → List Parsed → Reading σ (List Parsed)
  | 0, _ => Run.exhausted
  | rounds + 1, done => do
    skipBlanks g.host
    let c ← cursor
    match c.current with
    | none => failAt .unclosedParenthesis opening
    | some x =>
      if x = ',' ∨ x = ')' then failHere .emptyArgument
      else do
        let arg ← g.descend .formula inside
        if ← sees g "," then arguments inside opening rounds (arg :: done)
        else do
          close g opening
          pure (arg :: done).reverse

/-- The arguments of a call behind its opening parenthesis. -/
def callArguments (inside : Bool) (opening : Nat) : Reading σ (List Parsed) := do
  if ← sees g ")" then pure []
  else arguments g inside opening g.rounds []

/-- Whether a call of that name is a summation. -/
def isSummation (name : String) : Bool :=
  name == "sum" || name == "summation"

/-- The node that a name calls with its arguments. -/
def callNode? (name : String) : List Node → Option Node
  | [] => if name = "rand" ∨ name = "random" then some .random else none
  | [arg] => (UnaryOp.ofFunctionName? name).map fun op => .unary op arg
  | [left, right] => (BinaryOp.ofFunctionName? name).map fun op => .binary op left right
  | [a, b, c] =>
    if name = "if" then some (.choice a b c)
    else if isSummation name then some (.summation a b c)
    else none
  | _ => none

/-- A call, its name at the offset `start`. -/
def call (name : String) (args : List Parsed) (start : Nat) : Reading σ Parsed :=
  match callNode? name (args.map Parsed.node) with
  | some node => finish g node (!args.isEmpty && args.all Parsed.constant)
  | none => failAt (.unknownFunction name args.length) start

/-- A name that is not called: a named constant or a reference. -/
def reference (name : String) (inside : Bool) : Parsed :=
  match Node.namedConstant? name with
  | some node => ⟨node, true⟩
  | none => ⟨.reference name inside, Node.isBoundIndex name inside⟩

/-- A name, and its arguments if a parenthesis follows at once. -/
def named (inside : Bool) : Reading σ Parsed := do
  let start ← cursor
  let text := start.rest.takeWhile continuesName
  let name := String.ofList text
  advanceBy g.host text.length
  let opening ← cursor
  if opening.current = some '(' then do
    advance g.host
    let args ← callArguments g (inside || isSummation name) opening.position
    call g name args start.position
  else pure (reference name inside)

/-! ### The levels -/

/-- A formula between parentheses, a numeral, or a name. -/
def primary (inside : Bool) : Reading σ Parsed := do
  skipBlanks g.host
  let start ← cursor
  match start.current with
  | none => failUnexpected
  | some x =>
    if x = '(' then do
      advance g.host
      let inner ← g.descend .formula inside
      close g start.position
      finish g (.unary .paren inner.node) inner.constant
    else if Numeral.isMantissaChar x then numeral g
    else if startsName x then named g inside
    else failUnexpected

/-- A primary, and its exponent if there is one. -/
def power (inside : Bool) : Reading σ Parsed := do
  let base ← primary g inside
  if ← sees g "^" then do
    let exponent ← g.descend .signed inside
    finishJoined g (.binary .pow) base exponent
  else pure base

/-- A power with signs in front of it. A plus leaves no trace. -/
def signed (inside : Bool) : Reading σ Parsed := do
  if ← sees g "-" then do
    let arg ← g.descend .signed inside
    finish g (.unary .neg arg.node) arg.constant
  else if ← sees g "+" then g.descend .signed inside
  else power g inside

/-- Whether a character starts an operand that is multiplied without an operator. -/
def startsFactor (x : Char) : Bool :=
  x == '(' || x == '.' || isDigit x || startsName x

/-- The operators between the factors of a term. -/
def factorOperators : List (String × (Node → Node → Node)) :=
  [("*", .binary .mul), ("/", .binary .div), ("%", .binary .mod)]

/-- The operators between the terms of a sum. -/
def termOperators : List (String × (Node → Node → Node)) :=
  [("+", .binary .add), ("-", .binary .sub)]

/-- The comparisons, a longer spelling before those that it starts with. -/
def comparisonOperators : List (String × (Node → Node → Node)) :=
  [("<=", .comparison .le), ("<>", .comparison .ltGt), ("<", .comparison .lt),
    (">=", .comparison .ge), (">", .comparison .gt), ("==", .comparison .eqEq),
    ("=", .comparison .eq), ("!=", .comparison .ne)]

/-- The spellings of a conjunction. -/
def conjunctionOperators : List (String × (Node → Node → Node)) :=
  [("&&", .logic .and), ("&", .logic .and)]

/-- The spellings of a disjunction. -/
def disjunctionOperators : List (String × (Node → Node → Node)) :=
  [("||", .logic .or), ("|", .logic .or)]

/-- A factor that is multiplied without an operator; it carries no sign. -/
def moreFactors (inside : Bool) (left : Parsed) : Reading σ (Option Parsed) := do
  let c ← cursor
  if c.peekToken.any startsFactor then do
    let right ← power g inside
    some <$> finishJoined g (.binary .mul) left right
  else pure none

/-- No operand without an operator. -/
def noMore (_ : Parsed) : Reading σ (Option Parsed) :=
  pure none

/-- Factors. -/
def term (inside : Bool) : Reading σ Parsed :=
  operands g factorOperators (signed g inside) (moreFactors g inside)

/-- Terms added and subtracted. -/
def sum (inside : Bool) : Reading σ Parsed :=
  operands g termOperators (term g inside) noMore

/-- Sums compared, from the left. -/
def comparison (inside : Bool) : Reading σ Parsed :=
  operands g comparisonOperators (sum g inside) noMore

/-- Comparisons that all hold. -/
def conjunction (inside : Bool) : Reading σ Parsed :=
  operands g conjunctionOperators (comparison g inside) noMore

/-- Conjunctions of which one holds. -/
def disjunction (inside : Bool) : Reading σ Parsed :=
  operands g disjunctionOperators (conjunction g inside) noMore

/-! ### The whole text -/

/-- Reads an entry, nested at most `depth` deep. -/
def nested (host : Host σ) (options : ReadingOptions) (steps : Nat) :
    Nat → Entry → Bool → Reading σ Parsed
  | 0, _, _ => Run.exhausted
  | depth + 1, .formula, inside =>
    disjunction ⟨host, options, steps, depth, nested host options steps depth⟩ inside
  | depth + 1, .signed, inside =>
    signed ⟨host, options, steps, depth, nested host options steps depth⟩ inside

/-- Reads a whole text. -/
def whole (host : Host σ) (options : ReadingOptions) (steps depth : Nat) : Reading σ Node := do
  skipBlanks host
  let start ← cursor
  if start.atEnd then failHere .unexpectedEnd
  else do
    let parsed ← nested host options steps depth .formula options.insideSummation
    skipBlanks host
    let stop ← cursor
    match stop.current with
    | some found => failHere (.trailingInput found)
    | none => pure (.finite parsed.node)

end Reading

/-- The nesting that a text can have at most. -/
def depthBound (source : String) : Nat :=
  source.length + 2

/-- Reads the tree of a text; folding may take `steps` steps. -/
def readNode {σ : Type} (host : Host σ) (options : ReadingOptions) (steps : Nat)
    (source : String) : Run σ Node := fun world =>
  match Reading.whole host options steps (depthBound source) ⟨Cursor.start source, world⟩ with
  | some (outcome, r) => some (outcome, r.world)
  | none => none

end Formulae
