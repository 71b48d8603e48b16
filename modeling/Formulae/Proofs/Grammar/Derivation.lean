import Formulae.Formula.Node
import Formulae.Proofs.Grammar.Lexeme

/-!
# Proofs.Grammar.Derivation — the grammar of formulas

The grammar as a relation, apart from any way to read it. `Derives inside phrase text rest`: the start of
`text`, up to `rest`, can be derived as `phrase`, among the arguments of a summation or not.

* Each level that has operators is a chain of operands of the next tighter level, joined from the left;
  `Phrase.more level left node` is the part of such a chain behind its first operands `left`.
* `Formula inside text node`: the whole text is derived as `node`.
-/

namespace Formulae.Grammar

/-- The levels of the grammar, from the loosest to the tightest. -/
inductive Level where
  | disjunction | conjunction | comparison | sum | term | signed | power | primary
deriving DecidableEq

namespace Level

/-- The next tighter level. -/
def tighter : Level → Level
  | .disjunction => .conjunction
  | .conjunction => .comparison
  | .comparison => .sum
  | .sum => .term
  | .term => .signed
  | .signed => .power
  | .power | .primary => .primary

/-- Whether the level is a chain of operands. -/
def isChain : Level → Bool
  | .disjunction | .conjunction | .comparison | .sum | .term => true
  | .signed | .power | .primary => false

/-- The operators between the operands of a chain, and what they build. -/
def operators : Level → List (String × (Node → Node → Node))
  | .disjunction => [("||", .logic .or), ("|", .logic .or)]
  | .conjunction => [("&&", .logic .and), ("&", .logic .and)]
  | .comparison =>
    [("<=", .comparison .le), ("<>", .comparison .ltGt), ("<", .comparison .lt),
      (">=", .comparison .ge), (">", .comparison .gt), ("==", .comparison .eqEq),
      ("=", .comparison .eq), ("!=", .comparison .ne)]
  | .sum => [("+", .binary .add), ("-", .binary .sub)]
  | .term => [("*", .binary .mul), ("/", .binary .div), ("%", .binary .mod)]
  | .signed | .power | .primary => []

end Level

/-- The names of constants. -/
def namedValues : List (String × Float) :=
  [("pi", 3.141592653589793), ("e", 2.718281828459045), ("true", 1.0), ("false", 0.0)]

/-- What a name that is not called stands for. -/
inductive StandsFor (inside : Bool) (name : String) : Node → Prop where
  | constant {value : Float} (mem : (name, value) ∈ namedValues) :
      StandsFor inside name (.constant value name)
  | reference (free : ∀ value, (name, value) ∉ namedValues) :
      StandsFor inside name (.reference name inside)

/-- The functions of no argument. -/
def randomNames : List String := ["rand", "random"]

/-- The functions of one argument. -/
def unaryFunctions : List (String × UnaryOp) :=
  [("sqrt", .sqrt), ("sin", .sin), ("cos", .cos), ("tan", .tan), ("log", .log10),
    ("log10", .log10), ("ln", .ln), ("floor", .floor), ("ceil", .ceil), ("ceiling", .ceil),
    ("round", .round), ("abs", .abs), ("absolute", .abs)]

/-- The functions of two arguments. -/
def binaryFunctions : List (String × BinaryOp) :=
  [("log", .logBase), ("log10", .logBase), ("floor", .floorPlaces), ("ceil", .ceilPlaces),
    ("ceiling", .ceilPlaces), ("round", .roundPlaces)]

/-- The names of summations. -/
def summationNames : List String := ["sum", "summation"]

/-- The function table: what a name calls with that many arguments. -/
inductive Calls : String → List Node → Node → Prop where
  | random {name : String} (mem : name ∈ randomNames) : Calls name [] .random
  | unary {name : String} {op : UnaryOp} {arg : Node} (mem : (name, op) ∈ unaryFunctions) :
      Calls name [arg] (.unary op arg)
  | binary {name : String} {op : BinaryOp} {left right : Node}
      (mem : (name, op) ∈ binaryFunctions) : Calls name [left, right] (.binary op left right)
  | choice {test yes no : Node} : Calls "if" [test, yes, no] (.choice test yes no)
  | summation {name : String} {lower upper body : Node} (mem : name ∈ summationNames) :
      Calls name [lower, upper, body] (.summation lower upper body)

/-- What a piece of a text can be derived as. -/
inductive Phrase where
  /-- A subtree at a level. -/
  | formula (level : Level) (node : Node)
  /-- What follows the operands `left` in a chain that comes to `node`. -/
  | more (level : Level) (left node : Node)
  /-- The arguments of a call, at least one, with the closing parenthesis. -/
  | arguments (args : List Node)

/-- The rules of the grammar. -/
inductive Derives : Bool → Phrase → List Char → List Char → Prop where
  | chain {inside : Bool} {level : Level} {first node : Node} {text mid rest : List Char}
      (isChain : level.isChain = true)
      (operand : Derives inside (.formula level.tighter first) text mid)
      (others : Derives inside (.more level first node) mid rest) :
      Derives inside (.formula level node) text rest
  | done {inside : Bool} {level : Level} {node : Node} {text : List Char} :
      Derives inside (.more level node node) text text
  | operator {inside : Bool} {level : Level} {sign : String} {join : Node → Node → Node}
      {left right node : Node} {text mid after rest : List Char}
      (mem : (sign, join) ∈ level.operators) (next : SignAt sign text mid)
      (operand : Derives inside (.formula level.tighter right) mid after)
      (others : Derives inside (.more level (join left right) node) after rest) :
      Derives inside (.more level left node) text rest
  /-- Factors without an operator between them are multiplied; the second one carries no sign. -/
  | juxtaposed {inside : Bool} {left right node : Node} {text after rest : List Char}
      (operand : Derives inside (.formula .power right) text after)
      (others : Derives inside (.more .term (.binary .mul left right) node) after rest) :
      Derives inside (.more .term left node) text rest
  | negative {inside : Bool} {arg : Node} {text mid rest : List Char} (next : SignAt "-" text mid)
      (operand : Derives inside (.formula .signed arg) mid rest) :
      Derives inside (.formula .signed (.unary .neg arg)) text rest
  | positive {inside : Bool} {node : Node} {text mid rest : List Char} (next : SignAt "+" text mid)
      (operand : Derives inside (.formula .signed node) mid rest) :
      Derives inside (.formula .signed node) text rest
  | unsigned {inside : Bool} {node : Node} {text rest : List Char}
      (operand : Derives inside (.formula .power node) text rest) :
      Derives inside (.formula .signed node) text rest
  | base {inside : Bool} {node : Node} {text rest : List Char}
      (operand : Derives inside (.formula .primary node) text rest) :
      Derives inside (.formula .power node) text rest
  | raised {inside : Bool} {base exponent : Node} {text mid after rest : List Char}
      (operand : Derives inside (.formula .primary base) text mid) (next : SignAt "^" mid after)
      (power : Derives inside (.formula .signed exponent) after rest) :
      Derives inside (.formula .power (.binary .pow base exponent)) text rest
  | group {inside : Bool} {inner : Node} {text mid after rest : List Char}
      (opening : SignAt "(" text mid)
      (content : Derives inside (.formula .disjunction inner) mid after)
      (closing : SignAt ")" after rest) :
      Derives inside (.formula .primary (.unary .paren inner)) text rest
  | numeral {inside : Bool} {value : Float} {text rest : List Char}
      (next : NumeralAt value text rest) :
      Derives inside (.formula .primary (.number value)) text rest
  | name {inside : Bool} {name : String} {node : Node} {text rest : List Char}
      (next : NameAt name text rest) (stands : StandsFor inside name node) :
      Derives inside (.formula .primary node) text rest
  | emptyCall {inside : Bool} {name : String} {node : Node} {text mid rest : List Char}
      (next : CallAt name text mid) (closing : SignAt ")" mid rest) (calls : Calls name [] node) :
      Derives inside (.formula .primary node) text rest
  /-- The arguments of a summation stand inside of it. -/
  | call {inside : Bool} {name : String} {args : List Node} {node : Node}
      {text mid rest : List Char} (next : CallAt name text mid)
      (content : Derives (inside || decide (name ∈ summationNames)) (.arguments args) mid rest)
      (calls : Calls name args node) :
      Derives inside (.formula .primary node) text rest
  | lastArgument {inside : Bool} {arg : Node} {text mid rest : List Char}
      (content : Derives inside (.formula .disjunction arg) text mid)
      (closing : SignAt ")" mid rest) : Derives inside (.arguments [arg]) text rest
  | argument {inside : Bool} {arg : Node} {args : List Node} {text mid after rest : List Char}
      (content : Derives inside (.formula .disjunction arg) text mid)
      (comma : SignAt "," mid after) (others : Derives inside (.arguments args) after rest) :
      Derives inside (.arguments (arg :: args)) text rest

/-- The whole text is derived as the tree, up to blanks at its end. -/
def Formula (inside : Bool) (text : List Char) (node : Node) : Prop :=
  ∃ rest, Derives inside (.formula .disjunction node) text rest ∧ afterBlanks rest = []

/-! ### Every token takes a character -/

theorem SignAt.length_lt {sign : String} {text rest : List Char} (h : SignAt sign text rest) :
    rest.length < text.length := by
  have hpos : 0 < sign.toList.length := by
    have hall : ∀ s ∈ signs, 0 < s.toList.length := by decide
    exact hall sign h.mem
  have hle := length_afterBlanks_le text
  rw [h.spelled, List.length_append] at hle
  omega

theorem IsNumeral.ne_nil {spelling rest : List Char} (h : IsNumeral spelling rest) :
    spelling ≠ [] := by
  cases h <;> simp_all

theorem NumeralAt.length_lt {value : Float} {text rest : List Char}
    (h : NumeralAt value text rest) : rest.length < text.length := by
  obtain ⟨spelling, hs, hn, -⟩ := h
  have hpos := List.length_pos_iff.mpr hn.ne_nil
  have hle := length_afterBlanks_le text
  rw [hs, List.length_append] at hle
  omega

theorem IsName.length_pos {name : String} {rest : List Char} (h : IsName name rest) :
    0 < name.toList.length := by
  obtain ⟨c, cs, hc, -⟩ := h.starts
  simp [hc]

theorem NameAt.length_lt {name : String} {text rest : List Char} (h : NameAt name text rest) :
    rest.length < text.length := by
  have hpos := h.isName.length_pos
  have hle := length_afterBlanks_le text
  rw [h.spelled, List.length_append] at hle
  omega

theorem CallAt.length_lt {name : String} {text rest : List Char} (h : CallAt name text rest) :
    rest.length < text.length := by
  have hpos := h.isName.length_pos
  have hle := length_afterBlanks_le text
  rw [h.spelled, List.length_append, List.length_cons] at hle
  omega

/-- The least number of characters that a phrase takes. -/
def Phrase.leastLength : Phrase → Nat
  | .more _ _ _ => 0
  | .formula _ _ | .arguments _ => 1

theorem Derives.length_le {inside : Bool} {phrase : Phrase} {text rest : List Char}
    (h : Derives inside phrase text rest) : rest.length + phrase.leastLength ≤ text.length := by
  induction h with
  | chain _ _ _ ih ih' => simp only [Phrase.leastLength] at *; omega
  | done => simp [Phrase.leastLength]
  | operator _ next _ _ ih ih' =>
    have := next.length_lt
    simp only [Phrase.leastLength] at *; omega
  | juxtaposed _ _ ih ih' => simp only [Phrase.leastLength] at *; omega
  | negative next _ ih | positive next _ ih =>
    have := next.length_lt
    simp only [Phrase.leastLength] at *; omega
  | unsigned _ ih | base _ ih => exact ih
  | raised _ next _ ih ih' =>
    have := next.length_lt
    simp only [Phrase.leastLength] at *; omega
  | group opening _ closing ih =>
    have := opening.length_lt
    have := closing.length_lt
    simp only [Phrase.leastLength] at *; omega
  | numeral next => exact next.length_lt
  | name next _ => exact next.length_lt
  | emptyCall next closing _ =>
    have := next.length_lt
    have := closing.length_lt
    simp only [Phrase.leastLength]; omega
  | call next _ _ ih =>
    have := next.length_lt
    simp only [Phrase.leastLength] at *; omega
  | lastArgument _ closing ih =>
    have := closing.length_lt
    simp only [Phrase.leastLength] at *; omega
  | argument _ comma _ ih ih' =>
    have := comma.length_lt
    simp only [Phrase.leastLength] at *; omega

theorem Derives.length_lt {inside : Bool} {level : Level} {node : Node} {text rest : List Char}
    (h : Derives inside (.formula level node) text rest) : rest.length < text.length :=
  h.length_le

/-! ### Blanks in front do not matter -/

section Blanks

variable {text text' rest : List Char}

theorem SignAt.congr {sign : String} (h : SignAt sign text rest)
    (same : afterBlanks text' = afterBlanks text) : SignAt sign text' rest :=
  ⟨h.mem, same.trans h.spelled, fun other ho hp => h.longest other ho (same ▸ hp)⟩

theorem NumeralAt.congr {value : Float} (h : NumeralAt value text rest)
    (same : afterBlanks text' = afterBlanks text) : NumeralAt value text' rest := by
  obtain ⟨spelling, hs, hn, hv⟩ := h
  exact ⟨spelling, same.trans hs, hn, hv⟩

theorem NameAt.congr {name : String} (h : NameAt name text rest)
    (same : afterBlanks text' = afterBlanks text) : NameAt name text' rest :=
  ⟨h.isName, same.trans h.spelled, h.notCalled⟩

theorem CallAt.congr {name : String} (h : CallAt name text rest)
    (same : afterBlanks text' = afterBlanks text) : CallAt name text' rest :=
  ⟨h.isName, same.trans h.spelled⟩

/-- Every phrase but the empty rest of a chain may have other blanks in front of it. -/
theorem Derives.congr {inside : Bool} {phrase : Phrase} (h : Derives inside phrase text rest)
    (taken : phrase.leastLength = 1) (same : afterBlanks text' = afterBlanks text) :
    Derives inside phrase text' rest := by
  induction h generalizing text' with
  | chain isChain _ others ih => exact .chain isChain (ih rfl same) others
  | done | operator | juxtaposed => cases taken
  | negative next operand => exact .negative (next.congr same) operand
  | positive next operand => exact .positive (next.congr same) operand
  | unsigned _ ih => exact .unsigned (ih rfl same)
  | base _ ih => exact .base (ih rfl same)
  | raised _ next power ih => exact .raised (ih rfl same) next power
  | group opening content closing => exact .group (opening.congr same) content closing
  | numeral next => exact .numeral (next.congr same)
  | name next stands => exact .name (next.congr same) stands
  | emptyCall next closing calls => exact .emptyCall (next.congr same) closing calls
  | call next content calls => exact .call (next.congr same) content calls
  | lastArgument _ closing ih => exact .lastArgument (ih rfl same) closing
  | argument _ comma others ih => exact .argument (ih rfl same) comma others

/-- A formula behind the blanks of a text is one of the text. -/
theorem Derives.of_afterBlanks {inside : Bool} {level : Level} {node : Node}
    (h : Derives inside (.formula level node) (afterBlanks text) rest) :
    Derives inside (.formula level node) text rest :=
  h.congr rfl (afterBlanks_idem text).symm

end Blanks

end Formulae.Grammar
