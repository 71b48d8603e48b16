import Formulae.Number.Numeral
import Formulae.Text.Basic

/-!
# Tokens — cutting a line into coarse pieces

A line is cut into tokens and the gaps between them, each token the longest that starts at its place. A
character that starts no token is one by itself, of the kind `stray`. The cut serves for colouring a line
and for counting its parentheses; it knows ASCII names only.

* `tokensFrom` cuts; `Token.spans` gives the byte offsets of the tokens.
-/

namespace Formulae.Console

open Text Number

/-- The kinds of tokens. -/
inductive TokenKind where
  | open | close | comma | numeral | name | operator | stray
deriving DecidableEq

/-- A token, and the gap before it. -/
structure Token where
  kind : TokenKind
  gap : List Char
  text : List Char
deriving DecidableEq

/-- A character that separates tokens. -/
def isGap (c : Char) : Bool :=
  c == ' ' || c == '\t' || c == '\n' || c == '\x0C'

/-- A character that may start an ASCII name. -/
def startsAsciiName (c : Char) : Bool :=
  c.isAlpha || c == '_'

/-- A character of an ASCII name. -/
def continuesAsciiName (c : Char) : Bool :=
  startsAsciiName c || isDigit c

/-- The numeral at the start of a text, empty if there is none: digits, perhaps with a point among or
behind them, or a point and digits, and then perhaps an exponent. -/
def numeralAt (text : List Char) : List Char :=
  let whole := text.takeWhile isDigit
  match whole, text.dropWhile isDigit with
  | [], '.' :: rest =>
    match rest.takeWhile isDigit with
    | [] => []
    | places => '.' :: places ++ Numeral.scanExponent (rest.dropWhile isDigit)
  | [], _ => []
  | whole, '.' :: rest =>
    whole ++ '.' :: rest.takeWhile isDigit ++ Numeral.scanExponent (rest.dropWhile isDigit)
  | whole, rest => whole ++ Numeral.scanExponent rest

/-- Operators of two characters. -/
def longOperators : List (Char × Char) :=
  [('|', '|'), ('&', '&'), ('<', '='), ('>', '='), ('=', '='), ('!', '='), ('<', '>')]

/-- Operators of one character. -/
def shortOperators : List Char :=
  ['-', '+', '*', '/', '%', '^', '<', '>', '=', '&', '|']

/-- How many characters the operator at the start of a text has, zero if there is none. -/
def operatorLength (c : Char) (rest : List Char) : Nat :=
  if rest.head?.any fun d => longOperators.contains (c, d) then 2
  else if shortOperators.contains c then 1
  else 0

/-- The kind and the length of the longest token that starts with `c` and goes on with `rest`. -/
def firstToken (c : Char) (rest : List Char) : TokenKind × Nat :=
  if c = '(' then (.open, 1)
  else if c = ')' then (.close, 1)
  else if c = ',' then (.comma, 1)
  else if startsAsciiName c then (.name, (rest.takeWhile continuesAsciiName).length + 1)
  else
    match (numeralAt (c :: rest)).length, operatorLength c rest with
    | 0, 0 => (.stray, 1)
    | 0, n => (.operator, n)
    | n, _ => (.numeral, n)

/-- The tokens of a text and the gap behind the last one. The first `passed` characters belong to the
token before, and `gap` is the gap so far, its latest character first. -/
def tokensFrom : Nat → List Char → List Char → List Token × List Char
  | _, gap, [] => ([], gap.reverse)
  | passed + 1, gap, _ :: rest => tokensFrom passed gap rest
  | 0, gap, c :: rest =>
    if isGap c then tokensFrom 0 (c :: gap) rest
    else
      let (kind, length) := firstToken c rest
      let (tokens, last) := tokensFrom (length - 1) [] rest
      (⟨kind, gap.reverse, (c :: rest).take length⟩ :: tokens, last)

/-- The tokens of a line and the gap behind the last one. -/
def tokens (line : String) : List Token × List Char :=
  tokensFrom 0 [] line.toList

/-- The kinds of tokens with their first byte and the byte behind their last one; the first token's gap
starts at `offset`. -/
def spansFrom : Nat → List Token → List (TokenKind × Nat × Nat)
  | _, [] => []
  | offset, t :: rest =>
    let start := offset + byteLength t.gap
    let stop := start + byteLength t.text
    (t.kind, start, stop) :: spansFrom stop rest

/-- The tokens of a line with their byte offsets. -/
def spans (line : String) : List (TokenKind × Nat × Nat) :=
  spansFrom 0 (tokens line).1

/-! ### Open parentheses -/

/-- What a token adds to the count of open parentheses. -/
def TokenKind.depth : TokenKind → Int
  | .open => 1
  | .close => -1
  | _ => 0

/-- How many parentheses are open at the end of a line, none if more are closed than opened. There is no
answer for a line with stray characters. -/
def openDepth (line : String) : Option Nat :=
  let kinds := (tokens line).1.map Token.kind
  if kinds.contains .stray then none
  else some (kinds.foldl (fun (depth : Int) (kind : TokenKind) => depth + kind.depth) 0).toNat

/-- Whether a line may be handed on: no parenthesis is left open, or stray characters hide the count. -/
def isComplete (line : String) : Bool :=
  match openDepth line with
  | some depth => depth == 0
  | none => true

end Formulae.Console
