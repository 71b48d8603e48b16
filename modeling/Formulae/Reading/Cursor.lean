import Formulae.Run
import Formulae.Text.Basic
import Formulae.World

/-!
# Cursors — places in a text

A cursor holds a text, what is still to be read of it, and the byte offset of that rest. Reading is a run
over a cursor and a world; every character that is consumed polls the host once.

* `Cursor.Reads source cursor`: the cursor stands between two characters of `source`.
* `Reading.eat` consumes a literal after blanks, or leaves the cursor where it was.
-/

namespace Formulae

open Text (isBlank byteLength)

/-- A place in a text. -/
structure Cursor where
  /-- The whole text. -/
  source : String
  /-- What is still to be read. -/
  rest : List Char
  /-- The byte offset of the rest. -/
  position : Nat
deriving DecidableEq

namespace Cursor

/-- The start of a text. -/
def start (source : String) : Cursor :=
  ⟨source, source.toList, 0⟩

/-- The cursor stands between two characters of the text, at their byte offset. -/
def Reads (source : String) (c : Cursor) : Prop :=
  c.source = source ∧ ∃ before, before ++ c.rest = source.toList ∧ c.position = byteLength before

/-- The current character. -/
def current (c : Cursor) : Option Char :=
  c.rest.head?

/-- The character that many places further on. -/
def peek (c : Cursor) (n : Nat) : Option Char :=
  c.rest[n]?

/-- Whether nothing is left. -/
def atEnd (c : Cursor) : Bool :=
  c.rest.isEmpty

/-- The next character that is not blank. -/
def peekToken (c : Cursor) : Option Char :=
  c.rest.find? fun x => !isBlank x

/-- How many blanks come next. -/
def blankCount (c : Cursor) : Nat :=
  (c.rest.takeWhile isBlank).length

/-- The cursor behind the current character. -/
def next (c : Cursor) : Cursor :=
  match c.rest with
  | [] => c
  | x :: rest => { c with rest, position := c.position + x.utf8Size }

/-- What was read so far. -/
def before (c : Cursor) : List Char :=
  c.source.toList.take (c.source.length - c.rest.length)

/-- A fault at a byte offset. -/
def faultAt (c : Cursor) (cause : SyntaxCause) (position : Nat) : Fault :=
  .syntactic ⟨cause, position, c.source⟩

/-- A fault at the cursor. -/
def fault (c : Cursor) (cause : SyntaxCause) : Fault :=
  c.faultAt cause c.position

/-- The fault that names whatever is at the cursor. -/
def unexpected (c : Cursor) : Fault :=
  match c.current with
  | some found => c.fault (.unexpectedCharacter found)
  | none => c.fault .unexpectedEnd

theorem reads_start (source : String) : Reads source (start source) :=
  ⟨rfl, [], by simp [start], by simp [start]⟩

theorem Reads.next {source : String} {c : Cursor} (h : Reads source c) : Reads source c.next := by
  obtain ⟨hs, before, hb, hp⟩ := h
  unfold Cursor.next
  split
  · exact ⟨hs, before, hb, hp⟩
  · rename_i x rest hr
    exact ⟨hs, before ++ [x], by simp [← hb, hr], by simp [hp]⟩

end Cursor

/-- A place in a text, and the world. -/
structure Reader (σ : Type) where
  cursor : Cursor
  world : σ
deriving DecidableEq

/-- A part of reading a text. -/
abbrev Reading (σ α : Type) := Run (Reader σ) α

namespace Reading

variable {σ α : Type} (host : Host σ)

/-- Where the reading stands. -/
def cursor : Reading σ Cursor :=
  Run.read Reader.cursor

/-- Goes to a place. -/
def moveTo (c : Cursor) : Reading σ Unit :=
  Run.modify fun r => { r with cursor := c }

/-- Goes on unless the host stops the run. -/
def poll : Reading σ Unit := fun r =>
  match host.poll r.world with
  | (none, world) => some (.ok (), { r with world })
  | (some cancelled, world) => some (.error (.interrupted cancelled), { r with world })

/-- Consumes the current character. -/
def advance : Reading σ Unit := do
  poll host
  Run.modify fun r => { r with cursor := r.cursor.next }

/-- Consumes that many characters. -/
def advanceBy : Nat → Reading σ Unit
  | 0 => pure ()
  | n + 1 => do
    advance host
    advanceBy n

/-- Consumes blanks. -/
def skipBlanks : Reading σ Unit := do
  let c ← cursor
  advanceBy host c.blankCount

/-- Consumes blanks and a literal if the literal comes next, else nothing. -/
def eat (literal : List Char) : Reading σ Bool := do
  let start ← cursor
  skipBlanks host
  let here ← cursor
  if literal.isPrefixOf here.rest then
    advanceBy host literal.length
    pure true
  else
    moveTo start
    pure false

/-- Fails for whatever is at the cursor. -/
def failUnexpected : Reading σ α := do
  let c ← cursor
  Run.fail c.unexpected

/-- Fails at the cursor. -/
def failHere (cause : SyntaxCause) : Reading σ α := do
  let c ← cursor
  Run.fail (c.fault cause)

/-- Fails at a byte offset. -/
def failAt (cause : SyntaxCause) (position : Nat) : Reading σ α := do
  let c ← cursor
  Run.fail (c.faultAt cause position)

end Reading

end Formulae
