import Formulae.Proofs.Quiet
import Formulae.Proofs.Runs
import Formulae.Reading.Cursor

/-!
# Proofs.Reading.Cursor — moving over a text while the polls pass

As long as no poll stops it, every move of the cursor is a function of the characters that are left, and a
quiet host never stops one.

* `Reader.skip`: the reader behind that many characters; `Cursor.skip_run` says what is left then, and where.
* `Host.PassesFor`: the next polls let a run go on; `Host.polled` is the world behind them.
* `eat_of_passes`, `eat_of_quiet`: a literal is eaten iff what is left behind the blanks starts with it.
-/

namespace Formulae

open Text (isBlank byteLength)

variable {σ : Type}

/-- The cursor behind that many characters. -/
def Cursor.skip (c : Cursor) : Nat → Cursor
  | 0 => c
  | n + 1 => c.next.skip n

namespace Cursor

theorem rest_next (c : Cursor) : c.next.rest = c.rest.tail := by
  unfold next
  split <;> simp_all

@[simp] theorem rest_skip (c : Cursor) (n : Nat) : (c.skip n).rest = c.rest.drop n := by
  induction n generalizing c with
  | zero => rfl
  | succ n ih => rw [skip, ih, rest_next, List.drop_tail]

theorem skip_add (c : Cursor) (m n : Nat) : c.skip (m + n) = (c.skip m).skip n := by
  induction m generalizing c with
  | zero => rw [Nat.zero_add]; rfl
  | succ m ih => rw [Nat.succ_add, skip, skip, ih]

theorem position_skip (c : Cursor) (n : Nat) :
    (c.skip n).position = c.position + byteLength (c.rest.take n) := by
  induction n generalizing c with
  | zero => simp [skip]
  | succ n ih =>
    obtain ⟨source, rest, position⟩ := c
    cases rest <;> simp [skip, ih, next, Nat.add_assoc]

/-- Behind a run of characters that comes next. -/
theorem skip_run {c : Cursor} {run rest : List Char} (h : c.rest = run ++ rest) :
    (c.skip run.length).rest = rest ∧ (c.skip run.length).position = c.position + byteLength run := by
  rw [rest_skip, position_skip, h, List.drop_left, List.take_left]
  exact ⟨rfl, rfl⟩

theorem peekToken_eq (c : Cursor) : c.peekToken = (c.rest.dropWhile isBlank).head? := by
  unfold peekToken
  induction c.rest with
  | nil => rfl
  | cons x rest ih =>
    by_cases h : isBlank x = true
    · rw [List.find?_cons_of_neg (by simp [h]), List.dropWhile_cons_of_pos h, ih]
    · rw [List.find?_cons_of_pos (by simp [h]), List.dropWhile_cons_of_neg h, List.head?_cons]

end Cursor

namespace Reader

/-- What is still to be read. -/
def rest (r : Reader σ) : List Char :=
  r.cursor.rest

/-- The reader behind that many characters. -/
def skip (r : Reader σ) (n : Nat) : Reader σ :=
  { r with cursor := r.cursor.skip n }

/-- The reader behind the blanks that come next. -/
def skipBlanks (r : Reader σ) : Reader σ :=
  r.skip r.cursor.blankCount

@[simp] theorem rest_skip (r : Reader σ) (n : Nat) : (r.skip n).rest = r.rest.drop n :=
  r.cursor.rest_skip n

@[simp] theorem world_skip (r : Reader σ) (n : Nat) : (r.skip n).world = r.world := rfl

theorem skip_skip (r : Reader σ) (m n : Nat) : (r.skip m).skip n = r.skip (m + n) := by
  simp only [skip, Cursor.skip_add]

@[simp] theorem rest_skipBlanks (r : Reader σ) : r.skipBlanks.rest = r.rest.dropWhile isBlank := by
  have hsplit : r.rest = r.rest.takeWhile isBlank ++ r.rest.dropWhile isBlank :=
    List.takeWhile_append_dropWhile.symm
  exact (Cursor.skip_run hsplit).1

@[simp] theorem world_skipBlanks (r : Reader σ) : r.skipBlanks.world = r.world := rfl

end Reader

/-! ### Polls that pass -/

/-- The world behind that many polls. -/
def Host.polled (host : Host σ) : Nat → σ → σ
  | 0, world => world
  | n + 1, world => host.polled n (host.poll world).2

/-- The next polls, that many of them, let a run go on. -/
def Host.PassesFor (host : Host σ) : Nat → σ → Prop
  | 0, _ => True
  | n + 1, world => (host.poll world).1 = none ∧ host.PassesFor n (host.poll world).2

theorem Host.polled_add (host : Host σ) (m n : Nat) (world : σ) :
    host.polled (m + n) world = host.polled n (host.polled m world) := by
  induction m generalizing world with
  | zero => rw [Nat.zero_add, polled]
  | succ m ih => rw [Nat.succ_add, polled, polled, ih]

theorem Host.passesFor_add {host : Host σ} {m n : Nat} {world : σ} :
    host.PassesFor (m + n) world ↔ host.PassesFor m world ∧ host.PassesFor n (host.polled m world) := by
  induction m generalizing world with
  | zero => simp [PassesFor, polled]
  | succ m ih => rw [Nat.succ_add, PassesFor, PassesFor, polled, ih, and_assoc]

theorem Host.Quiet.passesFor {host : Host σ} (quiet : host.Quiet) (n : Nat) (world : σ) :
    host.PassesFor n world := by
  induction n generalizing world with
  | zero => trivial
  | succ n ih => exact ⟨congrArg Prod.fst (quiet world), ih _⟩

theorem Host.Quiet.polled_eq {host : Host σ} (quiet : host.Quiet) (n : Nat) (world : σ) :
    host.polled n world = world := by
  induction n generalizing world with
  | zero => rfl
  | succ n ih => rw [polled, ih, quiet world]

/-- How many polls it takes to look for a literal: one for each blank, and for each of its characters if it
is there. -/
def Cursor.pollsToEat (c : Cursor) (literal : List Char) : Nat :=
  c.blankCount + if literal <+: c.rest.dropWhile isBlank then literal.length else 0

/-- The reader behind that many characters and as many polls. -/
def Reader.passed (host : Host σ) (n : Nat) (r : Reader σ) : Reader σ :=
  ⟨r.cursor.skip n, host.polled n r.world⟩

theorem Reader.passed_passed (host : Host σ) (m n : Nat) (r : Reader σ) :
    (r.passed host m).passed host n = r.passed host (m + n) := by
  simp only [passed, Cursor.skip_add, Host.polled_add]

theorem Reader.passed_of_quiet {host : Host σ} (quiet : host.Quiet) (n : Nat) (r : Reader σ) :
    r.passed host n = r.skip n := by
  rw [passed, quiet.polled_eq, skip]

namespace Reading

variable {host : Host σ}

theorem advance_of_passes {r : Reader σ} (h : host.PassesFor 1 r.world) :
    advance host r = some (.ok (), r.passed host 1) := by
  have hanswer : host.poll r.world = (none, host.polled 1 r.world) := Prod.ext h.1 rfl
  have hpoll : poll host r = some (.ok (), ⟨r.cursor, host.polled 1 r.world⟩) := by
    unfold poll
    rw [hanswer]
  exact Run.bind_of_ok hpoll

theorem advanceBy_of_passes {n : Nat} {r : Reader σ} (h : host.PassesFor n r.world) :
    advanceBy host n r = some (.ok (), r.passed host n) := by
  induction n generalizing r with
  | zero => rfl
  | succ n ih =>
    rw [Nat.add_comm, Host.passesFor_add] at h
    rw [advanceBy, Run.bind_of_ok (advance_of_passes h.1), ih h.2, Reader.passed_passed, Nat.add_comm]

/-- A literal is taken with the blanks in front of it, or nothing is taken. -/
theorem eat_of_passes {literal : List Char} {r : Reader σ}
    (h : host.PassesFor (r.cursor.pollsToEat literal) r.world) :
    eat host literal r =
      if literal <+: r.rest.dropWhile isBlank then
        some (.ok true, r.passed host (r.cursor.blankCount + literal.length))
      else some (.ok false, ⟨r.cursor, host.polled r.cursor.blankCount r.world⟩) := by
  obtain ⟨hblanks, hliteral⟩ := Host.passesFor_add.mp h
  have hskip : skipBlanks host r = some (.ok (), r.passed host r.cursor.blankCount) :=
    advanceBy_of_passes hblanks
  have hr : (r.passed host r.cursor.blankCount).cursor.rest = r.rest.dropWhile isBlank := r.rest_skipBlanks
  unfold eat
  rw [Run.bind_of_ok (t := r) (a := r.cursor) rfl, Run.bind_of_ok hskip,
    Run.bind_of_ok (t := r.passed host r.cursor.blankCount) (a := _) rfl, hr]
  by_cases hp : literal <+: r.rest.dropWhile isBlank
  · have hpolls : host.PassesFor literal.length (host.polled r.cursor.blankCount r.world) := by
      rwa [← Reader.rest, if_pos hp] at hliteral
    rw [if_pos (List.isPrefixOf_iff_prefix.mpr hp), if_pos hp,
      Run.bind_of_ok (advanceBy_of_passes hpolls), Reader.passed_passed]
    rfl
  · rw [if_neg fun h => hp (List.isPrefixOf_iff_prefix.mp h), if_neg hp]
    rfl

/-! ### Quiet hosts -/

section Quiet

variable (quiet : host.Quiet)
include quiet

theorem advance_of_quiet (r : Reader σ) : advance host r = some (.ok (), r.skip 1) := by
  rw [advance_of_passes (quiet.passesFor 1 _), Reader.passed_of_quiet quiet]

theorem advanceBy_of_quiet (n : Nat) (r : Reader σ) :
    advanceBy host n r = some (.ok (), r.skip n) := by
  rw [advanceBy_of_passes (quiet.passesFor n _), Reader.passed_of_quiet quiet]

theorem skipBlanks_of_quiet (r : Reader σ) : skipBlanks host r = some (.ok (), r.skipBlanks) :=
  advanceBy_of_quiet quiet _ r

theorem eat_of_quiet (literal : List Char) (r : Reader σ) :
    eat host literal r =
      if literal <+: r.rest.dropWhile isBlank then
        some (.ok true, r.skipBlanks.skip literal.length)
      else some (.ok false, r) := by
  rw [eat_of_passes (quiet.passesFor _ _), Reader.passed_of_quiet quiet, quiet.polled_eq,
    Reader.skipBlanks, Reader.skip_skip]

end Quiet

end Reading

end Formulae
