import Formulae.Proofs.Reading.Faults
import Mathlib.Logic.Relation

/-!
# Proofs.Reading.Navigation — where the cursor may be taken, whatever the polls answer

A poll may end a move anywhere on its way, and the next move starts from there.

* `Run.Leaves`: what holds of the state that a run leaves, with a value or with a fault.
* `Cursor.Onward`: the place is the same or some characters further on; no move leads anywhere else
  (`Step.onward`), and no moves in a row do (`onward_of_steps`).
* `eat_answers`: what it says, and where it leads, that a literal was looked for while the polls passed.
* `moves_safe_eats_atomic`: both for all texts.
-/

namespace Formulae

open Text Grammar

variable {σ : Type}

/-! ### Places further on -/

namespace Cursor

/-- The place is the one of `c`, or some characters behind it. -/
def Onward (c d : Cursor) : Prop :=
  ∃ n, d = c.skip n

theorem onward_refl (c : Cursor) : c.Onward c :=
  ⟨0, rfl⟩

theorem onward_next (c : Cursor) : c.Onward c.next :=
  ⟨1, rfl⟩

theorem Onward.trans {c d e : Cursor} (h : c.Onward d) (h' : d.Onward e) : c.Onward e := by
  obtain ⟨m, rfl⟩ := h
  obtain ⟨n, rfl⟩ := h'
  exact ⟨m + n, (c.skip_add m n).symm⟩

theorem Onward.reads {source : String} {c d : Cursor} (h : c.Onward d) (hc : c.Reads source) :
    d.Reads source := by
  obtain ⟨n, rfl⟩ := h
  exact hc.skip n

theorem Onward.position_le {c d : Cursor} (h : c.Onward d) : c.position ≤ d.position := by
  obtain ⟨n, rfl⟩ := h
  rw [position_skip]
  exact Nat.le_add_right _ _

end Cursor

/-- The run ends, with a value or a fault, and the state that it leaves is as `post` says. -/
def Run.Leaves {α : Type} (x : Run σ α) (s : σ) (post : σ → Prop) : Prop :=
  ∃ outcome t, x s = some (outcome, t) ∧ post t

/-- The rule for one run after another. -/
theorem Run.Leaves.bind {α β : Type} {x : Run σ α} {f : α → Run σ β} {s : σ} {post : σ → Prop}
    (h : Leaves x s post) (hf : ∀ a t, post t → Leaves (f a) t post) : Leaves (x >>= f) s post := by
  obtain ⟨fault | a, t, hx, ht⟩ := h
  · exact ⟨.error fault, t, Run.bind_of_error hx, ht⟩
  · obtain ⟨outcome, u, hu, hpost⟩ := hf a t ht
    exact ⟨outcome, u, (Run.bind_of_ok hx).trans hu, hpost⟩

theorem Run.Leaves.of_eq {α : Type} {x : Run σ α} {s t : σ} {outcome : Except Fault α} {post : σ → Prop}
    (h : Leaves x s post) (hx : x s = some (outcome, t)) : post t := by
  obtain ⟨_, _, hx', hpost⟩ := h
  rw [hx] at hx'
  cases hx'
  exact hpost

theorem Run.Leaves.isSome {α : Type} {x : Run σ α} {s : σ} {post : σ → Prop} (h : Leaves x s post) :
    (x s).isSome := by
  obtain ⟨_, _, hx, -⟩ := h
  rw [hx]
  rfl

namespace Reading

/-! ### Moves -/

section Moves

variable (host : Host σ) {c : Cursor} {r : Reader σ} (h : c.Onward r.cursor)
include h

theorem leaves_advance : Run.Leaves (advance host) r fun t => c.Onward t.cursor := by
  have hpoll : Run.Leaves (poll host) r fun t => c.Onward t.cursor := by
    unfold Run.Leaves poll
    rcases host.poll r.world with ⟨_ | cancelled, world⟩
    · exact ⟨_, _, rfl, h⟩
    · exact ⟨_, _, rfl, h⟩
  exact hpoll.bind fun _ t ht => ⟨_, _, rfl, ht.trans t.cursor.onward_next⟩

theorem leaves_advanceBy (n : Nat) : Run.Leaves (advanceBy host n) r fun t => c.Onward t.cursor := by
  induction n generalizing r with
  | zero => exact ⟨_, _, rfl, h⟩
  | succ n ih => exact (leaves_advance host h).bind fun _ t ht => ih ht

theorem leaves_skipBlanks : Run.Leaves (skipBlanks host) r fun t => c.Onward t.cursor :=
  leaves_advanceBy host h _

theorem leaves_eat (literal : List Char) : Run.Leaves (eat host literal) r fun t => c.Onward t.cursor := by
  show Run.Leaves (skipBlanks host >>= fun _ => _) r _
  refine (leaves_skipBlanks host h).bind fun _ t ht => ?_
  show Run.Leaves (if literal.isPrefixOf t.cursor.rest then _ else _) t _
  split
  · exact (leaves_advanceBy host ht _).bind fun _ u hu => ⟨_, _, rfl, hu⟩
  · -- back to where the literal was looked for
    exact ⟨_, _, rfl, h⟩

end Moves

/-- One move takes the reader `r` to `t`, whether a poll ends it on the way or not. -/
inductive Step (host : Host σ) (r t : Reader σ) : Prop where
  | advance {outcome : Except Fault Unit} (run : advance host r = some (outcome, t))
  | skipBlanks {outcome : Except Fault Unit} (run : skipBlanks host r = some (outcome, t))
  | eat (literal : List Char) {outcome : Except Fault Bool} (run : eat host literal r = some (outcome, t))

theorem Step.onward {host : Host σ} {r t : Reader σ} (h : Step host r t) : r.cursor.Onward t.cursor := by
  have hr := r.cursor.onward_refl
  cases h with
  | advance run => exact (leaves_advance host hr).of_eq run
  | skipBlanks run => exact (leaves_skipBlanks host hr).of_eq run
  | eat literal run => exact (leaves_eat host hr literal).of_eq run

/-- No moves in a row lead back. -/
theorem onward_of_steps {host : Host σ} {r t : Reader σ} (h : Relation.ReflTransGen (Step host) r t) :
    r.cursor.Onward t.cursor := by
  induction h with
  | refl => exact r.cursor.onward_refl
  | tail _ step ih => exact ih.trans step.onward

/-! ### Literals -/

/-- A character comes next behind the blanks just if it is the one that a look ahead shows. -/
theorem singleton_prefix_iff (r : Reader σ) (c : Char) :
    [c] <+: afterBlanks r.rest ↔ r.cursor.peekToken = some c := by
  rw [Cursor.peekToken_eq]
  show [c] <+: afterBlanks r.rest ↔ (afterBlanks r.rest).head? = some c
  rcases afterBlanks r.rest with _ | ⟨d, rest⟩
  · simp
  · simp [List.cons_prefix_cons, eq_comm]

/-- While the polls pass, looking for a literal answers whether it comes next behind the blanks; it leads
behind both of them, or nowhere. -/
theorem eat_answers {host : Host σ} {r : Reader σ} {literal : List Char}
    (passes : host.PassesFor (r.cursor.pollsToEat literal) r.world) :
    ∃ seen t, eat host literal r = some (.ok seen, t) ∧
      (seen = true ↔ literal <+: afterBlanks r.rest) ∧
      (seen = true → r.rest = r.rest.takeWhile isBlank ++ literal ++ t.rest ∧
        t.cursor.position =
          r.cursor.position + byteLength (r.rest.takeWhile isBlank) + byteLength literal) ∧
      (seen = false → t.cursor = r.cursor) := by
  have heat := eat_of_passes passes
  by_cases next : literal <+: afterBlanks r.rest
  · obtain ⟨more, hmore⟩ := id next
    have hsplit : r.rest = r.rest.takeWhile isBlank ++ literal ++ more := by
      rw [List.append_assoc, hmore]
      exact List.takeWhile_append_dropWhile.symm
    obtain ⟨hrest, hposition⟩ := Cursor.skip_run (c := r.cursor) hsplit
    rw [List.length_append] at hrest hposition
    rw [byteLength_append, ← Nat.add_assoc] at hposition
    have hbehind : (r.passed host (r.cursor.blankCount + literal.length)).rest = more := hrest
    refine ⟨true, _, heat.trans (if_pos next), ⟨fun _ => next, fun _ => rfl⟩, fun _ => ⟨?_, hposition⟩, nofun⟩
    rw [hbehind]
    exact hsplit
  · exact ⟨false, _, heat.trans (if_neg next), ⟨nofun, fun h => absurd h next⟩, nofun, fun _ => rfl⟩

/-- Whatever the polls answer, moves in a row lead from the start of a text to places between two of its
characters, none of them in front of the last one, and each move ends. While the polls pass, a character is
eaten if it is the next one that is not blank, a literal if it comes next behind the blanks, and if they are
not eaten nothing is. -/
theorem moves_safe_eats_atomic (host : Host σ) (source : String) (world : σ) :
    (∀ r, Relation.ReflTransGen (Step host) ⟨Cursor.start source, world⟩ r →
      r.cursor.source = source ∧ Points source r.cursor.position r.rest ∧
        (⟨r.cursor.position⟩ : String.Pos.Raw).IsValid source ∧
        r.cursor.position ≤ source.utf8ByteSize ∧
        ∀ t, Relation.ReflTransGen (Step host) r t → r.cursor.position ≤ t.cursor.position) ∧
      (∀ r : Reader σ, (advance host r).isSome ∧ (skipBlanks host r).isSome ∧
        ∀ literal, (eat host literal r).isSome) ∧
      (∀ (r : Reader σ) c, host.PassesFor (r.cursor.pollsToEat [c]) r.world →
        ∃ seen t, eat host [c] r = some (.ok seen, t) ∧
          (seen = true ↔ r.cursor.peekToken = some c) ∧ (seen = false → t.cursor = r.cursor)) ∧
      ∀ (r : Reader σ) literal, host.PassesFor (r.cursor.pollsToEat literal) r.world →
        ∃ seen t, eat host literal r = some (.ok seen, t) ∧
          (seen = true ↔ literal <+: afterBlanks r.rest) ∧
          (seen = true → r.rest = r.rest.takeWhile isBlank ++ literal ++ t.rest ∧
            t.cursor.position =
              r.cursor.position + byteLength (r.rest.takeWhile isBlank) + byteLength literal) ∧
          (seen = false → t.cursor = r.cursor) := by
  refine ⟨fun r hsteps => ?_, fun r => ?_, fun r c passes => ?_, fun r literal passes => eat_answers passes⟩
  · have hreads := (onward_of_steps hsteps).reads (Cursor.reads_start source)
    obtain ⟨before, hsplit, hposition⟩ := hreads.points.exists_split
    have hle : r.cursor.position ≤ source.utf8ByteSize := by
      rw [hposition, hsplit, String.utf8ByteSize_append]
      exact Nat.le_add_right _ _
    exact ⟨hreads.1, hreads.points, hreads.points.isValid, hle, fun t h => (onward_of_steps h).position_le⟩
  · have hr := r.cursor.onward_refl
    exact ⟨(leaves_advance host hr).isSome, (leaves_skipBlanks host hr).isSome,
      fun literal => (leaves_eat host hr literal).isSome⟩
  · obtain ⟨seen, t, heat, hseen, -, hback⟩ := eat_answers passes
    exact ⟨seen, t, heat, hseen.trans (singleton_prefix_iff r c), hback⟩

/-- The host that lets as many polls pass as its world says. -/
def countdown : Host Nat :=
  ⟨fun polls => (if polls = 0 then some true else none, polls - 1), fun polls => (0.0, polls)⟩

/-- Behind a letter of two bytes and a blank of three, a poll stops between the two signs of a literal. With
one poll more the literal is eaten, and one that does not come next leaves the place in front of the blank. -/
theorem moves_safe_eats_atomic_midway :
    eat countdown ['<', '='] ⟨⟨"é\u2003<=x", ['\u2003', '<', '=', 'x'], 2⟩, 2⟩ =
        some (.error (.interrupted true), ⟨⟨"é\u2003<=x", ['=', 'x'], 6⟩, 0⟩) ∧
      Points "é\u2003<=x" 6 ['=', 'x'] ∧
      (∃ t, eat countdown ['<', '='] ⟨⟨"é\u2003<=x", ['\u2003', '<', '=', 'x'], 2⟩, 3⟩ = some (.ok true, t) ∧
        t.cursor.position = 7) ∧
      ∃ t, eat countdown ['='] ⟨⟨"é\u2003<=x", ['\u2003', '<', '=', 'x'], 2⟩, 3⟩ = some (.ok false, t) ∧
        t.cursor.position = 2 := by
  have hadvance : advance countdown ⟨Cursor.start "é\u2003<=x", 3⟩ =
      some (.ok (), ⟨⟨"é\u2003<=x", ['\u2003', '<', '=', 'x'], 2⟩, 2⟩) := rfl
  have hstopped : eat countdown ['<', '='] ⟨⟨"é\u2003<=x", ['\u2003', '<', '=', 'x'], 2⟩, 2⟩ =
      some (.error (.interrupted true), ⟨⟨"é\u2003<=x", ['=', 'x'], 6⟩, 0⟩) := rfl
  obtain ⟨hplaces, -, hcharacter, hliteral⟩ := moves_safe_eats_atomic countdown "é\u2003<=x" 3
  obtain ⟨-, hpoints, -⟩ := hplaces _ (.tail (.single (.advance hadvance)) (.eat _ hstopped))
  obtain ⟨seen, t, heat, hseen, hbehind, -⟩ :=
    hliteral ⟨⟨"é\u2003<=x", ['\u2003', '<', '=', 'x'], 2⟩, 3⟩ ['<', '='] ⟨rfl, rfl, rfl, trivial⟩
  obtain rfl : seen = true := hseen.mpr (by decide)
  obtain ⟨unseen, u, hlook, hunseen, hback⟩ :=
    hcharacter ⟨⟨"é\u2003<=x", ['\u2003', '<', '=', 'x'], 2⟩, 3⟩ '=' ⟨rfl, trivial⟩
  obtain rfl : unseen = false := Bool.eq_false_iff.mpr fun h => absurd (hunseen.mp h) (by decide)
  exact ⟨hstopped, hpoints, ⟨t, heat, (hbehind rfl).2⟩, u, hlook, congrArg Cursor.position (hback rfl)⟩

end Reading

end Formulae
