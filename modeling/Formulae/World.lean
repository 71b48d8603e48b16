/-!
# Worlds — what a run meets outside of itself

A run over a formula meets the world at three points: it polls whether it has to stop, it draws random
numbers, and it reads values that others supply. The world is a state that these points may change, so
the final world tells what was read and in which order.

* `Host`: the first two points, for any type of worlds.
* `World`: the world of the program, which holds cancelled tokens and a seed.
* `Deadline`: when to stop. Time does not pass during a run: a deadline of no duration has passed at
  once and any other never passes.
-/

namespace Formulae

/-- How a run polls for interruptions and draws random numbers. -/
structure Host (σ : Type) where
  /-- `some cancelled` to stop the run. -/
  poll : σ → Option Bool × σ
  /-- A number from zero, inclusive, to one, exclusive. -/
  random : σ → Float × σ

/-- The host that acts on a part of a larger world. -/
def Host.onSecond {σ : Type} (host : Host σ) (τ : Type) : Host (τ × σ) where
  poll := fun (t, s) => let (stop, s) := host.poll s; (stop, (t, s))
  random := fun (t, s) => let (x, s) := host.random s; (x, (t, s))

/-- A name for a request to cancel work. -/
abbrev Token := Nat

/-- The world of the program. -/
structure World where
  /-- The tokens that were cancelled. -/
  cancelled : List Token
  /-- The state of the random numbers. -/
  seed : UInt64
deriving DecidableEq

namespace World

/-- The world at the start, with nothing cancelled. -/
def start (seed : UInt64) : World := ⟨[], seed⟩

/-- The world after a token was cancelled. -/
def cancel (w : World) (token : Token) : World :=
  { w with cancelled := token :: w.cancelled }

/-- The bits of one state of the random numbers, well mixed. -/
def mix (z : UInt64) : UInt64 :=
  let z := (z ^^^ (z >>> 30)) * 0xBF58476D1CE4E5B9
  let z := (z ^^^ (z >>> 27)) * 0x94D049BB133111EB
  z ^^^ (z >>> 31)

/-- A uniform number of 53 bits, and the world after the draw. -/
def random (w : World) : Float × World :=
  let seed := w.seed + 0x9E3779B97F4A7C15
  (Float.ofNat ((mix seed).toNat >>> 11) / 9007199254740992.0, { w with seed })

end World

/-- When work has to stop. -/
structure Deadline where
  /-- The time it was given, in milliseconds. -/
  milliseconds : Nat
  /-- A token that stops it when cancelled. -/
  token : Option Token := none

namespace Deadline

/-- Whether work has to stop now: a cancellation wins over the time. -/
def stop (d : Deadline) (w : World) : Option Bool :=
  if d.token.any (w.cancelled.contains ·) then some true
  else if d.milliseconds = 0 then some false
  else none

/-- The host that stops work at the deadline. -/
def host (d : Deadline) : Host World where
  poll w := (d.stop w, w)
  random := World.random

end Deadline

end Formulae
