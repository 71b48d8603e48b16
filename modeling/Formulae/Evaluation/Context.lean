import Formulae.Formula.Node
import Formulae.Limits
import Formulae.Run
import Formulae.Tally
import Formulae.World

/-!
# Contexts — the state of an evaluation

* `Source` supplies what names stand for.
* `Context` holds how often each name was resolved, the index of the enclosing summation, the limits and
  the world. One evaluation starts from a fresh context; each iteration of a summation runs in a scope
  of its own (`Context.within`), which starts with empty counts and shares the rest.
-/

namespace Formulae

/-- What a name stands for. -/
inductive Lookup where
  /-- The name is not bound. -/
  | unbound
  /-- A value, or the fault of the one who should supply it. -/
  | value (outcome : Except Fault Float)
  /-- A formula, to be evaluated where the name stands. -/
  | formula (root : Node)

/-- What names stand for, over worlds `σ`. -/
abbrev Source (σ : Type) := String → σ → Lookup × σ

/-- The source that binds nothing. -/
def Source.none {σ : Type} : Source σ :=
  fun _ world => (.unbound, world)

/-- The state of an evaluation. -/
structure Context (σ : Type) where
  /-- How often each name was resolved in this scope. -/
  hits : Tally
  /-- The index of the innermost summation around. -/
  index : Option Float
  limits : Limits
  world : σ

/-- A part of an evaluation. -/
abbrev Evaluation (σ α : Type) := Run (Context σ) α

namespace Context

variable {σ : Type}

/-- The context in which an evaluation starts. -/
def fresh (limits : Limits) (world : σ) : Context σ :=
  ⟨Tally.empty, none, limits, world⟩

/-- The context with one more resolution of a name. -/
def hit (ctx : Context σ) (name : String) : Context σ :=
  { ctx with hits := ctx.hits.add name }

/-- The context of one iteration of a summation. -/
def within (ctx : Context σ) (index : Float) : Context σ :=
  { ctx with hits := Tally.empty, index := some index }

/-- The value of a name that is the index of the summation around. -/
def boundIndex? (ctx : Context σ) (name : String) : Option Float :=
  if name = summationIndex then ctx.index else none

end Context

namespace Evaluation

variable {σ α : Type}

/-- Goes on unless the host stops the run. -/
def poll (host : Host σ) : Evaluation σ Unit := fun ctx =>
  match host.poll ctx.world with
  | (none, world) => some (.ok (), { ctx with world })
  | (some cancelled, world) => some (.error (.interrupted cancelled), { ctx with world })

/-- A random number from the host. -/
def draw (host : Host σ) : Evaluation σ Float := fun ctx =>
  let (x, world) := host.random ctx.world
  some (.ok x, { ctx with world })

/-- An evaluation in the scope of an iteration. Of what it leaves, only the world is kept. -/
def inScope (index : Float) (body : Evaluation σ α) : Evaluation σ α := fun ctx =>
  match body (ctx.within index) with
  | some (outcome, inner) => some (outcome, { ctx with world := inner.world })
  | none => none

/-- The value of a name. The index of the summation around is that value and not counted. Any other
name is counted, whether it is bound or not, and fails when its count exceeds the limit; a formula that
it stands for is evaluated by `enter` in the same context. -/
def resolve (source : Source σ) (enter : Node → Evaluation σ Float) (name : String) :
    Evaluation σ Float := fun ctx =>
  match ctx.boundIndex? name with
  | some index => some (.ok index, ctx)
  | none =>
    let ctx := ctx.hit name
    let limit := ctx.limits.substitutions
    if limit < ctx.hits.count name then
      some (.error (.domain (.recursiveVariable name limit)), ctx)
    else
      match source name ctx.world with
      | (.unbound, world) => some (.error (.unset name), { ctx with world })
      | (.value outcome, world) => some (outcome, { ctx with world })
      | (.formula root, world) => enter root { ctx with world }

end Evaluation

end Formulae
