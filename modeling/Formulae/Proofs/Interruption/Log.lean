import Formulae.Proofs.Equation.Agreement
import Formulae.Proofs.Reading.Tracking

/-!
# Proofs.Interruption.Log — what a run does that others notice

The log of a run lies beside its world. Each poll of the host is noted with its answer, each random number
and each question to a supplier too.

* `Host.logged`, `Bindings.logged`, `Equation.logged`: hosts, bindings and equations that keep the log.
* `Host.passing`: the host whose polls all pass.
* `Expression.read_logged`, `Expression.evaluateUnder_logged`, `Equation.evaluate_logged`: without its log, a
  run is the one it would be if nothing were noted.
-/

namespace Formulae

variable {σ : Type}

/-- What a run does that others notice. -/
inductive Event where
  /-- The host was polled; `some cancelled` to stop the run. -/
  | polled (stop : Option Bool)
  /-- The supplier of a name was asked. -/
  | asked (name : String)
  /-- A random number was drawn. -/
  | drawn
deriving DecidableEq

/-- The events of a run, the latest one first. -/
abbrev Log := List Event

/-- Every poll in the log has passed. -/
def Passed (log : Log) : Prop :=
  ∀ cancelled, Event.polled (some cancelled) ∉ log

theorem passed_nil : Passed [] := by
  simp [Passed]

theorem passed_append {later earlier : Log} :
    Passed (later ++ earlier) ↔ Passed later ∧ Passed earlier := by
  simp [Passed, forall_and]

/-- The host, with polls and random numbers noted. -/
def Host.logged (host : Host σ) : Host (Log × σ) where
  poll := fun (log, world) =>
    let (stop, world) := host.poll world
    (stop, (.polled stop :: log, world))
  random := fun (log, world) =>
    let (x, world) := host.random world
    (x, (.drawn :: log, world))

/-- The host whose polls all pass; what they do to the world stays the same. -/
def Host.passing (host : Host σ) : Host σ where
  poll world := (none, (host.poll world).2)
  random := host.random

/-- The binding of a name, with each question to a supplier noted. -/
def Binding.logged (name : String) : Binding σ → Binding (Log × σ)
  | .value x => .value x
  | .supplier ask => .supplier fun (log, world) =>
    let (outcome, world) := ask world
    (outcome, (.asked name :: log, world))
  | .formula expression => .formula expression

/-- The bindings, with each question to a supplier noted. -/
def Bindings.logged (v : Bindings σ) : Bindings (Log × σ) :=
  ⟨v.entries.map fun entry => (entry.1, entry.2.logged entry.1)⟩

/-- The equation, with each question to a supplier noted. -/
def Equation.logged (e : Equation σ) : Equation (Log × σ) :=
  ⟨e.expression, e.bindings.logged⟩

theorem Bindings.get?_logged (v : Bindings σ) (name : String) :
    v.logged.get? name = (v.get? name).map (Binding.logged name) := by
  obtain ⟨entries⟩ := v
  unfold Bindings.get? Bindings.logged
  induction entries with
  | nil => rfl
  | cons entry rest ih =>
    obtain ⟨key, b⟩ := entry
    simp only [List.map_cons, getIn]
    by_cases h : key = name
    · simp [h]
    · simp only [h, if_false]
      exact ih

/-- A logged binding yields what the binding yields. -/
theorem Binding.look_logged (b : Binding σ) (name : String) (w : Log × σ) :
    ((b.logged name).look w).1 = (b.look w.2).1 ∧ ((b.logged name).look w).2.2 = (b.look w.2).2 := by
  cases b with
  | value x => exact ⟨rfl, rfl⟩
  | supplier ask => exact ⟨rfl, rfl⟩
  | formula expression => exact ⟨rfl, rfl⟩

theorem Bindings.source_logged (v : Bindings σ) (name : String) (w : Log × σ) :
    v.source name w.2 = ((v.logged.source name w).1, (v.logged.source name w).2.2) := by
  unfold Bindings.source
  rw [v.get?_logged]
  cases hget : v.get? name with
  | none => rfl
  | some b =>
    obtain ⟨hfound, hworld⟩ := b.look_logged name w
    exact Prod.ext hfound.symm hworld.symm

/-- What a question to the bindings adds to the log is no poll. -/
theorem Bindings.logged_notes (v : Bindings σ) (name : String) (w : Log × σ) :
    ∃ events, (v.logged.source name w).2.1 = events ++ w.1 ∧ Passed events := by
  unfold Bindings.source
  rw [v.get?_logged]
  cases v.get? name with
  | none => exact ⟨[], rfl, passed_nil⟩
  | some b =>
    cases b with
    | value x => exact ⟨[], rfl, passed_nil⟩
    | supplier ask => exact ⟨[.asked name], rfl, by simp [Passed]⟩
    | formula expression => exact ⟨[], rfl, passed_nil⟩

/-! ### Runs without their log -/

theorem readNode_logged (host : Host σ) (options : ReadingOptions) (steps : Nat) (source : String)
    (log : Log) (world : σ) :
    readNode host options steps source world =
      (readNode host.logged options steps source (log, world)).map fun r => (r.1, r.2.2) := by
  have hhost : (View.along Prod.snd options.limits).Hosts host.logged host :=
    ⟨fun _ _ => ⟨trivial, rfl⟩, fun _ _ => ⟨trivial, rfl⟩⟩
  exact Reading.readNode_along hhost steps source (log, world)

theorem Expression.read_logged (host : Host σ) (options : ReadingOptions) (steps : Nat) (source : String)
    (log : Log) (world : σ) :
    Expression.read host options steps source world =
      (Expression.read host.logged options steps source (log, world)).map fun r => (r.1, r.2.2) := by
  unfold Expression.read
  rw [Run.bind_apply, Run.bind_apply, readNode_logged host options steps source log world]
  rcases readNode host.logged options steps source (log, world) with _ | ⟨_ | root, after⟩ <;> rfl

theorem Expression.evaluateUnder_logged (e : Expression) (limits : Limits) (host : Host σ)
    (v : Bindings σ) (steps : Nat) (log : Log) (world : σ) :
    e.evaluateUnder limits host v.source steps world =
      (e.evaluateUnder limits host.logged v.logged.source steps (log, world)).map
        fun r => (r.1, r.2.2) := by
  have hhost : (View.along Prod.snd limits).Hosts host.logged host :=
    ⟨fun _ _ => ⟨trivial, rfl⟩, fun _ _ => ⟨trivial, rfl⟩⟩
  have hsource : (View.along Prod.snd limits).Sources v.logged.source v.source :=
    fun name w _ => .inr ⟨trivial, v.source_logged name w⟩
  exact View.evaluateFresh_along Prod.snd hhost hsource steps e.root (log, world)

/-- The counts of an equation are the same with a log and without. -/
theorem Equation.source_logged (e : Equation σ) (name : String) (w : Tally × Log × σ) :
    e.source name (w.1, w.2.2) =
      ((e.logged.source name w).1, (e.logged.source name w).2.1, (e.logged.source name w).2.2.2) := by
  have hbound : (e.logged.bindings.get? name).isSome = (e.bindings.get? name).isSome := by
    rw [Equation.logged, Bindings.get?_logged, Option.isSome_map]
  have hsource := e.bindings.source_logged name w.2
  unfold Equation.source Equation.counted
  simp only [hbound]
  cases (e.bindings.get? name).isSome with
  | false => rfl
  | true =>
    simp only [if_true]
    by_cases hlimit : resolutionLimit ≤ (w.1.add name).count name
    · simp only [hlimit, if_true]
    · simp only [hlimit, if_false, hsource]
      rfl

theorem Equation.evaluate_logged (e : Equation σ) (host : Host σ) (steps : Nat) (log : Log) (world : σ) :
    e.evaluate host steps world =
      (e.logged.evaluate host.logged steps (log, world)).map fun r => (r.1, r.2.2) := by
  let forget : Tally × Log × σ → Tally × σ := fun w => (w.1, w.2.2)
  have hhost : (View.along forget e.expression.limits).Hosts (host.logged.onSecond Tally)
      (host.onSecond Tally) :=
    ⟨fun _ _ => ⟨trivial, rfl⟩, fun _ _ => ⟨trivial, rfl⟩⟩
  have hsource : (View.along forget e.expression.limits).Sources e.logged.source e.source :=
    fun name w _ => .inr ⟨trivial, e.source_logged name w⟩
  have hrun := View.evaluateFresh_along forget hhost hsource steps e.expression.root
    (Tally.empty, log, world)
  rw [evaluate_eq_map, evaluate_eq_map, Option.map_map]
  refine (congrArg (Option.map _) hrun).trans ?_
  rw [Option.map_map]
  rfl

end Formulae
