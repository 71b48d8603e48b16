import Formulae.Proofs.Equation.Agreement

/-!
# Proofs.Evaluation.Course — a run with all that happens in it

The course of a run lies beside its world. It notes each name whose value is needed, refused names and the
index of a summation among them, each question to the bindings with what was found, each iteration that
begins, each poll and each random number.

* `Node.walk`: a tree, evaluated by given actions; `Evaluator.run_eq_walk`: evaluation is such a walk.
* `Actions.Related.walk`: what relates the actions relates the walks.
* `evaluateNoting`: an evaluation whose actions note what they do.
* `Expression.evaluateNoted`, `Equation.evaluateNoted`: the runs of expressions and equations with their
  courses; without it, each is the run itself (`Expression.evaluateNoted_eq`, `Equation.evaluateNoted_eq`).
-/

namespace Formulae

open Number Evaluation

variable {σ τ : Type}

/-! ### Evaluations by their actions -/

/-- What the evaluation of a tree does, apart from calculating. -/
structure Actions (σ : Type) where
  poll : Evaluation σ Unit
  draw : Evaluation σ Float
  name : String → Evaluation σ Float
  sum : Float → Float → Evaluation σ Float → Evaluation σ Float

/-- The value of a tree by some actions. -/
def Node.walk (A : Actions σ) : Node → Evaluation σ Float
  | .number value => pure value
  | .constant value _ => pure value
  | .random => A.draw
  | .reference name _ => do
    A.poll
    A.name name
  | .unary op arg => do
    A.poll
    let x ← arg.walk A
    Run.ofExcept (checkFinite (op.apply x))
  | .binary op left right => do
    A.poll
    let x ← left.walk A
    let y ← right.walk A
    let z ← Run.ofExcept (op.apply x y)
    Run.ofExcept (checkFinite z)
  | .comparison op left right => do
    A.poll
    let x ← left.walk A
    let y ← right.walk A
    pure (ofBool (op.test x y))
  | .logic op left right => do
    A.poll
    let x ← left.walk A
    let p ← Run.ofExcept (toBool x)
    let y ← right.walk A
    let q ← Run.ofExcept (toBool y)
    pure (ofBool (op.apply p q))
  | .choice test yes no => do
    A.poll
    let x ← test.walk A
    let p ← Run.ofExcept (toBool x)
    if p then yes.walk A else no.walk A
  | .summation lower upper body => do
    A.poll
    let lo ← lower.walk A
    let hi ← upper.walk A
    A.sum lo hi (body.walk A)
  | .finite inner => do
    A.poll
    let x ← inner.walk A
    Run.ofExcept (checkFinite x)

/-- The actions of an evaluation. -/
def Evaluator.actions (E : Evaluator σ) : Actions σ where
  poll := poll E.host
  draw := draw E.host
  name := resolve E.source E.enter
  sum := sumOver E.host E.steps

/-- An evaluation is a walk by its actions. -/
theorem Evaluator.run_eq_walk (E : Evaluator σ) (node : Node) : E.run node = node.walk E.actions := by
  unfold Evaluator.run
  induction node with
  | number | constant | random | reference => rfl
  | unary op a ih | finite a ih => simp only [Node.evaluateWith, Node.walk, ih, actions]
  | binary op a b iha ihb | comparison op a b iha ihb | logic op a b iha ihb =>
    simp only [Node.evaluateWith, Node.walk, iha, ihb, actions]
  | choice a b c iha ihb ihc | summation a b c iha ihb ihc =>
    simp only [Node.evaluateWith, Node.walk, iha, ihb, ihc, actions]

/-- The relation holds between the actions and is kept by sequencing. A name is related together with the poll
in front of it. -/
structure Actions.Related (A : Actions σ) (B : Actions τ)
    (R : ∀ α : Type, Evaluation σ α → Evaluation τ α → Prop) : Prop extends Threads R where
  poll : R Unit A.poll B.poll
  draw : R Float A.draw B.draw
  name : ∀ name, R Float (A.poll >>= fun _ => A.name name) (B.poll >>= fun _ => B.name name)
  sum : ∀ (lower upper : Float) {body : Evaluation σ Float} {body' : Evaluation τ Float},
    R Float body body' → R Float (A.sum lower upper body) (B.sum lower upper body')

/-- It holds between the walks, then. -/
theorem Actions.Related.walk {A : Actions σ} {B : Actions τ}
    {R : ∀ α : Type, Evaluation σ α → Evaluation τ α → Prop} (h : A.Related B R) (node : Node) :
    R Float (node.walk A) (node.walk B) := by
  induction node with
  | number | constant => exact h.ofExcept (operational_ok _)
  | random => exact h.draw
  | reference name => exact h.name name
  | unary op a ih | finite a ih =>
    exact h.bind h.poll fun _ => h.bind ih fun _ => h.ofExcept (operational_checkFinite _)
  | binary op a b iha ihb =>
    exact h.bind h.poll fun _ => h.bind iha fun _ => h.bind ihb fun _ =>
      h.bind (h.ofExcept (operational_apply _ _ _)) fun _ => h.ofExcept (operational_checkFinite _)
  | comparison op a b iha ihb =>
    exact h.bind h.poll fun _ => h.bind iha fun _ => h.bind ihb fun _ => h.ofExcept (operational_ok _)
  | logic op a b iha ihb =>
    exact h.bind h.poll fun _ => h.bind iha fun _ => h.bind (h.ofExcept (operational_toBool _)) fun _ =>
      h.bind ihb fun _ => h.bind (h.ofExcept (operational_toBool _)) fun _ =>
        h.ofExcept (operational_ok _)
  | choice a b c iha ihb ihc =>
    refine h.bind h.poll fun _ => h.bind iha fun _ => h.bind (h.ofExcept (operational_toBool _)) ?_
    intro p
    cases p with
    | true => exact ihb
    | false => exact ihc
  | summation a b c iha ihb ihc =>
    exact h.bind h.poll fun _ => h.bind iha fun lower => h.bind ihb fun upper => h.sum lower upper ihc

/-! ### Notes -/

/-- What happens in a run. -/
inductive Happening where
  /-- The host was polled; `some cancelled` to stop the run. -/
  | polled (stop : Option Bool)
  /-- The value of a name was needed. -/
  | resolved (name : String)
  /-- The bindings were asked for a name, and whether the run was cancelled then. -/
  | read (name : String) (found : Lookup) (cancelled : Bool)
  /-- An iteration of a summation began. -/
  | began
  /-- A random number was drawn. -/
  | drawn

/-- What has happened in a run, the latest first. -/
abbrev Course := List Happening

/-- Puts something on the course beside a world. -/
def Happening.onto (h : Happening) (w : Course × σ) : Course × σ :=
  (h :: w.1, w.2)

/-- The same beside the counts of an equation. -/
def Happening.ontoCounted (h : Happening) (w : Tally × Course × σ) : Tally × Course × σ :=
  (w.1, h.onto w.2)

/-- Notes something; `add` puts it into the world. -/
def Evaluation.note (add : Happening → σ → σ) (h : Happening) : Evaluation σ Unit :=
  Run.modify fun ctx => { ctx with world := add h ctx.world }

/-- The actions of an evaluation, where names and iterations are noted before anything is done for them. -/
def Actions.noting (add : Happening → σ → σ) (E : Evaluator σ) : Actions σ where
  poll := Evaluation.poll E.host
  draw := Evaluation.draw E.host
  name name := do
    note add (.resolved name)
    resolve E.source E.enter name
  sum lower upper body := sumOver E.host E.steps lower upper do
    note add .began
    body

/-- The value of a tree, with names and iterations noted in all formulas and scopes. -/
def evaluateNoting (add : Happening → σ → σ) (host : Host σ) (source : Source σ) :
    Nat → Node → Evaluation σ Float
  | 0, _ => Run.exhausted
  | steps + 1, node => node.walk (.noting add ⟨host, source, evaluateNoting add host source steps, steps⟩)

/-- The host, with polls and random numbers noted. -/
def Host.noted (host : Host σ) : Host (Course × σ) where
  poll := fun (course, world) =>
    let (stop, world) := host.poll world
    (stop, Happening.onto (.polled stop) (course, world))
  random := fun (course, world) =>
    let (x, world) := host.random world
    (x, Happening.drawn.onto (course, world))

/-- The source, with all questions noted; `cancelled` tells whether a run in that world is cancelled. -/
def Source.noted (cancelled : σ → Bool) (source : Source σ) : Source (Course × σ) :=
  fun name (course, world) =>
    let (found, world) := source name world
    (found, Happening.onto (.read name found (cancelled world)) (course, world))

/-- The run of an expression under bindings, with its course. -/
def Expression.evaluateNoted (e : Expression) (limits : Limits) (host : Host σ) (cancelled : σ → Bool)
    (v : Bindings σ) (steps : Nat) (world : σ) : Option (Except Fault Float × Course × σ) :=
  (evaluateNoting Happening.onto host.noted (v.source.noted cancelled) steps e.root
    (Context.fresh limits ([], world))).map fun r => (r.1, r.2.world)

/-- The run of an equation, with its course. -/
def Equation.evaluateNoted (e : Equation σ) (host : Host σ) (cancelled : σ → Bool) (steps : Nat)
    (world : σ) : Option (Except Fault Float × Course × σ) :=
  (evaluateNoting Happening.ontoCounted (host.noted.onSecond Tally)
    (counted resolutionLimit (fun name => (e.bindings.get? name).isSome)
      (e.bindings.source.noted cancelled)) steps e.expression.root
    (Context.fresh e.expression.limits (Tally.empty, [], world))).map fun r => (r.1, r.2.world.2)

/-! ### Runs without their course -/

section Erasure

variable {add : Happening → τ → τ} {f : τ → σ} {limits : Limits} {host : Host τ} {host' : Host σ}
  {source : Source τ} {source' : Source σ}

/-- A note does not show. -/
theorem tracks_note (hadd : ∀ h w, f (add h w) = f w) (h : Happening) {α : Type}
    {x : Evaluation τ α} {y : Evaluation σ α} (hx : (View.along f limits).Tracks α x y) :
    (View.along f limits).Tracks α (note add h >>= fun _ => x) y := by
  intro ctx hs
  have hcontext : (View.along f limits).context { ctx with world := add h ctx.world } =
      (View.along f limits).context ctx :=
    congrArg (fun world => (⟨ctx.hits, ctx.index, limits, world⟩ : Context σ)) (hadd h ctx.world)
  have htracks := hx { ctx with world := add h ctx.world } ⟨hs.limits, trivial⟩
  rw [hcontext] at htracks
  exact htracks

/-- Without its notes, an evaluation is what it would be if nothing were noted. -/
theorem tracks_evaluateNoting (hadd : ∀ h w, f (add h w) = f w)
    (hhost : (View.along f limits).Hosts host host')
    (hsource : (View.along f limits).Sources source source') (steps : Nat) (node : Node) :
    (View.along f limits).Tracks Float (evaluateNoting add host source steps node)
      (evaluate host' source' steps node) := by
  induction steps generalizing node with
  | zero => exact fun _ _ => rfl
  | succ steps ih =>
    have hloop := hhost.iterates source source' (evaluateNoting add host source steps)
      (evaluate host' source' steps) steps
    have hrelated : Actions.Related
        (.noting add ⟨host, source, evaluateNoting add host source steps, steps⟩)
        (Evaluator.actions ⟨host', source', evaluate host' source' steps, steps⟩)
        (View.along f limits).Tracks :=
      { toThreads := hloop.toThreads
        poll := hhost.tracks_poll
        draw := hhost.tracks_draw
        name := fun name => hhost.tracks_poll.bind fun _ =>
          tracks_note hadd _ (hsource.tracks_resolve ih name)
        sum := fun lower upper body body' hbody =>
          View.tracks_sumOver lower upper (hloop.iterate
            (fun index => View.Tracks.inScope index (tracks_note hadd _ hbody)) rfl 0 0.0) }
    have hrun := Evaluator.run_eq_walk ⟨host', source', evaluate host' source' steps, steps⟩ node
    rw [show evaluate host' source' (steps + 1) node = _ from hrun]
    exact hrelated.walk node

variable (add) in
theorem evaluateNoting_along (hadd : ∀ h w, f (add h w) = f w)
    (hhost : (View.along f limits).Hosts host host')
    (hsource : (View.along f limits).Sources source source') (steps : Nat) (node : Node) (w : τ) :
    evaluateFresh host' source' steps limits node (f w) =
      (evaluateNoting add host source steps node (Context.fresh limits w)).map
        fun r => (r.1, f r.2.world) := by
  rw [evaluateFresh_eq_map]
  have hsees : (View.along f limits).Sees (Context.fresh limits w) := ⟨rfl, trivial⟩
  rcases (tracks_evaluateNoting hadd hhost hsource steps node).cases hsees with ⟨_, _, hexit, _⟩ | hsame
  · exact hexit.elim
  · refine (congrArg _ hsame).trans ?_
    rw [Option.map_map]
    rfl

end Erasure

/-- Without its course, the run of an expression is the run. -/
theorem Expression.evaluateNoted_eq (e : Expression) (limits : Limits) (host : Host σ)
    (cancelled : σ → Bool) (v : Bindings σ) (steps : Nat) (world : σ) :
    e.evaluateUnder limits host v.source steps world =
      (e.evaluateNoted limits host cancelled v steps world).map fun r => (r.1, r.2.2) := by
  have hhost : (View.along Prod.snd limits).Hosts host.noted host :=
    ⟨fun _ _ => ⟨trivial, rfl⟩, fun _ _ => ⟨trivial, rfl⟩⟩
  have hsource : (View.along Prod.snd limits).Sources (v.source.noted cancelled) v.source :=
    fun _ _ _ => .inr ⟨trivial, rfl⟩
  refine (evaluateNoting_along Happening.onto (fun _ _ => rfl) hhost hsource steps e.root ([], world)).trans ?_
  rw [evaluateNoted, Option.map_map]
  rfl

/-- Counting a source whose questions are noted counts the source. -/
theorem Equation.counted_noted (limit : Nat) (isBound : String → Bool) (cancelled : σ → Bool)
    (source : Source σ) (name : String) (w : Tally × Course × σ) :
    counted limit isBound source name (w.1, w.2.2) =
      ((counted limit isBound (source.noted cancelled) name w).1,
        (counted limit isBound (source.noted cancelled) name w).2.1,
        (counted limit isBound (source.noted cancelled) name w).2.2.2) := by
  obtain ⟨tally, course, world⟩ := w
  unfold counted
  cases isBound name with
  | false => rfl
  | true =>
    simp only [if_true]
    by_cases hlimit : limit ≤ (tally.add name).count name
    · simp only [hlimit, if_true]
    · simp only [hlimit, if_false]
      rfl

/-- Without its course, the run of an equation is the run. -/
theorem Equation.evaluateNoted_eq (e : Equation σ) (host : Host σ) (cancelled : σ → Bool) (steps : Nat)
    (world : σ) :
    e.evaluate host steps world =
      (e.evaluateNoted host cancelled steps world).map fun r => (r.1, r.2.2) := by
  let forget : Tally × Course × σ → Tally × σ := fun w => (w.1, w.2.2)
  have hhost : (View.along forget e.expression.limits).Hosts (host.noted.onSecond Tally)
      (host.onSecond Tally) :=
    ⟨fun _ _ => ⟨trivial, rfl⟩, fun _ _ => ⟨trivial, rfl⟩⟩
  have hsource : (View.along forget e.expression.limits).Sources
      (counted resolutionLimit (fun name => (e.bindings.get? name).isSome)
        (e.bindings.source.noted cancelled)) e.source := by
    intro name w _
    exact .inr ⟨trivial, counted_noted _ _ cancelled e.bindings.source name w⟩
  have hrun := evaluateNoting_along Happening.ontoCounted (fun _ _ => rfl) hhost
    hsource steps e.expression.root (Tally.empty, [], world)
  rw [evaluate_eq_map, evaluateNoted, Option.map_map]
  refine (congrArg (Option.map _) hrun).trans ?_
  rw [Option.map_map]
  rfl

end Formulae
