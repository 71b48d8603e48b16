import Mathlib.Logic.Relation
import Formulae.Bindings
import Formulae.Proofs.Evaluation.Rounds

/-!
# Proofs.Evaluation.Frame — what an evaluation leaves of its context

Names are counted in the context where they stand, and a formula that a name stands for is evaluated in that
same context. Only the iterations of a summation have contexts of their own.

* `Frame`: the index and the limits as they were, no count lower, and a world that polls, random numbers and
  reads have changed.
* `framed_evaluate`: an evaluation leaves such a context, whatever it ends in.
* `sumOver_world`: behind its bounds, a summation changes nothing but the world.
* `iterate_fails`: a name that is refused in a loop is refused in its body alone.
-/

namespace Formulae

open Number Evaluation Relation

variable {σ : Type}

/-- What a run may do to the world at once. -/
inductive Touches (host : Host σ) (source : Source σ) (world : σ) : σ → Prop where
  | poll : Touches host source world (host.poll world).2
  | draw : Touches host source world (host.random world).2
  | read (name : String) : Touches host source world (source name world).2

/-- Polls and random numbers lead from one world to the other. -/
def Drifts (host : Host σ) : σ → σ → Prop :=
  ReflTransGen fun world after => after = (host.poll world).2 ∨ after = (host.random world).2

/-- The index and the limits are as they were, no count is lower, and what happened to the world is what runs
may do to it. -/
structure Frame (host : Host σ) (source : Source σ) (ctx after : Context σ) : Prop where
  index : after.index = ctx.index
  limits : after.limits = ctx.limits
  counts : ∀ name, ctx.hits.count name ≤ after.hits.count name
  world : ReflTransGen (Touches host source) ctx.world after.world

/-- Whatever the evaluation ends in, it leaves its context in this frame. -/
def Framed (host : Host σ) (source : Source σ) (α : Type) (x : Evaluation σ α) : Prop :=
  ∀ ctx outcome after, x ctx = some (outcome, after) → Frame host source ctx after

section Rules

variable {host : Host σ} {source : Source σ} {α β : Type}

theorem Frame.refl (ctx : Context σ) : Frame host source ctx ctx :=
  ⟨rfl, rfl, fun _ => Nat.le_refl _, .refl⟩

theorem Frame.trans {ctx mid after : Context σ} (h : Frame host source ctx mid)
    (h' : Frame host source mid after) : Frame host source ctx after where
  index := h'.index.trans h.index
  limits := h'.limits.trans h.limits
  counts name := Nat.le_trans (h.counts name) (h'.counts name)
  world := h.world.trans h'.world

/-- Only the world has changed. -/
theorem Frame.of_world {ctx : Context σ} {world : σ}
    (h : ReflTransGen (Touches host source) ctx.world world) :
    Frame host source ctx { ctx with world } :=
  ⟨rfl, rfl, fun _ => Nat.le_refl _, h⟩

theorem Frame.hit (ctx : Context σ) (name : String) : Frame host source ctx (ctx.hit name) where
  index := rfl
  limits := rfl
  counts other := by
    show _ ≤ (ctx.hits.add name).count other
    rw [Tally.count_add]
    exact Nat.le_add_right _ _
  world := .refl

theorem framed_ofExcept (outcome : Except Fault α) : Framed host source α (Run.ofExcept outcome) := by
  rintro ctx _ _ ⟨⟩
  exact .refl ctx

theorem framed_read (f : Context σ → α) : Framed host source α (Run.read f) := by
  rintro ctx _ _ ⟨⟩
  exact .refl ctx

theorem Framed.bind {x : Evaluation σ α} {f : α → Evaluation σ β} (h : Framed host source α x)
    (hf : ∀ a, Framed host source β (f a)) : Framed host source β (x >>= f) := by
  intro ctx outcome after hrun
  rcases Run.bind_cases hrun with ⟨fault, -, hx⟩ | ⟨a, mid, hx, hrest⟩
  · exact h ctx _ after hx
  · exact (h ctx _ mid hx).trans (hf a mid outcome after hrest)

theorem framed_poll : Framed host source Unit (poll host) := by
  intro ctx outcome after hrun
  obtain ⟨rfl, -⟩ := poll_eq_some hrun
  exact .of_world (.single .poll)

theorem framed_draw : Framed host source Float (draw host) := by
  rintro ctx _ _ ⟨⟩
  exact .of_world (.single .draw)

/-- The counts of an iteration are left behind in its scope. -/
theorem framed_inScope (index : Float) {x : Evaluation σ α} (h : Framed host source α x) :
    Framed host source α (inScope index x) := by
  intro ctx outcome after hrun
  obtain ⟨inner, hx, rfl⟩ := inScope_eq_some hrun
  exact .of_world (h (ctx.within index) outcome inner hx).world

theorem framed_resolve {enter : Node → Evaluation σ Float}
    (henter : ∀ root, Framed host source Float (enter root)) (name : String) :
    Framed host source Float (resolve source enter name) := by
  intro ctx outcome after hrun
  have hhit : Frame host source ctx (ctx.hit name) := .hit ctx name
  rcases hindex : ctx.boundIndex? name with _ | index
  · by_cases hlimit : ctx.limits.substitutions < (ctx.hit name).hits.count name
    · rw [resolve_of_refused _ _ hindex hlimit] at hrun
      cases hrun
      exact hhit
    · rcases hfound : source name ctx.world with ⟨found, world⟩
      have hread : ReflTransGen (Touches host source) ctx.world world := by
        have htouches : Touches host source ctx.world (source name ctx.world).2 := .read name
        rw [hfound] at htouches
        exact .single htouches
      have hbefore : Frame host source ctx { ctx.hit name with world } :=
        hhit.trans (.of_world hread)
      rw [resolve_of_found _ _ hindex hlimit hfound] at hrun
      cases found with
      | unbound =>
        cases hrun
        exact hbefore
      | value supplied =>
        cases hrun
        exact hbefore
      | formula root => exact hbefore.trans (henter root _ outcome after hrun)
  · rw [resolve_of_index _ _ hindex] at hrun
    cases hrun
    exact .refl ctx

theorem lifts_framed (host : Host σ) (source : Source σ) (enter : Node → Evaluation σ Float)
    (steps : Nat) :
    Lifts ⟨host, source, enter, steps⟩ ⟨host, source, enter, steps⟩ Eq
      fun α x _ => Framed host source α x where
  ofExcept _ := framed_ofExcept _
  bind := Framed.bind
  limit := framed_read _
  poll := framed_poll
  inScope index _ _ := framed_inScope index
  exhausted _ _ := nofun
  succ h := ⟨_, h.symm, rfl⟩
  steps := rfl

end Rules

/-- An evaluation leaves its context in the frame, in success and failure. -/
theorem framed_evaluate (host : Host σ) (source : Source σ) (steps : Nat) (node : Node) :
    Framed host source Float (evaluate host source steps node) := by
  induction steps generalizing node with
  | zero => exact nofun
  | succ steps ih =>
    exact (lifts_framed host source (evaluate host source steps) steps).run framed_draw
      (framed_resolve ih) node

/-! ### Summations -/

section Summations

variable {host : Host σ} {source : Source σ} {steps : Nat}

/-- The two bounds of a summation. -/
def boundsOf (host : Host σ) (source : Source σ) (steps : Nat) (a b : Node) :
    Evaluation σ (Float × Float) := do
  poll host
  let lower ← evaluate host source steps a
  let upper ← evaluate host source steps b
  pure (lower, upper)

theorem framed_boundsOf {a b : Node} :
    Framed host source (Float × Float) (boundsOf host source steps a b) :=
  framed_poll.bind fun _ => (framed_evaluate host source steps a).bind fun _ =>
    (framed_evaluate host source steps b).bind fun _ => framed_ofExcept _

/-- A fault of the bounds that is not an interruption is that of one of them. -/
theorem boundsOf_fails {a b : Node} {ctx after : Context σ} {fault : Fault}
    (hcalm : fault.isInterruption = false)
    (h : boundsOf host source steps a b ctx = some (.error fault, after)) :
    ∃ polled, poll host ctx = some (.ok (), polled) ∧
      (evaluate host source steps a polled = some (.error fault, after) ∨
        ∃ lower between, evaluate host source steps a polled = some (.ok lower, between) ∧
          evaluate host source steps b between = some (.error fault, after)) := by
  rcases Run.bind_cases h with ⟨_, ⟨⟩, hpoll⟩ | ⟨_, polled, hpoll, h⟩
  · rw [(poll_eq_some hpoll).2 fault rfl] at hcalm
    cases hcalm
  · rcases Run.bind_cases h with ⟨_, ⟨⟩, hlower⟩ | ⟨lower, between, hlower, h⟩
    · exact ⟨polled, hpoll, .inl hlower⟩
    · rcases Run.bind_cases h with ⟨_, ⟨⟩, hupper⟩ | ⟨upper, last, -, hpure⟩
      · exact ⟨polled, hpoll, .inr ⟨lower, between, hlower, hupper⟩⟩
      · cases hpure

theorem evaluate_summation (host : Host σ) (source : Source σ) (steps : Nat) (a b c : Node) :
    evaluate host source (steps + 1) (.summation a b c) =
      (boundsOf host source (steps + 1) a b >>= fun bounds =>
        sumOver host steps bounds.1 bounds.2 (evaluate host source (steps + 1) c)) := by
  simp only [boundsOf, bind_assoc, pure_bind]
  rfl

/-- What one iteration of a loop comes to. It is the last one when the index is above the upper bound, when
the host stops the run, or when the body fails; else the loop goes on in the world that the body leaves. -/
theorem iterate_cases {lower upper : Float} {body : Evaluation σ Float} {step : Nat} {total : Float}
    {ctx after : Context σ} {outcome : Except Fault Float}
    (h : iterate host lower upper body (steps + 1) step total ctx = some (outcome, after)) :
    (upper < indexAt lower step ∧ outcome = checkFinite total ∧ after = ctx) ∨
    ¬ upper < indexAt lower step ∧
      ((∃ fault, outcome = .error fault ∧ fault.isInterruption = true ∧
        after = { ctx with world := (host.poll ctx.world).2 }) ∨
      ∃ result inner, body ⟨Tally.empty, some (indexAt lower step), ctx.limits, (host.poll ctx.world).2⟩ =
          some (result, inner) ∧
        ((∃ fault, result = .error fault ∧ outcome = .error fault ∧
          after = { ctx with world := inner.world }) ∨
        ∃ value, result = .ok value ∧ iterate host lower upper body steps (step + 1) (total + value)
          { ctx with world := inner.world } = some (outcome, after))) := by
  by_cases habove : upper < indexAt lower step
  · rw [iterate_of_above habove] at h
    cases h
    exact .inl ⟨habove, rfl, rfl⟩
  · have hround : iterate host lower upper body (steps + 1) step total = (do
        poll host
        let value ← inScope (indexAt lower step) body
        iterate host lower upper body steps (step + 1) (total + value)) := if_neg habove
    rw [hround] at h
    refine .inr ⟨habove, ?_⟩
    rcases Run.bind_cases h with ⟨fault, rfl, hpoll⟩ | ⟨_, polled, hpoll, h⟩
    · exact .inl ⟨fault, rfl, (poll_eq_some hpoll).2 fault rfl, (poll_eq_some hpoll).1⟩
    · obtain ⟨rfl, -⟩ := poll_eq_some hpoll
      rcases Run.bind_cases h with ⟨fault, rfl, hscope⟩ | ⟨value, next, hscope, h⟩
      · obtain ⟨inner, hinner, rfl⟩ := inScope_eq_some hscope
        exact .inr ⟨_, inner, hinner, .inl ⟨fault, rfl, rfl, rfl⟩⟩
      · obtain ⟨inner, hinner, rfl⟩ := inScope_eq_some hscope
        exact .inr ⟨_, inner, hinner, .inr ⟨value, rfl, h⟩⟩

/-- A loop changes nothing but the world, whatever its body does. -/
theorem iterate_world {lower upper : Float} {body : Evaluation σ Float} {step : Nat} {total : Float}
    {ctx after : Context σ} {outcome : Except Fault Float}
    (h : iterate host lower upper body steps step total ctx = some (outcome, after)) :
    after = { ctx with world := after.world } := by
  induction steps generalizing step total ctx with
  | zero => cases h
  | succ steps ih =>
    rcases iterate_cases h with ⟨-, -, rfl⟩ | ⟨-, ⟨_, -, -, rfl⟩ | ⟨_, inner, -, hbody⟩⟩
    · rfl
    · rfl
    · rcases hbody with ⟨_, -, -, rfl⟩ | ⟨value, -, hrest⟩
      · rfl
      · rw [ih hrest]

/-- Behind its bounds a summation changes nothing but the world, whatever its body does. -/
theorem sumOver_world {lower upper : Float} {body : Evaluation σ Float} {ctx after : Context σ}
    {outcome : Except Fault Float} (h : sumOver host steps lower upper body ctx = some (outcome, after)) :
    after = { ctx with world := after.world } := by
  by_cases hbounds : upper < lower
  · rw [sumOver, if_pos hbounds] at h
    cases h
    rfl
  · rw [sumOver_of_ordered steps ctx hbounds] at h
    split at h
    · cases h
      rfl
    · exact iterate_world h

/-- A fault of a loop that is neither that of an operation nor an interruption is that of its body in the
scope of one iteration, by itself. -/
theorem iterate_fails {lower upper : Float} {body : Evaluation σ Float}
    (hbody : Framed host source Float body) {fault : Fault} (hop : fault.isOperational = false)
    (hcalm : fault.isInterruption = false) {step : Nat} {total : Float} {ctx after : Context σ}
    (h : iterate host lower upper body steps step total ctx = some (.error fault, after)) :
    ∃ k world inner, ¬ upper < indexAt lower k ∧ ReflTransGen (Touches host source) ctx.world world ∧
      body ⟨Tally.empty, some (indexAt lower k), ctx.limits, world⟩ = some (.error fault, inner) := by
  induction steps generalizing step total ctx with
  | zero => cases h
  | succ steps ih =>
    have hpoll : ReflTransGen (Touches host source) ctx.world (host.poll ctx.world).2 := .single .poll
    rcases iterate_cases h with
      ⟨-, houtcome, -⟩ | ⟨hwithin, ⟨_, ⟨⟩, hstop, -⟩ | ⟨result, inner, hinner, hrest⟩⟩
    · rw [operational_checkFinite total fault houtcome.symm] at hop
      cases hop
    · rw [hstop] at hcalm
      cases hcalm
    · rcases hrest with ⟨_, rfl, ⟨⟩, -⟩ | ⟨value, rfl, hrest⟩
      · exact ⟨step, _, inner, hwithin, hpoll, hinner⟩
      · obtain ⟨k, world, inner', hwithin', hworld, hfails⟩ := ih hrest
        have hbefore := hpoll.trans (hbody _ _ _ hinner).world
        exact ⟨k, world, inner', hwithin', hbefore.trans hworld, hfails⟩

/-- The same for a summation behind its bounds. -/
theorem sumOver_fails {lower upper : Float} {body : Evaluation σ Float}
    (hbody : Framed host source Float body) {fault : Fault} (hop : fault.isOperational = false)
    (hcalm : fault.isInterruption = false) {ctx after : Context σ}
    (h : sumOver host steps lower upper body ctx = some (.error fault, after)) :
    ∃ k world inner, ¬ upper < indexAt lower k ∧ ReflTransGen (Touches host source) ctx.world world ∧
      body ⟨Tally.empty, some (indexAt lower k), ctx.limits, world⟩ = some (.error fault, inner) := by
  by_cases hbounds : upper < lower
  · rw [sumOver, if_pos hbounds] at h
    cases h
    cases hop
  · rw [sumOver_of_ordered steps ctx hbounds] at h
    split at h
    · cases h
      cases hop
    · exact iterate_fails hbody hop hcalm h

end Summations

/-- Values and formulas leave the world as it is when they are read. -/
theorem Bindings.drifts_of_touches {host : Host σ} {v : Bindings σ}
    (silent : ∀ name ask, v.get? name ≠ some (.supplier ask)) {world after : σ}
    (h : ReflTransGen (Touches host v.source) world after) : Drifts host world after := by
  induction h with
  | refl => exact .refl
  | tail _ hstep ih =>
    cases hstep with
    | poll => exact ih.tail (.inl rfl)
    | draw => exact ih.tail (.inr rfl)
    | read name =>
      unfold Bindings.source
      rcases hb : v.get? name with _ | b
      · exact ih
      · cases b with
        | value x => exact ih
        | supplier ask => exact (silent name ask hb).elim
        | formula e => exact ih

/-- An evaluation leaves the index and the limits of its context as they were and lowers no count, in success
and failure. A summation leaves the counts that its bounds leave, whatever its body does. If names stand for
values and formulas, a name is refused in a summation only if it is refused in one of the bounds, or in the
body alone, with nothing counted, at one of the indices. -/
theorem evaluate_frame (host : Host σ) (source : Source σ) (steps : Nat) :
    (∀ node ctx outcome after, evaluate host source steps node ctx = some (outcome, after) →
      after.index = ctx.index ∧ after.limits = ctx.limits ∧
        ∀ name, ctx.hits.count name ≤ after.hits.count name) ∧
    (∀ a b c ctx outcome after,
      evaluate host source steps (.summation a b c) ctx = some (outcome, after) →
      ∃ ended between, boundsOf host source steps a b ctx = some (ended, between) ∧
        after.hits = between.hits ∧ ∀ fault, ended = .error fault → outcome = .error fault) ∧
    (∀ v : Bindings σ, (∀ name ask, v.get? name ≠ some (.supplier ask)) →
      ∀ a b c ctx name limit after,
        evaluate host v.source steps (.summation a b c) ctx =
          some (.error (.domain (.recursiveVariable name limit)), after) →
        (∃ polled, poll host ctx = some (.ok (), polled) ∧
          (evaluate host v.source steps a polled =
              some (.error (.domain (.recursiveVariable name limit)), after) ∨
            ∃ lower between, evaluate host v.source steps a polled = some (.ok lower, between) ∧
              evaluate host v.source steps b between =
                some (.error (.domain (.recursiveVariable name limit)), after))) ∨
        ∃ lower upper between k world inner,
          boundsOf host v.source steps a b ctx = some (.ok (lower, upper), between) ∧
          ¬ upper < indexAt lower k ∧ Drifts host between.world world ∧
          evaluate host v.source steps c ⟨Tally.empty, some (indexAt lower k), ctx.limits, world⟩ =
            some (.error (.domain (.recursiveVariable name limit)), inner)) := by
  refine ⟨fun node ctx outcome after hrun => ?_, fun a b c ctx outcome after hrun => ?_,
    fun v silent a b c ctx name limit after hrun => ?_⟩
  · have hframe := framed_evaluate host source steps node ctx outcome after hrun
    exact ⟨hframe.index, hframe.limits, hframe.counts⟩
  · cases steps with
    | zero => cases hrun
    | succ steps =>
      rw [evaluate_summation] at hrun
      rcases Run.bind_cases hrun with ⟨fault, rfl, hbounds⟩ | ⟨bounds, between, hbounds, hsum⟩
      · refine ⟨_, _, hbounds, rfl, ?_⟩
        rintro _ ⟨⟩
        rfl
      · refine ⟨_, _, hbounds, ?_, nofun⟩
        rw [sumOver_world hsum]
  · cases steps with
    | zero => cases hrun
    | succ steps =>
      rw [evaluate_summation] at hrun
      rcases Run.bind_cases hrun with ⟨_, ⟨⟩, hbounds⟩ | ⟨⟨lower, upper⟩, between, hbounds, hsum⟩
      · exact .inl (boundsOf_fails rfl hbounds)
      · have hbody := framed_evaluate host v.source (steps + 1) c
        obtain ⟨k, world, inner, hwithin, hworld, hfails⟩ := sumOver_fails hbody rfl rfl hsum
        rw [(framed_boundsOf ctx _ between hbounds).limits] at hfails
        exact .inr ⟨lower, upper, between, k, world, inner, hbounds, hwithin,
          v.drifts_of_touches silent hworld, hfails⟩

/-- A bound that reads a name, and a body that reads it too often in its second iteration. -/
theorem evaluate_frame_refused :
    ∃ (v : Bindings World) (c : Node) (after : Context World),
      v = ⟨[("x", .value 1.0), ("y", .formula ⟨"x x", .binary .mul (.reference "x" false)
        (.reference "x" false), {}⟩)]⟩ ∧
      c = .choice (.comparison .eqEq (.reference "n" true) (.number 2.0))
        (.binary .add (.reference "y" true) (.reference "x" true)) (.number 1.0) ∧
      (∀ name ask, v.get? name ≠ some (.supplier ask)) ∧
      evaluate (Deadline.host ⟨1000, none⟩) v.source 6
          (.summation (.reference "x" true) (.number 3.0) c) (Context.fresh ⟨2, 100⟩ (World.start 0)) =
        some (.error (.domain (.recursiveVariable "x" 2)), after) ∧
      after.hits.count "x" = 1 ∧
      ∃ lower upper between k world inner,
        boundsOf (Deadline.host ⟨1000, none⟩) v.source 6 (.reference "x" true) (.number 3.0)
            (Context.fresh ⟨2, 100⟩ (World.start 0)) = some (.ok (lower, upper), between) ∧
          ¬ upper < indexAt lower k ∧ Drifts (Deadline.host ⟨1000, none⟩) between.world world ∧
          evaluate (Deadline.host ⟨1000, none⟩) v.source 6 c
              ⟨Tally.empty, some (indexAt lower k), ⟨2, 100⟩, world⟩ =
            some (.error (.domain (.recursiveVariable "x" 2)), inner) := by
  let v : Bindings World := ⟨[("x", .value 1.0), ("y", .formula ⟨"x x", .binary .mul
    (.reference "x" false) (.reference "x" false), {}⟩)]⟩
  let c : Node := .choice (.comparison .eqEq (.reference "n" true) (.number 2.0))
    (.binary .add (.reference "y" true) (.reference "x" true)) (.number 1.0)
  have silent : ∀ name ask, v.get? name ≠ some (.supplier ask) := by
    intro name ask hget
    unfold Bindings.get? Bindings.getIn Bindings.getIn Bindings.getIn at hget
    split at hget
    · cases hget
    · split at hget
      · cases hget
      · cases hget
  have hhits : (evaluate (Deadline.host ⟨1000, none⟩) v.source 6
      (.summation (.reference "x" true) (.number 3.0) c) (Context.fresh ⟨2, 100⟩ (World.start 0))).map
        (fun r => (r.1, r.2.hits)) =
      some (.error (.domain (.recursiveVariable "x" 2)), ⟨[("x", 1)]⟩) := by
    decide +kernel
  obtain ⟨⟨outcome, after⟩, hrun, hafter⟩ := Option.map_eq_some_iff.mp hhits
  obtain ⟨rfl, hhits⟩ := Prod.mk.inj hafter
  refine ⟨v, c, after, rfl, rfl, silent, hrun, by rw [show after.hits = _ from hhits]; decide, ?_⟩
  rcases (evaluate_frame (Deadline.host ⟨1000, none⟩) v.source 6).2.2 v silent _ _ c _ _ _ _ hrun with
    ⟨polled, hpoll, hlower | ⟨lower, between, -, hupper⟩⟩ | ⟨lower, upper, between, k, world, inner, hrest⟩
  · obtain ⟨rfl, -⟩ := poll_eq_some hpoll
    have hvalue : (evaluate (Deadline.host ⟨1000, none⟩) v.source 6 (.reference "x" true)
        (Context.fresh ⟨2, 100⟩ (World.start 0))).map Prod.fst = some (.ok 1.0) := by
      decide +kernel
    cases hvalue.symm.trans (congrArg (Option.map Prod.fst) hlower)
  · cases hupper
  · exact ⟨lower, upper, between, k, world, inner, hrest⟩

end Formulae
