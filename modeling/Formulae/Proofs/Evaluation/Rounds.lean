import Formulae.Number.Dyadic
import Formulae.Proofs.Evaluation.Sources
import Formulae.Proofs.Runs

/-!
# Proofs.Evaluation.Rounds — how often a summation evaluates its body

The check against the limit takes the length of a summation from the difference of its bounds, while the
loop adds the number of the iteration to the lower bound. Both are rounded, each in its own way.

* `Evaluation.counted`: an evaluation with its runs counted in the world.
* `LeavesAfter lower upper n`: the index is above the upper bound for the first time after `n` iterations.
* `sumOver_rounds_iff`: a summation that passes the check keeps to its checked length, whatever its body
  is, exactly if the index leaves after so many iterations.
-/

namespace Formulae

open Number Evaluation

variable {σ : Type}

/-- The context with a count beside its world. -/
def Context.counting (ctx : Context σ) (count : Nat) : Context (Nat × σ) :=
  ⟨ctx.hits, ctx.index, ctx.limits, (count, ctx.world)⟩

/-- The evaluation, with its runs counted beside the world. -/
def Evaluation.counted (x : Evaluation σ Float) : Evaluation (Nat × σ) Float := fun ctx =>
  match x ⟨ctx.hits, ctx.index, ctx.limits, ctx.world.2⟩ with
  | some (outcome, after) => some (outcome, after.counting (ctx.world.1 + 1))
  | none => none

/-- How many iterations the check against the limit takes a summation to have. -/
def checkedLength (lower upper : Float) : Nat :=
  match Dyadic.ofFloat? (summationLength lower upper) with
  | some d => d.whole
  | none => 0

/-- The index of an iteration. -/
def indexAt (lower : Float) (step : Nat) : Float :=
  lower + Float.ofNat step

/-- The index is above the upper bound for the first time after `n` iterations. -/
def LeavesAfter (lower upper : Float) (n : Nat) : Prop :=
  upper < indexAt lower n ∧ ∀ k < n, ¬ upper < indexAt lower k

instance (lower upper : Float) (n : Nat) : Decidable (LeavesAfter lower upper n) :=
  inferInstanceAs (Decidable (_ ∧ _))

/-- The body comes to something in every context, given enough steps. -/
def Returns (host : Host σ) (source : Source σ) (body : Node) : Prop :=
  ∀ ctx, ∃ steps result, evaluate host source steps body ctx = some result

/-- The last one of so many evaluations of the body failed, and so did the loop. -/
def FailsAfter (host : Host σ) (source : Source σ) (lower : Float) (body : Node) (steps rounds : Nat)
    (outcome : Except Fault Float) : Prop :=
  ∃ fault inner inner', outcome = .error fault ∧ inner.index = some (indexAt lower (rounds - 1)) ∧
    evaluate host source steps body inner = some (.error fault, inner')

/-- The loop ends on its own after `n` evaluations of the body, or earlier if one of them fails, and never
evaluates it more often than the limit says. -/
def EndsAfter (host : Host σ) (source : Source σ) (lower upper : Float) (body : Node)
    (ctx : Context σ) (n : Nat) : Prop :=
  ∃ steps outcome after rounds,
    sumOver host steps lower upper (evaluate host source (steps + 1) body) ctx =
      some (outcome, after) ∧
    sumOver (host.onSecond Nat) steps lower upper (counted (evaluate host source (steps + 1) body))
      (ctx.counting 0) = some (outcome, after.counting rounds) ∧
    rounds ≤ ctx.limits.iterations ∧
    (rounds = n ∨ rounds < n ∧ FailsAfter host source lower body (steps + 1) rounds outcome)

/-! ### One iteration -/

section Step

variable {host : Host σ} (quiet : host.Quiet) {lower upper : Float} {body : Evaluation σ Float}
  {steps step : Nat} {total : Float} {ctx : Context σ}

theorem iterate_of_above (h : upper < indexAt lower step) :
    iterate host lower upper body (steps + 1) step total ctx = some (checkFinite total, ctx) := by
  rw [iterate]
  show (if upper < indexAt lower step then _ else _ : Evaluation σ Float) ctx = _
  rw [if_pos h]
  rfl

include quiet in
theorem iterate_of_within (h : ¬ upper < indexAt lower step) :
    iterate host lower upper body (steps + 1) step total ctx =
      match body (ctx.within (indexAt lower step)) with
      | some (.ok value, inner) =>
        iterate host lower upper body steps (step + 1) (total + value)
          { ctx with world := inner.world }
      | some (.error fault, inner) => some (.error fault, { ctx with world := inner.world })
      | none => none := by
  rw [iterate]
  show (if upper < indexAt lower step then _ else _ : Evaluation σ Float) ctx = _
  rw [if_neg h, Run.bind_of_ok (poll_of_quiet quiet ctx), Run.bind_apply]
  unfold inScope indexAt
  rcases body (ctx.within (lower + Float.ofNat step)) with _ | ⟨_ | _, _⟩ <;> rfl

/-- One iteration of the loop with its body counted. -/
theorem counted_within (count : Nat) (index : Float) :
    counted body ((ctx.counting count).within index) =
      (body (ctx.within index)).map fun result => (result.1, result.2.counting (count + 1)) := by
  unfold counted
  show (match body (ctx.within index) with | some (outcome, after) => _ | none => _) = _
  rcases body (ctx.within index) with _ | ⟨outcome, after⟩ <;> rfl

end Step

/-! ### The whole loop -/

section Loop

variable {host : Host σ} (quiet : host.Quiet) {source : Source σ} {lower upper : Float}
  {body : Node} {n : Nat}
include quiet

/-- With enough steps, the loop runs from any iteration on until the index leaves, or until a body
fails. -/
theorem iterate_rounds (returns : Returns host source body) (leaves : LeavesAfter lower upper n)
    (m step : Nat) (hm : step + m = n) (total : Float) (ctx : Context σ) :
    ∃ least outcome after rounds, ∀ steps ≥ least,
      (∀ fuel > m, iterate host lower upper (evaluate host source steps body) fuel step total ctx =
          some (outcome, after) ∧
        iterate (host.onSecond Nat) lower upper (counted (evaluate host source steps body)) fuel step
          total (ctx.counting step) = some (outcome, after.counting rounds)) ∧
      (rounds = n ∨ rounds < n ∧ FailsAfter host source lower body steps rounds outcome) := by
  induction m generalizing step total ctx with
  | zero =>
    obtain rfl : step = n := hm
    refine ⟨0, checkFinite total, ctx, step, fun steps _ => ⟨fun fuel hfuel => ?_, .inl rfl⟩⟩
    obtain ⟨fuel, rfl⟩ : ∃ f, fuel = f + 1 := ⟨fuel - 1, by omega⟩
    exact ⟨iterate_of_above leaves.1, iterate_of_above leaves.1⟩
  | succ m ih =>
    have hwithin : ¬ upper < indexAt lower step := leaves.2 step (by omega)
    obtain ⟨least, ⟨outcome, inner⟩, hrun⟩ := returns (ctx.within (indexAt lower step))
    have hbody : ∀ steps ≥ least, evaluate host source steps body
        (ctx.within (indexAt lower step)) = some (outcome, inner) :=
      fun steps hsteps => evaluate_mono quiet hsteps hrun
    cases outcome with
    | error fault =>
      have hfails : ∀ steps ≥ least,
          FailsAfter host source lower body steps (step + 1) (.error fault) := fun steps hsteps =>
        ⟨fault, ctx.within (indexAt lower step), inner, rfl, rfl, hbody steps hsteps⟩
      refine ⟨least, .error fault, { ctx with world := inner.world }, step + 1,
        fun steps hsteps => ⟨fun fuel hfuel => ?_, ?_⟩⟩
      · obtain ⟨fuel, rfl⟩ : ∃ f, fuel = f + 1 := ⟨fuel - 1, by omega⟩
        constructor
        · rw [iterate_of_within quiet hwithin, hbody steps hsteps]
        · rw [iterate_of_within (quiet.onSecond Nat) hwithin, counted_within, hbody steps hsteps]
          rfl
      · have hle : step + 1 ≤ n := by omega
        exact (Nat.eq_or_lt_of_le hle).imp_right fun hlt => ⟨hlt, hfails steps hsteps⟩
    | ok value =>
      obtain ⟨least', outcome, after, rounds, h⟩ :=
        ih (step + 1) (by omega) (total + value) { ctx with world := inner.world }
      refine ⟨max least least', outcome, after, rounds, fun steps hsteps => ?_⟩
      have hsteps' : steps ≥ least ∧ steps ≥ least' := by omega
      obtain ⟨hloop, hrounds⟩ := h steps hsteps'.2
      refine ⟨fun fuel hfuel => ?_, hrounds⟩
      obtain ⟨fuel, rfl⟩ : ∃ f, fuel = f + 1 := ⟨fuel - 1, by omega⟩
      obtain ⟨hrun, hcounted⟩ := hloop fuel (by omega)
      constructor
      · rw [iterate_of_within quiet hwithin, hbody steps hsteps'.1]
        exact hrun
      · rw [iterate_of_within (quiet.onSecond Nat) hwithin, counted_within, hbody steps hsteps'.1]
        exact hcounted

/-- A loop whose body never fails runs until the index leaves. -/
theorem leaves_of_iterate {value : Float} {fuel step : Nat} {total : Float} {ctx after : Context σ}
    {outcome : Except Fault Float} {rounds : Nat}
    (h : iterate (host.onSecond Nat) lower upper (counted (pure value)) fuel step total
      (ctx.counting step) = some (outcome, after.counting rounds)) :
    step ≤ rounds ∧ upper < indexAt lower rounds ∧
      ∀ k, step ≤ k → k < rounds → ¬ upper < indexAt lower k := by
  induction fuel generalizing step total ctx with
  | zero => cases h
  | succ fuel ih =>
    by_cases habove : upper < indexAt lower step
    · rw [iterate_of_above habove] at h
      have hctx := (Prod.mk.inj (Option.some.inj h)).2
      have hcount : (step, ctx.world) = (rounds, after.world) := congrArg Context.world hctx
      obtain rfl : step = rounds := (Prod.mk.inj hcount).1
      exact ⟨Nat.le_refl _, habove, fun k hk hlt => by omega⟩
    · rw [iterate_of_within (quiet.onSecond Nat) habove, counted_within] at h
      obtain ⟨hle, hleaves, hwithin⟩ := ih h
      refine ⟨by omega, hleaves, fun k hk hlt => ?_⟩
      rcases Nat.eq_or_lt_of_le hk with rfl | hk
      · exact habove
      · exact hwithin k hk hlt

omit quiet in
/-- A summation whose bounds are in their order checks its length and runs its loop. -/
theorem sumOver_of_ordered {host : Host σ} {evaluation : Evaluation σ Float} (steps : Nat)
    (ctx : Context σ) (ordered : ¬ upper < lower) :
    sumOver host steps lower upper evaluation ctx =
      if 0 < ctx.limits.iterations && Float.ofNat ctx.limits.iterations < summationLength lower upper then
        some (.error (.domain (.summationTooLong (summationLength lower upper) ctx.limits.iterations)), ctx)
      else iterate host lower upper evaluation steps 0 0.0 ctx := by
  rw [sumOver, if_neg ordered]
  exact Run.ite_apply _ _ ctx

omit quiet in
/-- A summation that passes the checks runs its loop. -/
theorem sumOver_of_checked {host : Host σ} {evaluation : Evaluation σ Float} {steps : Nat}
    (ctx : Context σ) (ordered : ¬ upper < lower)
    (checked : ¬ Float.ofNat ctx.limits.iterations < summationLength lower upper) :
    sumOver host steps lower upper evaluation ctx =
      iterate host lower upper evaluation steps 0 0.0 ctx := by
  rw [sumOver_of_ordered steps ctx ordered, if_neg (by simp [checked])]

/-- A summation that passes the check against the limit ends on its own, keeps to the checked length and
to the limit, whatever its body is, exactly if the index leaves after so many iterations. -/
theorem sumOver_rounds_iff (source : Source σ) (ctx : Context σ) (ordered : ¬ upper < lower)
    (checked : ¬ Float.ofNat ctx.limits.iterations < summationLength lower upper) :
    (∀ body, Returns host source body →
      EndsAfter host source lower upper body ctx (checkedLength lower upper)) ↔
    LeavesAfter lower upper (checkedLength lower upper) ∧
      checkedLength lower upper ≤ ctx.limits.iterations := by
  constructor
  · intro h
    -- a body that never fails counts the iterations
    obtain ⟨steps, outcome, after, rounds, -, hcounted, hle, hrounds⟩ :=
      h (.number 0.0) fun ctx => ⟨1, _, rfl⟩
    have hexact : rounds = checkedLength lower upper := by
      rcases hrounds with h | ⟨-, fault, inner, inner', -, -, hfault⟩
      · exact h
      · cases hfault
    rw [sumOver_of_checked (ctx.counting 0) ordered checked] at hcounted
    obtain ⟨-, hleaves, hwithin⟩ := leaves_of_iterate quiet hcounted
    rw [← hexact]
    exact ⟨⟨hleaves, fun k hk => hwithin k (Nat.zero_le k) hk⟩, hle⟩
  · rintro ⟨leaves, hlimit⟩ body returns
    obtain ⟨least, outcome, after, rounds, h⟩ :=
      iterate_rounds quiet returns leaves (checkedLength lower upper) 0 (Nat.zero_add _) 0.0 ctx
    obtain ⟨hloop, hrounds⟩ := h (max least (checkedLength lower upper + 1) + 1) (by omega)
    obtain ⟨hrun, hcounted⟩ := hloop (max least (checkedLength lower upper + 1)) (by omega)
    refine ⟨_, outcome, after, rounds, ?_, ?_, by omega, hrounds⟩
    · rw [sumOver_of_checked ctx ordered checked]
      exact hrun
    · rw [sumOver_of_checked (ctx.counting 0) ordered checked]
      exact hcounted

end Loop

/-- From one to ten the index leaves after ten iterations. -/
theorem sumOver_rounds_ten :
    ¬ (10.0 : Float) < 1.0 ∧ ¬ Float.ofNat 10 < summationLength 1.0 10.0 ∧
      checkedLength 1.0 10.0 = 10 ∧ EndsAfter Host.idle Source.none 1.0 10.0 (.number 2.0)
        (Context.fresh ⟨1000, 10⟩ ()) (checkedLength 1.0 10.0) := by
  have ordered : ¬ (10.0 : Float) < 1.0 := by decide +kernel
  have checked : ¬ Float.ofNat 10 < summationLength 1.0 10.0 := by decide +kernel
  have hlength : checkedLength 1.0 10.0 = 10 := by decide +kernel
  have leaves : LeavesAfter 1.0 10.0 (checkedLength 1.0 10.0) ∧ checkedLength 1.0 10.0 ≤ 10 := by
    decide +kernel
  have returns : Returns Host.idle Source.none (.number 2.0) := fun ctx => ⟨1, _, rfl⟩
  have hends := sumOver_rounds_iff Host.quiet_idle Source.none (Context.fresh ⟨1000, 10⟩ ()) ordered
    checked
  exact ⟨ordered, checked, hlength, hends.mpr leaves _ returns⟩

/-- Between `1e16` and the next number lies a gap of two: a summation that passes the check against a limit
of one takes two iterations. -/
theorem sumOver_rounds_gap :
    checkedLength 1e16 1e16 = 1 ∧
      sumOver (Host.idle.onSecond Nat) 3 1e16 1e16
          (counted (evaluate Host.idle Source.none 4 (.number 1.0)))
          ((Context.fresh ⟨1000, 1⟩ ()).counting 0) =
        some (.ok 2.0, (Context.fresh ⟨1000, 1⟩ ()).counting 2) := by
  constructor <;> rfl

end Formulae
