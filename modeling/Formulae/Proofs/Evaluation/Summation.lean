import Mathlib.Data.Int.Range
import Formulae.Proofs.Evaluation.Rounds
import Formulae.Proofs.Number.Whole

/-!
# Proofs.Evaluation.Summation — sums over whole numbers

A summation computes its index and its length with doubles. If its bounds are whole numbers below
`2 ^ 52`, neither is ever rounded, so no index is left out and none is repeated.

* `sumThrough`: a body evaluated once for each of a list of whole numbers, and the sum of its values.
* `indexAt_whole`, `summationLength_whole`: the index of an iteration and the length.
* `iterate_whole`: what the loop still has to do.
* `sumOver_whole`: a summation is too long exactly if it has more indices than the limit allows, and
  otherwise goes through all of them.
-/

namespace Formulae

open Number

/-- There is a limit for the length of a summation, and it is less than `length`. -/
def Limits.ExceededBy (l : Limits) (length : Int) : Prop :=
  0 < l.iterations ∧ (l.iterations : Int) < length

instance (l : Limits) (length : Int) : Decidable (l.ExceededBy length) :=
  inferInstanceAs (Decidable (_ ∧ _))

namespace Evaluation

variable {σ : Type}

/-- A run on the world of a context. -/
def onWorld {α : Type} (x : Run σ α) : Evaluation σ α := fun ctx =>
  (x ctx.world).map fun result => (result.1, { ctx with world := result.2 })

/-- The body for one index, in a scope of its own: the index, nothing counted, and the world so far. -/
def bodyAt (body : Evaluation σ Float) (limits : Limits) (index : Int) : Run σ Float := fun world =>
  (body ⟨Tally.empty, some (Float.ofInt index), limits, world⟩).map fun result =>
    (result.1, result.2.world)

/-- The values of the body for the indices, added to a number from left to right; the first fault ends
it. -/
def addUp (body : Evaluation σ Float) (limits : Limits) (total : Float) (indices : List Int) :
    Run σ Float :=
  indices.foldlM (fun total index => do
    let value ← bodyAt body limits index
    pure (total + value)) total

/-- The sum of the body over the indices, which has to be finite. -/
def sumThrough (body : Evaluation σ Float) (limits : Limits) (indices : List Int) : Run σ Float := do
  let total ← addUp body limits 0.0 indices
  Run.ofExcept (checkFinite total)

/-- The evaluation fails because a summation is too long: this one, or one further inside. -/
def FailsTooLong {α : Type} (x : Evaluation σ α) (ctx : Context σ) : Prop :=
  ∃ length limit after, x ctx = some (.error (.domain (.summationTooLong length limit)), after)

end Evaluation

open Evaluation

section Sum

variable {σ : Type} {body : Evaluation σ Float} {limits : Limits}

theorem addUp_cons (total : Float) (index : Int) (rest : List Int) :
    addUp body limits total (index :: rest) =
      bodyAt body limits index >>= fun value => addUp body limits (total + value) rest := by
  unfold addUp
  rw [List.foldlM_cons, bind_assoc]
  rfl

/-- A sum fails as its body does, or because it is not finite. -/
theorem meets_sumThrough {fails : Fault → Prop} (hbody : ∀ inner, body.Meets inner (fun _ _ => True) fails)
    (hnan : fails (.domain .notANumber)) (hinf : fails (.domain .infinite)) (indices : List Int)
    (world : σ) : (sumThrough body limits indices).Meets world (fun _ _ => True) fails := by
  have hone : ∀ index world, (bodyAt body limits index).Meets world (fun _ _ => True) fails := by
    intro index world
    have hrun := hbody ⟨Tally.empty, some (Float.ofInt index), limits, world⟩
    unfold Run.Meets at hrun ⊢
    unfold bodyAt
    generalize body ⟨Tally.empty, some (Float.ofInt index), limits, world⟩ = result at *
    rcases result with _ | ⟨_ | _, _⟩ <;> exact hrun
  have hall : ∀ total world, (addUp body limits total indices).Meets world (fun _ _ => True) fails := by
    induction indices with
    | nil => exact fun _ _ => trivial
    | cons index rest ih =>
      intro total world
      rw [addUp_cons]
      exact (hone index world).bind fun value world _ => ih (total + value) world
  refine (hall 0.0 world).bind fun total world _ => ?_
  unfold checkFinite
  split
  · exact hnan
  · split
    · exact hinf
    · trivial

theorem meets_onWorld {x : Run σ Float} {ctx : Context σ} {fails : Fault → Prop}
    (h : x.Meets ctx.world (fun _ _ => True) fails) : (onWorld x).Meets ctx (fun _ _ => True) fails := by
  unfold Run.Meets at h ⊢
  unfold onWorld
  generalize x ctx.world = result at *
  rcases result with _ | ⟨_ | _, _⟩ <;> exact h

theorem not_failsTooLong_iff {x : Evaluation σ Float} {ctx : Context σ} :
    ¬ FailsTooLong x ctx ↔ x.Meets ctx (fun _ _ => True) fun fault =>
      ∀ length limit, fault ≠ .domain (.summationTooLong length limit) := by
  unfold FailsTooLong Run.Meets
  rcases x ctx with _ | ⟨fault | _, after⟩
  · exact iff_of_true nofun trivial
  · constructor
    · rintro h length limit rfl
      exact h ⟨length, limit, after, rfl⟩
    · rintro h ⟨length, limit, _, heq⟩
      cases heq
      exact h length limit rfl
  · exact iff_of_true nofun trivial

/-- A sum is not too long if no summation in its body is. -/
theorem not_failsTooLong_sumThrough (hbody : ∀ inner, ¬ FailsTooLong body inner) (limits : Limits)
    (indices : List Int) (ctx : Context σ) : ¬ FailsTooLong (onWorld (sumThrough body limits indices)) ctx :=
  not_failsTooLong_iff.mpr <| meets_onWorld <|
    meets_sumThrough (fun inner => not_failsTooLong_iff.mp (hbody inner)) nofun nofun indices ctx.world

end Sum

theorem range_of_lt {m n : Int} (h : m < n) : Int.range m n = m :: Int.range (m + 1) n := by
  have hlength : (n - m).toNat = (n - (m + 1)).toNat + 1 := by omega
  have hnext : ∀ k : Nat, m + (k.succ : Int) = m + 1 + k := fun k => by omega
  unfold Int.range
  rw [hlength, List.range_succ_eq_map, List.map_cons, List.map_map]
  simp only [Function.comp_def, hnext, Nat.cast_zero, Int.add_zero]

theorem range_self (m : Int) : Int.range m m = [] := by
  simp [Int.range]

/-! ### Bounds that are whole numbers -/

section Whole

variable {σ : Type} {lower upper : Float} {i j : Int}
  (hlower : IsWhole lower i) (hupper : IsWhole upper j) (hi : i.natAbs < 2 ^ 52) (hj : j.natAbs < 2 ^ 52)

include hlower hi in
/-- The index of an iteration is not rounded. -/
theorem indexAt_whole {step : Nat} (hstep : step < 2 ^ 53) (hsum : (i + step).natAbs < 2 ^ 53) :
    indexAt lower step = Float.ofInt (i + step) :=
  add_ofInt_of_carries (hlower.carries (by omega)) (j := step) hstep hsum

include hlower hupper hi hj

/-- The length is not rounded. -/
theorem summationLength_whole (hij : i ≤ j) :
    summationLength lower upper = Float.ofInt (j - i + 1) := by
  have hsize : (j - i).natAbs < 2 ^ 53 := by omega
  have hone : (1.0 : Float) = Float.ofInt 1 := by decide +kernel
  have hdiff : Carries (j - i) (upper - lower).toModel.unpack :=
    sub_of_carries (hupper.carries (by omega)) (hlower.carries (by omega)) hsize
  unfold summationLength
  rw [floor_of_carries hsize hdiff, hone, add_ofInt_of_carries hdiff (by decide) (by omega)]

theorem upper_lt_indexAt_iff {step : Nat} (hstep : step ≤ j - i + 1) :
    upper < indexAt lower step ↔ j < i + step := by
  rw [indexAt_whole hlower hi (by omega) (by omega)]
  exact lt_iff_of_carries (hupper.carries (by omega)) (carries_unpack_ofInt (by omega))

variable {host : Host σ} (quiet : host.Quiet) {body : Evaluation σ Float}
include quiet

/-- From any iteration on the loop goes through the indices that are left. -/
theorem iterate_whole {m step steps : Nat} (hm : i + step + m = j + 1) (hsteps : m < steps)
    (total : Float) (ctx : Context σ) :
    iterate host lower upper body steps step total ctx =
      onWorld (addUp body ctx.limits total (Int.range (i + step) (j + 1)) >>= fun total =>
        Run.ofExcept (checkFinite total)) ctx := by
  induction m generalizing step steps total ctx with
  | zero =>
    obtain ⟨steps, rfl⟩ : ∃ n, steps = n + 1 := ⟨steps - 1, by omega⟩
    have habove : upper < indexAt lower step :=
      (upper_lt_indexAt_iff hlower hupper hi hj (by omega)).mpr (by omega)
    have hlast : i + step = j + 1 := by omega
    rw [iterate_of_above habove, hlast, range_self]
    rfl
  | succ m ih =>
    obtain ⟨steps, rfl⟩ : ∃ n, steps = n + 1 := ⟨steps - 1, by omega⟩
    have hwithin : ¬ upper < indexAt lower step := by
      rw [upper_lt_indexAt_iff hlower hupper hi hj (by omega)]
      omega
    have hnext : i + step + 1 = i + (step + 1 : Nat) := by omega
    rw [iterate_of_within quiet hwithin, indexAt_whole hlower hi (by omega) (by omega),
      range_of_lt (by omega), addUp_cons, hnext, Run.bind_assoc]
    have hbody : bodyAt body ctx.limits (i + step) ctx.world =
        (body (ctx.within (Float.ofInt (i + step)))).map fun result => (result.1, result.2.world) := rfl
    unfold onWorld
    rw [Run.bind_apply, hbody]
    rcases body (ctx.within (Float.ofInt (i + step))) with _ | ⟨_ | value, inner⟩
    · rfl
    · rfl
    · exact ih (by omega) (by omega) (total + value) { ctx with world := inner.world }

omit quiet in
/-- Whole bounds in their order pass the first check, and the second one unless their indices exceed the
limit. -/
theorem sumOver_of_whole (hij : i ≤ j) (steps : Nat) (ctx : Context σ) :
    sumOver host steps lower upper body ctx =
      if ctx.limits.ExceededBy (j - i + 1) then
        some (.error (.domain (.summationTooLong (Float.ofInt (j - i + 1)) ctx.limits.iterations)), ctx)
      else iterate host lower upper body steps 0 0.0 ctx := by
  have ordered : ¬ upper < lower := by
    rw [lt_iff_of_carries (hupper.carries (by omega)) (hlower.carries (by omega))]
    omega
  have hcheck : (0 < ctx.limits.iterations &&
      Float.ofNat ctx.limits.iterations < Float.ofInt (j - i + 1) : Bool) =
        decide (ctx.limits.ExceededBy (j - i + 1)) := by
    rw [← Bool.decide_and]
    exact decide_eq_decide.mpr (and_congr_right fun _ => ofNat_lt_ofInt_iff (by omega) _)
  rw [sumOver_of_ordered steps ctx ordered, summationLength_whole hlower hupper hi hj hij, hcheck]
  simp only [decide_eq_true_eq]

/-- A summation over whole numbers whose indices exceed the limit fails for that, whatever its body is and
without evaluating it; if no summation in its body is too long, it fails so in no other case. Otherwise it
evaluates its body once for each whole number from the lower bound to the upper one, in their order, and
adds up the values. -/
theorem sumOver_whole (hij : i ≤ j) {steps : Nat} (hsteps : j - i + 1 < steps) (ctx : Context σ)
    (body : Evaluation σ Float) :
    (ctx.limits.ExceededBy (j - i + 1) → sumOver host steps lower upper body ctx =
      some (.error (.domain (.summationTooLong (Float.ofInt (j - i + 1)) ctx.limits.iterations)), ctx)) ∧
    (¬ ctx.limits.ExceededBy (j - i + 1) → sumOver host steps lower upper body ctx =
      onWorld (sumThrough body ctx.limits (Int.range i (j + 1))) ctx) ∧
    ((∀ inner, ¬ FailsTooLong body inner) →
      (FailsTooLong (sumOver host steps lower upper body) ctx ↔ ctx.limits.ExceededBy (j - i + 1))) := by
  have hcheck : sumOver host steps lower upper body ctx = _ :=
    sumOver_of_whole hlower hupper hi hj hij steps ctx
  have hlong : ctx.limits.ExceededBy (j - i + 1) → _ := fun hlimit => hcheck.trans (if_pos hlimit)
  have hsum : ¬ ctx.limits.ExceededBy (j - i + 1) → sumOver host steps lower upper body ctx =
      onWorld (sumThrough body ctx.limits (Int.range i (j + 1))) ctx := by
    intro hlimit
    obtain ⟨m, hm⟩ : ∃ m : Nat, (m : Int) = j - i + 1 := ⟨(j - i + 1).toNat, by omega⟩
    have hloop : iterate host lower upper body steps 0 0.0 ctx = _ :=
      iterate_whole hlower hupper hi hj quiet (m := m) (by omega) (by omega) 0.0 ctx
    rw [hcheck, if_neg hlimit, hloop, Int.natCast_zero, Int.add_zero]
    rfl
  refine ⟨hlong, hsum, fun hbody => ⟨fun hfails => ?_, fun hlimit => ⟨_, _, _, hlong hlimit⟩⟩⟩
  by_contra hlimit
  refine not_failsTooLong_sumThrough hbody ctx.limits (Int.range i (j + 1)) ctx ?_
  unfold FailsTooLong at hfails ⊢
  rwa [hsum hlimit] at hfails

end Whole

/-- The square of the index. -/
def squared : Evaluation Unit Float :=
  evaluate Host.idle Source.none 1 (.binary .mul (.reference "n" false) (.reference "n" false))

/-- The squares of the whole numbers from minus one to two. There are four of them, as many as the first
limit allows, and one more than the second one does. -/
theorem sumOver_whole_squares :
    IsWhole (-1.0) (-1) ∧ IsWhole 2.0 2 ∧
      (sumOver Host.idle 5 (-1.0) 2.0 squared (Context.fresh ⟨1000, 4⟩ ())).map Prod.fst =
        some (.ok 6.0) ∧
      (sumOver Host.idle 5 (-1.0) 2.0 squared (Context.fresh ⟨1000, 3⟩ ())).map Prod.fst =
        some (.error (.domain (.summationTooLong 4.0 3))) := by
  have hlower : IsWhole (-1.0) (-1) := by decide +kernel
  have hupper : IsWhole 2.0 2 := by decide +kernel
  have hsteps : (2 : Int) - (-1) + 1 < (5 : Nat) := by decide
  have hsum := sumOver_whole hlower hupper (by decide) (by decide) Host.quiet_idle (by decide) hsteps
  refine ⟨hlower, hupper, ?_, ?_⟩
  · have hlimit : ¬ (Limits.mk 1000 4).ExceededBy (2 - (-1) + 1) := by decide
    rw [(hsum (Context.fresh ⟨1000, 4⟩ ()) _).2.1 hlimit]
    decide +kernel
  · have hlimit : (Limits.mk 1000 3).ExceededBy (2 - (-1) + 1) := by decide
    rw [(hsum (Context.fresh ⟨1000, 3⟩ ()) _).1 hlimit]
    decide +kernel

end Formulae
