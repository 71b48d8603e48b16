import Formulae.Proofs.Evaluation.Course
import Formulae.Proofs.Runs

/-!
# Proofs.Interruption.Cancellation — nothing is read after a cancellation

A supplier may cancel the run that asks it. Names and iterations stand behind polls, so from then on the run
only calculates with what it has, until the next poll stops it or it is done.

* `Host.Heeds`: the host stops cancelled runs, as a deadline with a token does (`Deadline.heeds`).
* `Heeding`: an evaluation that reads nothing once it is cancelled; `Guarded`: one that does so if it is not
  cancelled to begin with, as behind a poll that passes.
* `Course.EndsWithCancellation`: how a run ends in which a supplier cancels it.
* `Expression.reads_nothing_after_cancellation`: all runs of expressions and equations end so.
-/

namespace Formulae

open Number Evaluation

variable {σ ω : Type}

/-- The host stops a run that is cancelled, and does nothing to cancel one or to take that back. -/
structure Host.Heeds (host : Host σ) (cancelled : σ → Bool) : Prop where
  stops : ∀ world, cancelled world = true → (host.poll world).1 = some true
  polled : ∀ world, cancelled (host.poll world).2 = cancelled world
  drawn : ∀ world, cancelled (host.random world).2 = cancelled world

/-- Random numbers cancel nothing. -/
theorem World.cancelled_random (world : World) : world.random.2.cancelled = world.cancelled := by
  obtain ⟨cancelled, seed⟩ := world
  rfl

/-- A deadline stops a run when its token is cancelled. -/
theorem Deadline.heeds (milliseconds : Nat) (token : Token) :
    (Deadline.host ⟨milliseconds, some token⟩).Heeds (·.cancelled.contains token) where
  stops world h := by
    simp only [host, stop, Option.any_some, h, if_true]
  polled _ := by rw [host]
  drawn world := congrArg (List.contains · token) world.cancelled_random

/-- Something was read when the run was cancelled. -/
def Happening.Cancels (h : Happening) : Prop :=
  ∃ name found, h = .read name found true

/-- How a run ends in which a supplier cancels it: the next poll stops it, or it comes to a value or the fault of
an operation, with nothing but random numbers in between; or the supplier failed itself, and the run with
it. -/
def Course.EndsWithCancellation (course : Course) (outcome : Except Fault Float) : Prop :=
  ∀ later earlier name found, course = later ++ .read name found true :: earlier →
    (∃ k, later = .polled (some true) :: List.replicate k .drawn ∧
      outcome = .error (.interrupted true)) ∨
    (∃ k, later = List.replicate k .drawn ∧ Operational outcome) ∨
    later = [] ∧ ∃ fault, found = .value (.error fault) ∧ outcome = .error fault

/-! ### Worlds that tell of a run -/

/-- What a world tells of a run: its course, and whether it is cancelled. -/
structure Watch (ω : Type) where
  course : ω → Course
  cancelled : ω → Bool

/-- Notes, the host and the source do to the world what the watch tells. -/
structure Watch.Fits (W : Watch ω) (add : Happening → ω → ω) (host : Host ω) (source : Source ω) :
    Prop where
  note : ∀ h w, W.course (add h w) = h :: W.course w ∧ W.cancelled (add h w) = W.cancelled w
  poll : ∀ w, W.course (host.poll w).2 = .polled (host.poll w).1 :: W.course w ∧
    W.cancelled (host.poll w).2 = W.cancelled w
  stops : ∀ w, W.cancelled w = true → (host.poll w).1 = some true
  draw : ∀ w, W.course (host.random w).2 = .drawn :: W.course w ∧
    W.cancelled (host.random w).2 = W.cancelled w
  /-- Formulas are entered without a cancellation. A refusal of the source itself is not noted. -/
  read : ∀ name w, W.cancelled w = false →
    (W.course (source name w).2 = W.course w ∧ W.cancelled (source name w).2 = false) ∨
    W.course (source name w).2 =
        .read name (source name w).1 (W.cancelled (source name w).2) :: W.course w ∧
      (W.cancelled (source name w).2 = true → ∃ outcome, (source name w).1 = .value outcome)

namespace Watch

variable (W : Watch ω) {α β : Type}

/-- From a cancelled world on, a run is stopped by a poll or comes to what operations make of random
numbers. -/
structure Closes (before : Course) (outcome : Except Fault α) (after : ω) : Prop where
  cancelled : W.cancelled after = true
  course : ∃ k,
    (W.course after = .polled (some true) :: (List.replicate k .drawn ++ before) ∧
      outcome = .error (.interrupted true)) ∨
    (W.course after = List.replicate k .drawn ++ before ∧ Operational outcome)

/-- A run is not cancelled, or it closes once it is, or it fails with the supplier that cancels it. -/
inductive Goes (before : Course) (outcome : Except Fault α) (after : ω) : Prop where
  | on (new : Course) (course : W.course after = new ++ before) (calm : ∀ h ∈ new, ¬ h.Cancels)
      (cancelled : W.cancelled after = false)
  | closes (new : Course) {name : String} {found : Lookup} (calm : ∀ h ∈ new, ¬ h.Cancels)
      (closing : W.Closes (.read name found true :: (new ++ before)) outcome after)
  | fails (new : Course) {name : String} {fault : Fault} (calm : ∀ h ∈ new, ¬ h.Cancels)
      (course : W.course after = .read name (.value (.error fault)) true :: (new ++ before))
      (failed : outcome = .error fault)

/-- An evaluation that is fit to stand behind a poll that passes. -/
def Guarded (α : Type) (x : Evaluation ω α) : Prop :=
  ∀ ctx outcome after, x ctx = some (outcome, after) → W.cancelled ctx.world = false →
    W.Goes (W.course ctx.world) outcome after.world

/-- An evaluation that reads nothing once the run is cancelled. -/
structure Heeding (α : Type) (x : Evaluation ω α) : Prop where
  guarded : W.Guarded α x
  closes : ∀ ctx outcome after, x ctx = some (outcome, after) → W.cancelled ctx.world = true →
    W.Closes (W.course ctx.world) outcome after.world

variable {W}

/-! ### How evaluations are put together -/

theorem goes_same {w : ω} (h : W.cancelled w = false) (outcome : Except Fault α) :
    W.Goes (W.course w) outcome w :=
  .on [] rfl nofun h

theorem closes_same {w : ω} (h : W.cancelled w = true) {outcome : Except Fault α}
    (hop : Operational outcome) : W.Closes (W.course w) outcome w :=
  ⟨h, 0, .inr ⟨rfl, hop⟩⟩

theorem Closes.error {before : Course} {fault : Fault} {after : ω}
    (h : W.Closes before (.error fault : Except Fault α) after) :
    W.Closes before (.error fault : Except Fault β) after := by
  obtain ⟨hcancelled, k, ⟨hcourse, hstop⟩ | ⟨hcourse, hop⟩⟩ := h
  · exact ⟨hcancelled, k, .inl ⟨hcourse, congrArg _ (Except.error.inj hstop)⟩⟩
  · exact ⟨hcancelled, k, .inr ⟨hcourse, operational_error (hop fault rfl)⟩⟩

theorem Goes.error {before : Course} {fault : Fault} {after : ω}
    (h : W.Goes before (.error fault : Except Fault α) after) :
    W.Goes before (.error fault : Except Fault β) after := by
  cases h with
  | on new course calm cancelled => exact .on new course calm cancelled
  | closes new calm closing => exact .closes new calm closing.error
  | fails new calm course failed => exact .fails new calm course (congrArg _ (Except.error.inj failed))

/-- What follows a run that closes closes it, too. -/
theorem Closes.trans {before : Course} {mid after : ω} {a : α} {outcome : Except Fault β}
    (h : W.Closes before (.ok a : Except Fault α) mid) (h' : W.Closes (W.course mid) outcome after) :
    W.Closes before outcome after := by
  obtain ⟨-, k, ⟨-, ⟨⟩⟩ | ⟨hmid, -⟩⟩ := h
  obtain ⟨hcancelled, m, ⟨hafter, hstop⟩ | ⟨hafter, hop⟩⟩ := h'
  · refine ⟨hcancelled, m + k, .inl ⟨?_, hstop⟩⟩
    rw [hafter, hmid, ← List.append_assoc, List.replicate_append_replicate]
  · refine ⟨hcancelled, m + k, .inr ⟨?_, hop⟩⟩
    rw [hafter, hmid, ← List.append_assoc, List.replicate_append_replicate]

/-- A run that is not cancelled so far may go on. -/
theorem Goes.after {before : Course} (new : Course) {mid after : ω} {outcome : Except Fault α}
    (hmid : W.course mid = new ++ before) (calm : ∀ h ∈ new, ¬ h.Cancels)
    (h : W.Goes (W.course mid) outcome after) : W.Goes before outcome after := by
  rw [hmid] at h
  cases h with
  | on more course calm' cancelled =>
    exact .on (more ++ new) (by rw [course, List.append_assoc])
      (List.forall_mem_append.mpr ⟨calm', calm⟩) cancelled
  | closes more calm' closing =>
    exact .closes (more ++ new) (List.forall_mem_append.mpr ⟨calm', calm⟩)
      (by rwa [List.append_assoc])
  | fails more calm' course failed =>
    exact .fails (more ++ new) (List.forall_mem_append.mpr ⟨calm', calm⟩)
      (by rwa [List.append_assoc]) failed

theorem Guarded.bind {x : Evaluation ω α} {f : α → Evaluation ω β} (h : W.Guarded α x)
    (hf : ∀ a, W.Heeding β (f a)) : W.Guarded β (x >>= f) := by
  intro ctx outcome after hrun hctx
  rcases Run.bind_cases hrun with ⟨fault, rfl, hx⟩ | ⟨a, mid, hx, hrest⟩
  · exact (h ctx _ after hx hctx).error
  · cases h ctx _ mid hx hctx with
    | on new course calm cancelled =>
      exact .after new course calm ((hf a).guarded mid outcome after hrest cancelled)
    | closes new calm closing =>
      exact .closes new calm (closing.trans ((hf a).closes mid outcome after hrest closing.cancelled))
    | fails _ _ _ failed => cases failed

theorem Heeding.bind {x : Evaluation ω α} {f : α → Evaluation ω β} (h : W.Heeding α x)
    (hf : ∀ a, W.Heeding β (f a)) : W.Heeding β (x >>= f) where
  guarded := h.guarded.bind hf
  closes ctx outcome after hrun hctx := by
    rcases Run.bind_cases hrun with ⟨fault, rfl, hx⟩ | ⟨a, mid, hx, hrest⟩
    · exact (h.closes ctx _ after hx hctx).error
    · have hclosed := h.closes ctx _ mid hx hctx
      exact hclosed.trans ((hf a).closes mid outcome after hrest hclosed.cancelled)

theorem heeding_ofExcept {outcome : Except Fault α} (hop : Operational outcome) :
    W.Heeding α (Run.ofExcept outcome) where
  guarded := by
    rintro ctx _ _ ⟨⟩ hctx
    exact goes_same hctx outcome
  closes := by
    rintro ctx _ _ ⟨⟩ hctx
    exact closes_same hctx hop

theorem heeding_exhausted : W.Heeding α Run.exhausted :=
  ⟨nofun, nofun⟩

theorem heeding_read (f : Context ω → α) : W.Heeding α (Run.read f) where
  guarded := by
    rintro ctx _ _ ⟨⟩ hctx
    exact goes_same hctx _
  closes := by
    rintro ctx _ _ ⟨⟩ hctx
    exact closes_same hctx (operational_ok _)

/-- The scope of an iteration shares the world. -/
theorem Guarded.inScope (index : Float) {x : Evaluation ω α} (h : W.Guarded α x) :
    W.Guarded α (inScope index x) := by
  intro ctx outcome after hrun hctx
  obtain ⟨inner, hx, rfl⟩ := inScope_eq_some hrun
  exact h (ctx.within index) outcome inner hx hctx

section Actions

variable {add : Happening → ω → ω} {host : Host ω} {source : Source ω} (fits : W.Fits add host source)
include fits

/-- A cancelled run does not pass a poll. -/
theorem Fits.poll_of_cancelled {ctx : Context ω} (h : W.cancelled ctx.world = true) :
    Evaluation.poll host ctx =
      some (.error (.interrupted true), { ctx with world := (host.poll ctx.world).2 }) := by
  have hstop := fits.stops ctx.world h
  unfold Evaluation.poll
  rcases hpoll : host.poll ctx.world with ⟨stop, world⟩
  rw [hpoll] at hstop
  obtain rfl : stop = some true := hstop
  rfl

/-- Behind a poll, no cancelled run gets any further. -/
theorem Fits.heeding_poll_bind {x : Evaluation ω α} (h : W.Guarded α x) :
    W.Heeding α (Evaluation.poll host >>= fun _ => x) where
  guarded ctx outcome after hrun hctx := by
    have hstep : ∀ {stop}, (host.poll ctx.world).1 = stop →
        ∀ h ∈ [Happening.polled stop], ¬ h.Cancels := by
      simp [Happening.Cancels]
    obtain ⟨hcourse, hcancelled⟩ := fits.poll ctx.world
    rcases Run.bind_cases hrun with ⟨fault, rfl, hpoll⟩ | ⟨_, polled, hpoll, hx⟩
    · obtain ⟨rfl, -⟩ := poll_eq_some hpoll
      exact .on [_] hcourse (hstep rfl) (hcancelled.trans hctx)
    · obtain ⟨rfl, -⟩ := poll_eq_some hpoll
      exact .after [_] hcourse (hstep rfl) (h _ outcome after hx (hcancelled.trans hctx))
  closes ctx outcome after hrun hctx := by
    obtain ⟨hcourse, hcancelled⟩ := fits.poll ctx.world
    rw [Run.bind_of_error (fits.poll_of_cancelled hctx)] at hrun
    cases hrun
    rw [fits.stops ctx.world hctx] at hcourse
    exact ⟨hcancelled.trans hctx, 0, .inl ⟨hcourse, rfl⟩⟩

theorem Fits.heeding_poll : W.Heeding Unit (Evaluation.poll host) := by
  rw [← Run.bind_pure (Evaluation.poll host)]
  exact fits.heeding_poll_bind (heeding_ofExcept (operational_ok ())).guarded

theorem Fits.heeding_draw : W.Heeding Float (Evaluation.draw host) where
  guarded := by
    rintro ctx _ _ ⟨⟩ hctx
    obtain ⟨hcourse, hcancelled⟩ := fits.draw ctx.world
    refine .on [_] hcourse ?_ (hcancelled.trans hctx)
    simp [Happening.Cancels]
  closes := by
    rintro ctx _ _ ⟨⟩ hctx
    obtain ⟨hcourse, hcancelled⟩ := fits.draw ctx.world
    exact ⟨hcancelled.trans hctx, 1, .inr ⟨hcourse, operational_ok _⟩⟩

/-- A note is read by nobody. -/
theorem Fits.guarded_note {h : Happening} (calm : ¬ h.Cancels) {x : Evaluation ω α}
    (hx : W.Guarded α x) : W.Guarded α (Evaluation.note add h >>= fun _ => x) := by
  intro ctx outcome after hrun hctx
  obtain ⟨hcourse, hcancelled⟩ := fits.note h ctx.world
  exact .after [h] hcourse (List.forall_mem_singleton.mpr calm)
    (hx { ctx with world := add h ctx.world } outcome after hrun (hcancelled.trans hctx))

/-- A supplier that cancels the run is the last one to be asked. -/
theorem Fits.guarded_resolve {enter : Node → Evaluation ω Float}
    (henter : ∀ root, W.Heeding Float (enter root)) (name : String) :
    W.Guarded Float (resolve source enter name) := by
  intro ctx outcome after hrun hctx
  rcases hindex : ctx.boundIndex? name with _ | index
  · by_cases hlimit : ctx.limits.substitutions < (ctx.hit name).hits.count name
    · rw [resolve_of_refused _ _ hindex hlimit] at hrun
      cases hrun
      exact goes_same hctx _
    · rcases hfound : source name ctx.world with ⟨found, world⟩
      have hread := fits.read name ctx.world hctx
      rw [resolve_of_found _ _ hindex hlimit hfound] at hrun
      rw [hfound] at hread
      cases hcancelled : W.cancelled world with
      | false =>
        -- the run goes on from here, with the question noted or not
        have hnew : ∃ new, W.course world = new ++ W.course ctx.world ∧ ∀ h ∈ new, ¬ h.Cancels := by
          rcases hread with ⟨hcourse, -⟩ | ⟨hcourse, -⟩
          · exact ⟨[], hcourse, nofun⟩
          · rw [hcancelled] at hcourse
            exact ⟨[_], hcourse, by simp [Happening.Cancels]⟩
        obtain ⟨new, hcourse, calm⟩ := hnew
        cases found with
        | unbound =>
          cases hrun
          exact .on new hcourse calm hcancelled
        | value supplied =>
          cases hrun
          exact .on new hcourse calm hcancelled
        | formula root =>
          exact .after new hcourse calm ((henter root).guarded _ outcome after hrun hcancelled)
      | true =>
        rcases hread with ⟨-, hfalse⟩ | ⟨hcourse, hvalue⟩
        · rw [hcancelled] at hfalse
          cases hfalse
        · obtain ⟨supplied, rfl⟩ := hvalue hcancelled
          rw [hcancelled] at hcourse
          cases hrun
          cases outcome with
          | ok x => exact .closes [] nofun ⟨hcancelled, 0, .inr ⟨hcourse, operational_ok x⟩⟩
          | error fault => exact .fails [] nofun hcourse rfl
  · rw [resolve_of_index _ _ hindex] at hrun
    cases hrun
    exact goes_same hctx _

theorem Fits.heeding_iterate {lower upper : Float} {body : Evaluation ω Float}
    (hbody : W.Heeding Float body) (steps step : Nat) (total : Float) :
    W.Heeding Float (iterate host lower upper (Evaluation.note add .began >>= fun _ => body) steps step total) := by
  induction steps generalizing step total with
  | zero => exact heeding_exhausted
  | succ steps ih =>
    unfold iterate
    by_cases habove : upper < lower + Float.ofNat step
    · simp only [habove, if_true]
      exact heeding_ofExcept (operational_checkFinite _)
    · simp only [habove, if_false]
      have hround := (fits.guarded_note (h := .began) (by simp [Happening.Cancels]) hbody.guarded).inScope
        (lower + Float.ofNat step)
      exact fits.heeding_poll_bind (hround.bind fun value => ih _ _)

/-- Whatever is evaluated reads nothing once it is cancelled. -/
theorem Fits.heeding_evaluateNoting (steps : Nat) (node : Node) :
    W.Heeding Float (evaluateNoting add host source steps node) := by
  induction steps generalizing node with
  | zero => exact heeding_exhausted
  | succ steps ih =>
    let A := Actions.noting add ⟨host, source, evaluateNoting add host source steps, steps⟩
    have hthreads : Threads fun α (x _ : Evaluation ω α) => W.Heeding α x :=
      { ofExcept := heeding_ofExcept
        bind := fun h hf => h.bind hf }
    have hrelated : A.Related A fun α x _ => W.Heeding α x :=
      { toThreads := hthreads
        poll := fits.heeding_poll
        draw := fits.heeding_draw
        name := fun name => fits.heeding_poll_bind
          (fits.guarded_note (by simp [Happening.Cancels]) (fits.guarded_resolve ih name))
        sum := fun lower upper body body' hbody => hthreads.sumOver (heeding_read _) host host steps steps
          lower upper _ (Evaluation.note add .began >>= fun _ => body')
          (fits.heeding_iterate hbody steps 0 0.0) }
    exact hrelated.walk node

end Actions

/-! ### Whole runs -/

/-- A cancelling question is the only one in its course. -/
theorem cancels_unique {a b a' b' : Course} {x x' : Happening} (ha : ∀ h ∈ a, ¬ h.Cancels)
    (hb : ∀ h ∈ b, ¬ h.Cancels) (hx' : x'.Cancels)
    (h : a ++ x :: b = a' ++ x' :: b') : a = a' ∧ x = x' := by
  rcases List.append_eq_append_iff.mp h with ⟨c, rfl, hc⟩ | ⟨c, rfl, hc⟩
  · cases c with
    | nil => exact ⟨(List.append_nil a).symm, (List.cons.inj hc).1⟩
    | cons y c =>
      obtain ⟨-, rfl⟩ := List.cons.inj hc
      exact (hb x' (by simp) hx').elim
  · cases c with
    | nil => exact ⟨List.append_nil a', (List.cons.inj hc).1.symm⟩
    | cons y c =>
      obtain ⟨rfl, -⟩ := List.cons.inj hc
      exact (ha x' (by simp) hx').elim

/-- A run that starts with nothing noted ends with its cancellation, if there is one. -/
theorem Goes.endsWithCancellation {outcome : Except Fault Float} {after : ω}
    (h : W.Goes [] outcome after) : (W.course after).EndsWithCancellation outcome := by
  intro later earlier name found hsplit
  have hcancels : (Happening.read name found true).Cancels := ⟨name, found, rfl⟩
  cases h with
  | on new course calm cancelled =>
    rw [course, List.append_nil] at hsplit
    exact (calm (.read name found true) (by rw [hsplit]; simp) hcancels).elim
  | @closes new name' found' calm closing =>
    rw [List.append_nil] at closing
    obtain ⟨-, k, ⟨hcourse, hstop⟩ | ⟨hcourse, hop⟩⟩ := closing
    · rw [hcourse, ← List.cons_append] at hsplit
      obtain ⟨rfl, -⟩ := cancels_unique (by simp [Happening.Cancels]) calm hcancels hsplit
      exact .inl ⟨k, rfl, hstop⟩
    · rw [hcourse] at hsplit
      obtain ⟨rfl, -⟩ := cancels_unique (by simp [Happening.Cancels]) calm hcancels hsplit
      exact .inr (.inl ⟨k, rfl, hop⟩)
  | @fails new name' fault calm course failed =>
    rw [course, List.append_nil] at hsplit
    obtain ⟨rfl, hread⟩ := cancels_unique (a := []) nofun calm hcancels hsplit
    cases hread
    exact .inr (.inr ⟨rfl, fault, rfl, failed⟩)

/-- So does one that was cancelled before it started; nothing is read in it. -/
theorem Closes.endsWithCancellation {outcome : Except Fault Float} {after : ω}
    (h : W.Closes [] outcome after) : (W.course after).EndsWithCancellation outcome := by
  intro later earlier name found hsplit
  have hmem : Happening.read name found true ∈ W.course after := by
    rw [hsplit]
    simp
  obtain ⟨-, k, ⟨hcourse, -⟩ | ⟨hcourse, -⟩⟩ := h
  · rw [hcourse] at hmem
    simp at hmem
  · rw [hcourse] at hmem
    simp at hmem

/-- Either way a run that starts with nothing noted ends so. -/
theorem Heeding.endsWithCancellation {x : Evaluation ω Float} (h : W.Heeding Float x) {ctx after : Context ω}
    (hctx : W.course ctx.world = []) {outcome : Except Fault Float} (hrun : x ctx = some (outcome, after)) :
    (W.course after.world).EndsWithCancellation outcome := by
  cases hcancelled : W.cancelled ctx.world with
  | false =>
    have hgoes := h.guarded ctx outcome after hrun hcancelled
    rw [hctx] at hgoes
    exact hgoes.endsWithCancellation
  | true =>
    have hcloses := h.closes ctx outcome after hrun hcancelled
    rw [hctx] at hcloses
    exact hcloses.endsWithCancellation

end Watch

/-- Only suppliers change the world, so only they cancel a run. -/
theorem Bindings.exists_value_of_cancelled (v : Bindings σ) {cancelled : σ → Bool} {name : String}
    {world : σ} (before : cancelled world = false)
    (after : cancelled (v.source name world).2 = true) :
    ∃ outcome, (v.source name world).1 = .value outcome := by
  unfold Bindings.source at after ⊢
  rcases hb : v.get? name with _ | b
  · rw [hb] at after
    cases before.symm.trans after
  · rw [hb] at after
    cases b with
    | value x => exact ⟨_, rfl⟩
    | supplier ask => exact ⟨_, rfl⟩
    | formula e => cases before.symm.trans after

/-- What is noted of an expression tells of its run. -/
theorem Bindings.fits_noted {host : Host σ} {cancelled : σ → Bool} (heeds : host.Heeds cancelled)
    (v : Bindings σ) : Watch.Fits ⟨Prod.fst, fun w => cancelled w.2⟩ Happening.onto host.noted
      (v.source.noted cancelled) where
  note _ _ := ⟨rfl, rfl⟩
  poll w := ⟨rfl, heeds.polled w.2⟩
  stops w := heeds.stops w.2
  draw w := ⟨rfl, heeds.drawn w.2⟩
  read _ _ before := .inr ⟨rfl, v.exists_value_of_cancelled before⟩

/-- So does what is noted of an equation. -/
theorem Equation.fits_noted {host : Host σ} {cancelled : σ → Bool} (heeds : host.Heeds cancelled)
    (e : Equation σ) : Watch.Fits ⟨fun w => w.2.1, fun w => cancelled w.2.2⟩ Happening.ontoCounted
      (host.noted.onSecond Tally) (counted resolutionLimit (fun name => (e.bindings.get? name).isSome)
        (e.bindings.source.noted cancelled)) where
  note _ _ := ⟨rfl, rfl⟩
  poll w := ⟨rfl, heeds.polled w.2.2⟩
  stops w := heeds.stops w.2.2
  draw w := ⟨rfl, heeds.drawn w.2.2⟩
  read name w before := by
    rcases counted_cases resolutionLimit (fun name => (e.bindings.get? name).isSome)
      (e.bindings.source.noted cancelled) name w with h | h | h
    · rw [h]
      exact .inl ⟨rfl, before⟩
    · rw [h]
      exact .inl ⟨rfl, before⟩
    · rw [h]
      exact .inr ⟨rfl, e.bindings.exists_value_of_cancelled before⟩

/-- In a run of an expression under bindings and any limits, and in one of an equation, that a supplier cancels
when it is asked, no name is resolved afterwards, nobody is asked and no iteration begins, in whatever formula
or scope the run is: it is stopped, or it comes to a value or the fault of an operation with nothing but random
numbers drawn, or the supplier failed itself and the run fails with that fault at once. The noted runs are the
runs themselves. -/
theorem Expression.reads_nothing_after_cancellation {host : Host σ} {cancelled : σ → Bool}
    (heeds : host.Heeds cancelled) (e : Expression) (v : Bindings σ) (limits : Limits) (steps : Nat)
    (world : σ) :
    (e.evaluateUnder limits host v.source steps world =
        (e.evaluateNoted limits host cancelled v steps world).map (fun r => (r.1, r.2.2)) ∧
      ∀ outcome course after,
        e.evaluateNoted limits host cancelled v steps world = some (outcome, course, after) →
        course.EndsWithCancellation outcome) ∧
    (Equation.mk e v).evaluate host steps world =
        ((Equation.mk e v).evaluateNoted host cancelled steps world).map (fun r => (r.1, r.2.2)) ∧
      ∀ outcome course after,
        (Equation.mk e v).evaluateNoted host cancelled steps world = some (outcome, course, after) →
        course.EndsWithCancellation outcome := by
  refine ⟨⟨e.evaluateNoted_eq limits host cancelled v steps world, fun outcome course after hrun => ?_⟩,
    (Equation.mk e v).evaluateNoted_eq host cancelled steps world, fun outcome course after hrun => ?_⟩
  · obtain ⟨⟨outcome', ctx⟩, hnoted, heq⟩ := Option.map_eq_some_iff.mp hrun
    obtain ⟨rfl, hworld⟩ := Prod.mk.inj heq
    obtain rfl : ctx.world.1 = course := congrArg Prod.fst hworld
    exact ((v.fits_noted heeds).heeding_evaluateNoting steps e.root).endsWithCancellation rfl hnoted
  · obtain ⟨⟨outcome', ctx⟩, hnoted, heq⟩ := Option.map_eq_some_iff.mp hrun
    obtain ⟨rfl, hworld⟩ := Prod.mk.inj heq
    obtain rfl : ctx.world.2.1 = course := congrArg Prod.fst hworld
    have hheeding := ((Equation.mk e v).fits_noted heeds).heeding_evaluateNoting steps e.root
    exact hheeding.endsWithCancellation rfl hnoted

/-- A supplier cancels the sum that it is asked for: a random number is still drawn and added, but the run does
not get to the next name. -/
theorem Expression.reads_nothing_after_cancellation_sum :
    ∃ (e : Expression) (v : Bindings World) (course : Course) (after : World),
      e = ⟨"x + rand() + y", .finite (.binary .add (.binary .add (.reference "x" false) .random)
        (.reference "y" false)), {}⟩ ∧
      v = ⟨[("x", .supplier fun world => (.ok 1.0, world.cancel 1)), ("y", .value 2.0)]⟩ ∧
      (Deadline.host ⟨1000, some 1⟩).Heeds (·.cancelled.contains 1) ∧
      e.evaluateNoted {} (Deadline.host ⟨1000, some 1⟩) (·.cancelled.contains 1) v 1 (World.start 0) =
        some (.error (.interrupted true), course, after) ∧
      course = [.polled (some true), .drawn, .read "x" (.value (.ok 1.0)) true, .resolved "x", .polled none,
        .polled none, .polled none, .polled none] ∧
      course.EndsWithCancellation (.error (.interrupted true)) := by
  let e : Expression := ⟨"x + rand() + y", .finite (.binary .add (.binary .add (.reference "x" false)
    .random) (.reference "y" false)), {}⟩
  let v : Bindings World :=
    ⟨[("x", .supplier fun world => (.ok 1.0, world.cancel 1)), ("y", .value 2.0)]⟩
  have heeds := Deadline.heeds 1000 1
  have hcourse : (e.evaluateNoted {} (Deadline.host ⟨1000, some 1⟩) (·.cancelled.contains 1) v 1
      (World.start 0)).map (fun r => (r.1, r.2.1)) =
      some (.error (.interrupted true), [.polled (some true), .drawn, .read "x" (.value (.ok 1.0)) true,
        .resolved "x", .polled none, .polled none, .polled none, .polled none]) := by
    rfl
  obtain ⟨⟨outcome, course, after⟩, hrun, heq⟩ := Option.map_eq_some_iff.mp hcourse
  obtain ⟨rfl, rfl⟩ := Prod.mk.inj heq
  have hends := (Expression.reads_nothing_after_cancellation heeds e v {} 1 (World.start 0)).1.2 _ _ _ hrun
  exact ⟨e, v, _, after, rfl, rfl, heeds, hrun, rfl, hends⟩

/-- A supplier that cancels the run and fails itself: the run neither stops for the cancellation nor ends with
the outcome of an operation. -/
theorem Expression.fails_with_cancelling_supplier :
    ∃ (v : Bindings World) (after : World),
      v = ⟨[("x", .supplier fun world => (.error (.unset "upstream"), world.cancel 1))]⟩ ∧
      Expression.evaluateNoted ⟨"x", .finite (.reference "x" false), {}⟩ {}
          (Deadline.host ⟨1000, some 1⟩) (·.cancelled.contains 1) v 1 (World.start 0) =
        some (.error (.unset "upstream"), [.read "x" (.value (.error (.unset "upstream"))) true,
          .resolved "x", .polled none, .polled none], after) ∧
      ¬ Operational (.error (.unset "upstream") : Except Fault Float) ∧
      (.error (.unset "upstream") : Except Fault Float) ≠ .error (.interrupted true) := by
  refine ⟨_, _, rfl, rfl, fun hop => ?_, nofun⟩
  cases hop _ rfl

end Formulae
