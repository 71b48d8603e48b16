import Formulae.Proofs.Evaluation.Tracking

/-!
# Proofs.Evaluation.Trail — what is being resolved at each moment of a run

A run is observed from beside its world: at each resolution the name is noted with the names whose formulas
are being evaluated then. An observed run may be cut off after a number of polls, so that runs that never
end are seen as far as one likes.

* `Trail`: what is noted; `Trail.moments` has an entry for each resolution that came to the source.
* `observe`: the run that is observed.
* `observe_whole`: a run that is not cut off comes to what it comes to unobserved.
* `exists_observe_of_cut`: a run that is cut off ends.
* `Source.logged`: a source that notes the names it is asked for, for observers between two sources.
-/

namespace Formulae

open Evaluation

variable {σ : Type}

/-- What is noted of a run while it goes on. -/
structure Trail where
  /-- The polls that the run has left before it is cut off, if it is. -/
  left : Option Nat
  /-- The names whose formulas are being evaluated, the innermost one first. -/
  active : List String
  /-- For each resolution the name, followed by the names that were active. The latest one comes first. -/
  moments : List (List String)
deriving DecidableEq

namespace Trail

/-- The trail at the start of a run. -/
def start (left : Option Nat) : Trail := ⟨left, [], []⟩

/-- One poll less. -/
def tick (t : Trail) : Trail :=
  { t with left := t.left.map (· - 1) }

/-- A name is resolved; if it stands for a formula, that one is active from now on. -/
def meet (t : Trail) (name : String) (found : Lookup) : Trail :=
  { t with
    moments := (name :: t.active) :: t.moments
    active := match found with
      | .formula _ => name :: t.active
      | _ => t.active }

/-- The innermost formula has been evaluated. -/
def close (t : Trail) : Trail :=
  { t with active := t.active.tail }

/-- How often a name was resolved. -/
def resolutions (t : Trail) (name : String) : Nat :=
  t.moments.countP fun moment => moment.head? = some name

@[simp] theorem meet_moments (t : Trail) (name : String) (found : Lookup) :
    (t.meet name found).moments = (name :: t.active) :: t.moments := rfl

theorem resolutions_meet (t : Trail) (name other : String) (found : Lookup) :
    (t.meet name found).resolutions other = t.resolutions other + if name = other then 1 else 0 := by
  simp [resolutions, List.countP_cons]

end Trail

/-! ### Observed runs -/

/-- The host, which also stops a run that has no poll left. -/
def Host.observed (host : Host σ) : Host (Trail × σ) where
  poll := fun (trail, world) =>
    if trail.left = some 0 then (some false, (trail, world))
    else
      let (stop, world) := host.poll world
      (stop, (trail.tick, world))
  random := (host.onSecond Trail).random

/-- The source, with each resolution noted. -/
def Source.observed (source : Source σ) : Source (Trail × σ) := fun name (trail, world) =>
  let (found, world) := source name world
  (found, (trail.meet name found, world))

/-- The evaluation of a formula that a name stands for. -/
def Evaluation.closing (x : Evaluation (Trail × σ) Float) : Evaluation (Trail × σ) Float := fun ctx =>
  match x ctx with
  | some (outcome, after) =>
    some (outcome, { after with world := (after.world.1.close, after.world.2) })
  | none => none

/-- The observed value of a tree. -/
def evaluateObserved (host : Host σ) (source : Source σ) : Nat → Node → Evaluation (Trail × σ) Float
  | 0, _ => Run.exhausted
  | steps + 1, node => node.evaluateWith host.observed source.observed
      (fun root => closing (evaluateObserved host source steps root)) steps

/-- The observed value of a tree in a fresh context, with the trail and the world that are left. The run is
cut off after `left` polls, if that is a number. -/
def observe (host : Host σ) (source : Source σ) (steps : Nat) (limits : Limits) (node : Node)
    (left : Option Nat) (world : σ) : Option (Except Fault Float × Trail × σ) :=
  match evaluateObserved host source steps node
    (Context.fresh limits (Trail.start left, world)) with
  | some (outcome, after) => some (outcome, after.world)
  | none => none

theorem observe_eq_map (host : Host σ) (source : Source σ) (steps : Nat) (limits : Limits) (node : Node)
    (left : Option Nat) (world : σ) :
    observe host source steps limits node left world =
      (evaluateObserved host source steps node (Context.fresh limits (Trail.start left, world))).map
        fun r => (r.1, r.2.world) := by
  unfold observe
  rcases evaluateObserved host source steps node (Context.fresh limits (Trail.start left, world)) with
    _ | ⟨outcome, after⟩ <;> rfl

/-- A poll of an observed run takes one from the polls that are left, if the run goes on at all. -/
theorem observed_poll_cases (host : Host σ) (w : Trail × σ) :
    (host.observed.poll w).2 = w ∨ (host.observed.poll w).2 = (w.1.tick, (host.poll w.2).2) := by
  obtain ⟨trail, world⟩ := w
  unfold Host.observed
  by_cases hzero : trail.left = some 0
  · exact .inl (by simp only [hzero, if_true])
  · exact .inr (by simp only [hzero, if_false])

/-- The evaluator of an observed run. -/
def Evaluator.observed (host : Host σ) (source : Source σ) (steps : Nat) : Evaluator (Trail × σ) :=
  ⟨host.observed, source.observed, fun root => closing (evaluateObserved host source steps root), steps⟩

theorem evaluateObserved_succ (host : Host σ) (source : Source σ) (steps : Nat) (node : Node) :
    evaluateObserved host source (steps + 1) node = (Evaluator.observed host source steps).run node :=
  rfl

/-- What an observed source finds, with the resolution noted. -/
theorem observed_of_found {source : Source σ} {name : String} {w : Trail × σ} {found : Lookup}
    {world : σ} (h : source name w.2 = (found, world)) :
    source.observed name w = (found, (w.1.meet name found, world)) := by
  unfold Source.observed
  simp only [h]

theorem closing_of_some {x : Evaluation (Trail × σ) Float} {ctx inner : Context (Trail × σ)}
    {outcome : Except Fault Float} (h : x ctx = some (outcome, inner)) :
    closing x ctx =
      some (outcome, { inner with world := (inner.world.1.close, inner.world.2) }) := by
  rw [closing, h]

theorem closing_eq_some {x : Evaluation (Trail × σ) Float} {ctx after : Context (Trail × σ)}
    {outcome : Except Fault Float} (h : closing x ctx = some (outcome, after)) :
    ∃ inner, x ctx = some (outcome, inner) ∧
      after = { inner with world := (inner.world.1.close, inner.world.2) } := by
  unfold closing at h
  split at h
  · rename_i outcome' inner hx
    obtain ⟨rfl, rfl⟩ := Prod.mk.inj (Option.some.inj h)
    exact ⟨inner, hx, rfl⟩
  · cases h

/-! ### A run that is not cut off -/

/-- What a run that is not cut off looks like without its trail. -/
def View.untrailed (σ : Type) (limits : Limits) : View (Trail × σ) σ :=
  .under limits Prod.snd (fun w => w.1.left = none) fun _ => False

section Whole

variable {limits : Limits}

theorem untrailed_hosts (limits : Limits) (host : Host σ) :
    (View.untrailed σ limits).Hosts host.observed host where
  poll := by
    rintro ⟨trail, world⟩ (hleft : trail.left = none)
    have hgo : ¬ trail.left = some 0 := by rw [hleft]; nofun
    unfold Host.observed
    simp only [hgo, if_false]
    refine ⟨?_, rfl⟩
    show trail.left.map (· - 1) = none
    rw [hleft]
    rfl
  random w hw := ⟨hw, rfl⟩

theorem untrailed_sources (limits : Limits) (source : Source σ) :
    (View.untrailed σ limits).Sources source.observed source :=
  fun _ _ hw => .inr ⟨hw, rfl⟩

theorem untrailed_closing {x : Evaluation (Trail × σ) Float} {y : Evaluation σ Float}
    (h : (View.untrailed σ limits).Tracks Float x y) :
    (View.untrailed σ limits).Tracks Float (closing x) y := by
  intro ctx hs
  have hx := h ctx hs
  unfold closing
  rcases hrun : x ctx with _ | ⟨fault | a, after⟩
  · rw [hrun] at hx
    exact hx
  · rw [hrun] at hx
    exact hx.imp_right fun ⟨hafter, hy⟩ => ⟨⟨hafter.limits, hafter.world⟩, hy⟩
  · rw [hrun] at hx
    exact ⟨⟨hx.1.limits, hx.1.world⟩, hx.2⟩

theorem tracks_evaluateObserved (limits : Limits) (host : Host σ) (source : Source σ) (steps : Nat)
    (node : Node) :
    (View.untrailed σ limits).Tracks Float (evaluateObserved host source steps node)
      (evaluate host source steps node) := by
  induction steps generalizing node with
  | zero => exact fun _ _ => rfl
  | succ steps ih =>
    have hhosts := untrailed_hosts limits host
    exact hhosts.run
      ((untrailed_sources limits source).tracks_resolve fun root => untrailed_closing (ih root)) node

/-- A run that is not cut off comes to what it comes to unobserved. -/
theorem observe_whole (host : Host σ) (source : Source σ) (steps : Nat) (limits : Limits)
    (node : Node) (world : σ) :
    (observe host source steps limits node none world).map (fun r => (r.1, r.2.2)) =
      evaluateFresh host source steps limits node world := by
  rw [observe_eq_map, evaluateFresh_eq_map, Option.map_map]
  rcases (tracks_evaluateObserved limits host source steps node).cases
    (show (View.untrailed σ limits).Sees (Context.fresh limits (Trail.start none, world)) from ⟨rfl, rfl⟩)
    with ⟨_, _, hexit, _⟩ | hsame
  · exact hexit.elim
  · refine Eq.symm ((congrArg _ hsame).trans ?_)
    rw [Option.map_map]
    rfl

end Whole

/-! ### A run that is cut off -/

/-- In a context with less than `n - 1` polls left, the evaluation ends and leaves no more of them. -/
def Lasts (n : Nat) (α : Type) (x : Evaluation (Trail × σ) α) : Prop :=
  ∀ ctx left, ctx.world.1.left = some left → left + 1 < n →
    ∃ outcome after left', x ctx = some (outcome, after) ∧ after.world.1.left = some left' ∧
      left' ≤ left

section Cut

variable {n : Nat}

theorem Lasts.of_still {α : Type} {x : Evaluation (Trail × σ) α} (h : ∀ ctx, ∃ outcome after,
    x ctx = some (outcome, after) ∧ after.world.1.left = ctx.world.1.left) : Lasts n α x := by
  intro ctx left hleft _
  obtain ⟨outcome, after, hx, hafter⟩ := h ctx
  exact ⟨outcome, after, left, hx, hafter.trans hleft, Nat.le_refl _⟩

theorem Lasts.bind {α β : Type} {x : Evaluation (Trail × σ) α} {f : α → Evaluation (Trail × σ) β}
    (h : Lasts n α x) (hf : ∀ a, Lasts n β (f a)) : Lasts n β (x >>= f) := by
  intro ctx left hleft hn
  obtain ⟨outcome, mid, left', hx, hmid, hle⟩ := h ctx left hleft hn
  cases outcome with
  | error fault => exact ⟨.error fault, mid, left', Run.bind_of_error hx, hmid, hle⟩
  | ok a =>
    obtain ⟨outcome, after, left'', hrun, hafter, hle'⟩ := hf a mid left' hmid (by omega)
    exact ⟨outcome, after, left'', (Run.bind_of_ok hx).trans hrun, hafter, by omega⟩

theorem Lasts.inScope (index : Float) {x : Evaluation (Trail × σ) Float} (h : Lasts n Float x) :
    Lasts n Float (inScope index x) := by
  intro ctx left hleft hn
  obtain ⟨outcome, inner, left', hx, hinner, hle⟩ := h (ctx.within index) left hleft hn
  exact ⟨outcome, _, left', inScope_of_some hx, hinner, hle⟩

/-- A poll takes one from the polls that are left, or it stops the run. -/
theorem poll_observed (host : Host σ) (ctx : Context (Trail × σ)) {left : Nat}
    (hleft : ctx.world.1.left = some left) :
    (∃ fault after, poll host.observed ctx = some (.error fault, after) ∧
      ∃ left' ≤ left, after.world.1.left = some left') ∨
    ∃ after, poll host.observed ctx = some (.ok (), after) ∧ 0 < left ∧
      after.world.1.left = some (left - 1) := by
  have htick : ctx.world.1.tick.left = some (left - 1) := by
    show ctx.world.1.left.map (· - 1) = _
    rw [hleft]
    rfl
  unfold poll Host.observed
  by_cases hzero : ctx.world.1.left = some 0
  · simp only [hzero, if_true]
    exact .inl ⟨_, _, rfl, left, Nat.le_refl _, hleft⟩
  · have hpos : 0 < left := Nat.pos_of_ne_zero fun h => hzero (h ▸ hleft)
    rcases hstop : host.poll ctx.world.2 with ⟨_ | cancelled, world⟩
    · simp only [hzero, if_false, hstop]
      exact .inr ⟨_, rfl, hpos, htick⟩
    · simp only [hzero, if_false, hstop]
      exact .inl ⟨_, _, rfl, left - 1, by omega, htick⟩

theorem Lasts.poll (host : Host σ) : Lasts n Unit (poll host.observed) := by
  intro ctx left hleft _
  rcases poll_observed host ctx hleft with ⟨fault, after, hrun, left', hle, hafter⟩ |
    ⟨after, hrun, -, hafter⟩
  · exact ⟨_, after, left', hrun, hafter, hle⟩
  · exact ⟨_, after, left - 1, hrun, hafter, by omega⟩

/-- A loop ends if it may go on for as many iterations as polls are left. -/
theorem lasts_iterate (host : Host σ) {lower upper : Float} {body : Evaluation (Trail × σ) Float}
    (hbody : ∀ index, Lasts n Float (inScope index body)) (m step : Nat) (total : Float)
    (ctx : Context (Trail × σ)) (left : Nat) (hleft : ctx.world.1.left = some left)
    (hn : left + 1 < n) (hm : left < m) :
    ∃ outcome after left', iterate host.observed lower upper body m step total ctx =
      some (outcome, after) ∧ after.world.1.left = some left' ∧ left' ≤ left := by
  induction m generalizing step total ctx left with
  | zero => omega
  | succ m ih =>
    unfold iterate
    by_cases hend : upper < lower + Float.ofNat step
    · simp only [hend, if_true]
      exact ⟨_, ctx, left, rfl, hleft, Nat.le_refl _⟩
    · simp only [hend, if_false]
      rcases poll_observed host ctx hleft with ⟨fault, after, hpoll, left', hle, hafter⟩ |
        ⟨mid, hpoll, hpos, hmid⟩
      · exact ⟨_, after, left', Run.bind_of_error hpoll, hafter, hle⟩
      · rw [Run.bind_of_ok hpoll]
        obtain ⟨outcome, inner, left', hrun, hinner, hle⟩ := hbody (lower + Float.ofNat step) mid
          (left - 1) hmid (by omega)
        cases outcome with
        | error fault => exact ⟨_, inner, left', Run.bind_of_error hrun, hinner, by omega⟩
        | ok value =>
          rw [Run.bind_of_ok hrun]
          obtain ⟨outcome, after, left'', hrest, hafter, hle'⟩ := ih (step + 1) (total + value) inner
            left' hinner (by omega) (by omega)
          exact ⟨outcome, after, left'', hrest, hafter, by omega⟩

theorem lasts_threads (n : Nat) :
    Threads (σ := Trail × σ) (τ := Trail × σ) fun α x _ => Lasts n α x where
  ofExcept _ := Lasts.of_still fun ctx => ⟨_, ctx, rfl, rfl⟩
  bind := Lasts.bind

theorem lasts_composes (host : Host σ) (source : Source σ) (steps : Nat) :
    Composes (Evaluator.observed host source steps) (Evaluator.observed host source steps)
      fun α x _ => Lasts (steps + 1) α x where
  toThreads := lasts_threads (steps + 1)
  poll := Lasts.poll host
  sumOver lower upper body body' hbody := by
    refine (lasts_threads (steps + 1)).sumOver (Lasts.of_still fun ctx => ⟨_, ctx, rfl, rfl⟩)
      host.observed host.observed steps steps lower upper body body' ?_
    intro ctx left hleft hn
    exact lasts_iterate host hbody steps 0 0.0 ctx left hleft hn (by omega)

/-- A resolution ends if the formulas that names stand for end. -/
theorem lasts_resolve (source : Source σ) {enter : Node → Evaluation (Trail × σ) Float}
    (henter : ∀ root, Lasts n Float (enter root)) (name : String) :
    Lasts n Float (resolve source.observed (fun root => closing (enter root)) name) := by
  intro ctx left hleft hn
  rcases hindex : ctx.boundIndex? name with _ | index
  · by_cases hlimit : ctx.limits.substitutions < (ctx.hit name).hits.count name
    · exact ⟨_, ctx.hit name, left, resolve_of_refused _ _ hindex hlimit, hleft, Nat.le_refl _⟩
    · rcases hfound : source name ctx.world.2 with ⟨found, world⟩
      rw [resolve_of_found _ _ hindex hlimit (observed_of_found hfound)]
      cases found with
      | unbound | value =>
        exact ⟨_, { ctx.hit name with world := (ctx.world.1.meet name _, world) }, left, rfl, hleft,
          Nat.le_refl _⟩
      | formula root =>
        obtain ⟨outcome, inner, left', hrun, hinner, hle⟩ := henter root
          { ctx.hit name with world := (ctx.world.1.meet name (.formula root), world) } left hleft hn
        exact ⟨outcome, _, left', closing_of_some hrun, hinner, hle⟩
  · exact ⟨_, ctx, left, resolve_of_index _ _ hindex, hleft, Nat.le_refl _⟩

theorem lasts_evaluateObserved (host : Host σ) (source : Source σ) (steps : Nat) (node : Node) :
    Lasts steps Float (evaluateObserved host source steps node) := by
  induction steps generalizing node with
  | zero => exact fun ctx left _ hn => absurd hn (by omega)
  | succ steps ih =>
    rw [evaluateObserved_succ]
    have hcomposes := lasts_composes host source steps
    refine Composes.of_leaves (fun _ => hcomposes) (fun _ index _ _ h => h.inScope index) node false ?_
    rintro ⟨leaf, inBody⟩ hl
    have hleaf := Node.childrenReversed_of_mem_leaves hl
    cases leaf with
    | number | constant => exact hcomposes.ofExcept (operational_ok _)
    | random => exact Lasts.of_still fun ctx => ⟨_, _, rfl, rfl⟩
    | reference name inSummation =>
      -- the poll pays for the step into the formula
      intro ctx left hleft hn
      show ∃ outcome after left', (poll host.observed >>= fun _ => resolve _ _ name) ctx = _ ∧ _
      rcases poll_observed host ctx hleft with ⟨fault, after, hpoll, left', hle, hafter⟩ |
        ⟨mid, hpoll, hpos, hmid⟩
      · exact ⟨_, after, left', Run.bind_of_error hpoll, hafter, hle⟩
      · rw [Run.bind_of_ok hpoll]
        obtain ⟨outcome, after, left', hrun, hafter, hle⟩ :=
          lasts_resolve source ih name mid (left - 1) hmid (by omega)
        exact ⟨outcome, after, left', hrun, hafter, by omega⟩
    | _ => cases hleaf

/-- A run that is cut off after so many polls ends within two steps more. -/
theorem exists_observe_of_cut (host : Host σ) (source : Source σ) (limits : Limits) (node : Node)
    (polls : Nat) (world : σ) :
    ∃ result, observe host source (polls + 2) limits node (some polls) world = some result := by
  obtain ⟨outcome, after, -, hrun, -, -⟩ := lasts_evaluateObserved host source (polls + 2) node
    (Context.fresh limits (Trail.start (some polls), world)) polls rfl (by omega)
  exact ⟨(outcome, after.world), by unfold observe; rw [hrun]⟩

end Cut

/-! ### Sources that note what they are asked for -/

/-- The source, with the names it was asked for, the latest one first. -/
def Source.logged (source : Source σ) : Source (List String × σ) := fun name (asked, world) =>
  let (found, world) := source name world
  (found, (name :: asked, world))

/-- Logged or not, the run comes to the same. -/
theorem evaluateFresh_logged (host : Host σ) (source : Source σ) (steps : Nat) (limits : Limits)
    (node : Node) (asked : List String) (world : σ) :
    evaluateFresh host source steps limits node world =
      (evaluateFresh (host.onSecond (List String)) source.logged steps limits node (asked, world)).map
        fun r => (r.1, r.2.2) :=
  View.evaluateFresh_along Prod.snd ⟨fun _ _ => ⟨trivial, rfl⟩, fun _ _ => ⟨trivial, rfl⟩⟩
    (fun _ _ _ => .inr ⟨trivial, rfl⟩) steps node (asked, world)

end Formulae
