import Formulae.Proofs.Evaluation.Congruence
import Formulae.Proofs.Number.Order

/-!
# Proofs.Evaluation.Tracking — a run seen with less of its world

A run may happen in a world that holds more than another run knows of: a count, a list of the names that
were read, a bound on the polls. Where hosts and sources do the same to what both worlds have in common, so
do the runs, unless the one in the larger world ends in a fault that only its world knows.

* `View`: how a context of the larger world looks in the smaller one, perhaps under higher limits, and which
  faults end the likeness.
* `View.Tracks`: what `x` does, `y` does to the context as it looks from there.
* `View.tracks_evaluate`, `View.evaluateFresh_cases`: runs under hosts and sources that are tracked.
* `View.evaluateFresh_along`: the same for a function from worlds to worlds.
-/

namespace Formulae

open Number Evaluation

variable {σ τ : Type}

/-- The limits allow no more than the other ones, where no iterations stand for no bound on them. -/
structure Limits.Within (l l' : Limits) : Prop where
  substitutions : l.substitutions ≤ l'.substitutions
  iterations : l'.iterations = 0 ∨ 0 < l.iterations ∧ l.iterations ≤ l'.iterations

/-- How a context looks in a smaller world, perhaps under higher limits. -/
structure View (τ σ : Type) where
  world : τ → σ
  limits : Limits
  limits' : Limits
  /-- The worlds that occur. -/
  valid : τ → Prop
  /-- The faults after which nothing more is said. -/
  exits : Fault → Prop
  /-- A summation that only the lower limit refuses ends the likeness. -/
  iterations : limits'.iterations = limits.iterations ∨ limits.Within limits' ∧
    ∀ length, exits (.domain (.summationTooLong length limits.iterations))
  /-- A resolution that only the lower limit refuses ends the likeness. -/
  refused : limits' = limits ∨ limits.substitutions ≤ limits'.substitutions ∧
    ∀ name, exits (.domain (.recursiveVariable name limits.substitutions))

/-- How a context looks in a smaller world, under the same limits. -/
def View.under (limits : Limits) (world : τ → σ) (valid : τ → Prop) (exits : Fault → Prop) :
    View τ σ where
  world := world
  limits := limits
  limits' := limits
  valid := valid
  exits := exits
  iterations := .inl rfl
  refused := .inl rfl

/-- A name that stands for what was found fails with this fault. -/
def Lookup.Fails (name : String) (found : Lookup) (fault : Fault) : Prop :=
  found = .value (.error fault) ∨ found = .unbound ∧ fault = .unset name

namespace View

variable (V : View τ σ)

/-- The contexts of the runs in question. -/
structure Sees (ctx : Context τ) : Prop where
  limits : ctx.limits = V.limits
  world : V.valid ctx.world

/-- A context as it looks. -/
def context (ctx : Context τ) : Context σ :=
  ⟨ctx.hits, ctx.index, V.limits', V.world ctx.world⟩

/-- What `x` does, `y` does to the context as it looks, unless `x` ends in one of the exits. -/
def Tracks (α : Type) (x : Evaluation τ α) (y : Evaluation σ α) : Prop :=
  ∀ ctx, V.Sees ctx →
    match x ctx with
    | some (.ok a, after) => V.Sees after ∧ y (V.context ctx) = some (.ok a, V.context after)
    | some (.error fault, after) => V.exits fault ∨
      V.Sees after ∧ y (V.context ctx) = some (.error fault, V.context after)
    | none => y (V.context ctx) = none

/-- The host of the smaller world does what that of the larger one does. -/
structure Hosts (host : Host τ) (host' : Host σ) : Prop where
  poll : ∀ w, V.valid w → V.valid (host.poll w).2 ∧
    host'.poll (V.world w) = ((host.poll w).1, V.world (host.poll w).2)
  random : ∀ w, V.valid w → V.valid (host.random w).2 ∧
    host'.random (V.world w) = ((host.random w).1, V.world (host.random w).2)

/-- The source of the smaller world supplies what that of the larger one does, unless a name that stands for
that fails with an exit. -/
def Sources (source : Source τ) (source' : Source σ) : Prop :=
  ∀ name w, V.valid w →
    (∃ fault, Lookup.Fails name (source name w).1 fault ∧ V.exits fault) ∨
    V.valid (source name w).2 ∧
      source' name (V.world w) = ((source name w).1, V.world (source name w).2)

variable {V}

section Rules

variable {α β : Type} {x : Evaluation τ α} {y : Evaluation σ α}

/-- Either `x` ends in an exit, or `y` comes to the same. -/
theorem Tracks.cases (h : V.Tracks α x y) {ctx : Context τ} (hs : V.Sees ctx) :
    (∃ fault after, V.exits fault ∧ x ctx = some (.error fault, after)) ∨
      y (V.context ctx) = (x ctx).map fun r => (r.1, V.context r.2) := by
  have hx := h ctx hs
  rcases hrun : x ctx with _ | ⟨fault | a, after⟩
  · rw [hrun] at hx
    exact .inr hx
  · rw [hrun] at hx
    rcases hx with hexit | ⟨-, hy⟩
    · exact .inl ⟨fault, after, hexit, rfl⟩
    · exact .inr hy
  · rw [hrun] at hx
    exact .inr hx.2

theorem tracks_ofExcept (outcome : Except Fault α) :
    V.Tracks α (Run.ofExcept outcome) (Run.ofExcept outcome) := by
  intro ctx hs
  cases outcome with
  | ok a => exact ⟨hs, rfl⟩
  | error fault => exact .inr ⟨hs, rfl⟩

theorem Tracks.bind {f : α → Evaluation τ β} {g : α → Evaluation σ β} (h : V.Tracks α x y)
    (hf : ∀ a, V.Tracks β (f a) (g a)) : V.Tracks β (x >>= f) (y >>= g) := by
  intro ctx hs
  have hx := h ctx hs
  rw [Run.bind_apply]
  rcases hrun : x ctx with _ | ⟨fault | a, after⟩
  · rw [hrun] at hx
    exact Run.bind_of_none hx
  · rw [hrun] at hx
    exact hx.imp_right fun ⟨hafter, hy⟩ => ⟨hafter, Run.bind_of_error hy⟩
  · rw [hrun] at hx
    rw [Run.bind_of_ok hx.2]
    exact hf a after hx.1

theorem Tracks.inScope (index : Float) {x : Evaluation τ Float} {y : Evaluation σ Float}
    (h : V.Tracks Float x y) : V.Tracks Float (inScope index x) (inScope index y) := by
  intro ctx hs
  have hx := h (ctx.within index) ⟨hs.limits, hs.world⟩
  have hwithin : (V.context ctx).within index = V.context (ctx.within index) := rfl
  unfold Evaluation.inScope
  rw [hwithin]
  rcases hrun : x (ctx.within index) with _ | ⟨fault | a, after⟩
  · rw [hrun] at hx
    simp only [hx]
  · rw [hrun] at hx
    refine hx.imp_right fun ⟨hafter, hy⟩ => ⟨⟨hs.limits, hafter.world⟩, ?_⟩
    simp only [hy]
    rfl
  · rw [hrun] at hx
    refine ⟨⟨hs.limits, hx.1.world⟩, ?_⟩
    simp only [hx.2]
    rfl

/-- Polls and random numbers are those of the hosts. -/
theorem Hosts.tracks_poll {host : Host τ} {host' : Host σ} (h : V.Hosts host host') :
    V.Tracks Unit (Evaluation.poll host) (Evaluation.poll host') := by
  intro ctx hs
  obtain ⟨hvalid, hpoll⟩ := h.poll ctx.world hs.world
  have hworld : (V.context ctx).world = V.world ctx.world := rfl
  unfold Evaluation.poll
  rw [hworld, hpoll]
  rcases hstop : host.poll ctx.world with ⟨_ | cancelled, w⟩
  · rw [hstop] at hvalid
    exact ⟨⟨hs.limits, hvalid⟩, rfl⟩
  · rw [hstop] at hvalid
    exact .inr ⟨⟨hs.limits, hvalid⟩, rfl⟩

theorem Hosts.tracks_draw {host : Host τ} {host' : Host σ} (h : V.Hosts host host') :
    V.Tracks Float (draw host) (draw host') := by
  intro ctx hs
  obtain ⟨hvalid, hrandom⟩ := h.random ctx.world hs.world
  refine ⟨⟨hs.limits, hvalid⟩, ?_⟩
  unfold draw
  show some (Except.ok (host'.random (V.world ctx.world)).1,
    { V.context ctx with world := (host'.random (V.world ctx.world)).2 }) = _
  rw [hrandom]
  rfl

/-- Names are tracked if what they stand for is. -/
theorem Sources.tracks_resolve {source : Source τ} {source' : Source σ}
    {enter : Node → Evaluation τ Float} {enter' : Node → Evaluation σ Float}
    (h : V.Sources source source') (henter : ∀ root, V.Tracks Float (enter root) (enter' root))
    (name : String) :
    V.Tracks Float (resolve source enter name) (resolve source' enter' name) := by
  intro ctx hs
  have hindex' : (V.context ctx).boundIndex? name = ctx.boundIndex? name := rfl
  rcases hindex : ctx.boundIndex? name with _ | index
  · rw [resolve_of_unindexed _ _ hindex, resolve_of_unindexed _ _ (hindex'.trans hindex)]
    have hhit : V.Sees (ctx.hit name) := ⟨hs.limits, hs.world⟩
    have hcount : ((V.context ctx).hit name).hits.count name = (ctx.hit name).hits.count name := rfl
    have hlimits' : (V.context ctx).limits = V.limits' := rfl
    rw [hcount, hs.limits, hlimits']
    by_cases hlow : V.limits.substitutions < (ctx.hit name).hits.count name
    · rw [if_pos hlow]
      rcases V.refused with heq | ⟨-, hexit⟩
      · rw [heq, if_pos hlow]
        exact .inr ⟨hhit, rfl⟩
      · exact .inl (hexit name)
    · have hhigh : ¬ V.limits'.substitutions < (ctx.hit name).hits.count name := by
        rcases V.refused with heq | ⟨hle, -⟩
        · rwa [heq]
        · omega
      rw [if_neg hlow, if_neg hhigh]
      have hworld : (V.context ctx).world = V.world ctx.world := rfl
      rcases h name ctx.world hs.world with ⟨fault, hfound, hexit⟩ | ⟨hvalid, hsource⟩
      · rcases hlook : source name ctx.world with ⟨found, w⟩
        rw [hlook] at hfound
        rcases hfound with rfl | ⟨rfl, rfl⟩
        · exact .inl hexit
        · exact .inl hexit
      · rw [hworld, hsource]
        rcases hlook : source name ctx.world with ⟨_ | outcome | root, w⟩
        · rw [hlook] at hvalid
          exact .inr ⟨⟨hs.limits, hvalid⟩, rfl⟩
        · rw [hlook] at hvalid
          cases outcome with
          | ok value => exact ⟨⟨hs.limits, hvalid⟩, rfl⟩
          | error fault => exact .inr ⟨⟨hs.limits, hvalid⟩, rfl⟩
        · rw [hlook] at hvalid
          exact henter root { ctx.hit name with world := w } ⟨hs.limits, hvalid⟩
  · rw [resolve_of_index _ _ hindex, resolve_of_index _ _ (hindex'.trans hindex)]
    exact ⟨hs, rfl⟩

theorem Hosts.iterates {host : Host τ} {host' : Host σ} (h : V.Hosts host host') (source : Source τ)
    (source' : Source σ) (enter : Node → Evaluation τ Float) (enter' : Node → Evaluation σ Float)
    (steps : Nat) :
    Iterates ⟨host, source, enter, steps⟩ ⟨host', source', enter', steps⟩ Eq V.Tracks where
  ofExcept _ := tracks_ofExcept _
  bind := Tracks.bind
  poll := h.tracks_poll
  exhausted h hn := by
    rw [hn h.symm]
    exact fun _ _ => rfl
  succ h := ⟨_, h.symm, rfl⟩
  steps := rfl

/-- A summation that one limit lets through is not too long for a higher one. -/
theorem not_tooLong_of_within {l l' : Limits} (h : l.Within l') {length : Float}
    (hshort : ¬ (0 < l.iterations && Float.ofNat l.iterations < length) = true) :
    ¬ (0 < l'.iterations && Float.ofNat l'.iterations < length) = true := by
  simp only [Bool.and_eq_true, decide_eq_true_eq, not_and] at hshort ⊢
  intro hpos hlong
  rcases h.iterations with hzero | ⟨hpos', hle⟩
  · omega
  · exact hshort hpos' (ofNat_lt_of_le hle hlong)

/-- Summations are tracked if their loops are. -/
theorem tracks_sumOver {host : Host τ} {host' : Host σ} {steps steps' : Nat} (lower upper : Float)
    {body : Evaluation τ Float} {body' : Evaluation σ Float}
    (loop : V.Tracks Float (iterate host lower upper body steps 0 0.0)
      (iterate host' lower upper body' steps' 0 0.0)) :
    V.Tracks Float (sumOver host steps lower upper body) (sumOver host' steps' lower upper body') := by
  intro ctx hs
  have hlimits' : (V.context ctx).limits = V.limits' := rfl
  unfold sumOver
  by_cases hbounds : upper < lower
  · simp only [hbounds, if_true]
    exact .inr ⟨hs, rfl⟩
  · simp only [hbounds, if_false]
    rw [Run.bind_of_ok (Run.read_apply _ _), Run.bind_of_ok (Run.read_apply _ _), hs.limits, hlimits']
    by_cases hlong : (0 < V.limits.iterations &&
      Float.ofNat V.limits.iterations < summationLength lower upper) = true
    · rcases V.iterations with heq | ⟨-, hexit⟩
      · simp only [heq, hlong, if_true]
        exact .inr ⟨hs, rfl⟩
      · simp only [hlong, if_true]
        exact .inl (hexit _)
    · have hlong' : ¬ (0 < V.limits'.iterations &&
          Float.ofNat V.limits'.iterations < summationLength lower upper) = true := by
        rcases V.iterations with heq | ⟨hwithin, -⟩
        · rwa [heq]
        · exact not_tooLong_of_within hwithin hlong
      simp only [hlong, hlong']
      exact loop ctx hs

/-- A tree is tracked if its names are. -/
theorem Hosts.run {host : Host τ} {host' : Host σ} (h : V.Hosts host host') {source : Source τ}
    {source' : Source σ} {enter : Node → Evaluation τ Float} {enter' : Node → Evaluation σ Float}
    {steps : Nat}
    (hname : ∀ name, V.Tracks Float (resolve source enter name) (resolve source' enter' name))
    (node : Node) :
    V.Tracks Float (node.evaluateWith host source enter steps)
      (node.evaluateWith host' source' enter' steps) :=
  have hiterates := h.iterates source source' enter enter' steps
  Composes.run
    { toThreads := hiterates.toThreads
      poll := h.tracks_poll
      sumOver := fun lower upper _ _ hbody =>
        tracks_sumOver lower upper (hiterates.iterate hbody rfl 0 0.0) }
    Tracks.inScope h.tracks_draw hname node

end Rules

/-! ### Whole runs -/

section Runs

variable {host : Host τ} {host' : Host σ} {source : Source τ} {source' : Source σ}

/-- Runs are tracked if hosts and sources are. -/
theorem tracks_evaluate (hhost : V.Hosts host host') (hsource : V.Sources source source')
    (steps : Nat) (node : Node) :
    V.Tracks Float (evaluate host source steps node) (evaluate host' source' steps node) := by
  induction steps generalizing node with
  | zero => exact fun _ _ => rfl
  | succ steps ih =>
    exact hhost.run (hsource.tracks_resolve ih) node

/-- Either the run ends in an exit, or the other one comes to the same, with what it sees of the world. -/
theorem evaluateFresh_cases (hhost : V.Hosts host host') (hsource : V.Sources source source')
    (steps : Nat) (node : Node) {w : τ} (hw : V.valid w) :
    (∃ fault after, V.exits fault ∧
      evaluateFresh host source steps V.limits node w = some (.error fault, after)) ∨
    evaluateFresh host' source' steps V.limits' node (V.world w) =
      (evaluateFresh host source steps V.limits node w).map fun r => (r.1, V.world r.2) := by
  rw [evaluateFresh_eq_map, evaluateFresh_eq_map]
  rcases (tracks_evaluate hhost hsource steps node).cases
    (show V.Sees (Context.fresh V.limits w) from ⟨rfl, hw⟩) with ⟨fault, after, hexit, hrun⟩ | hsame
  · exact .inl ⟨fault, after.world, hexit, congrArg _ hrun⟩
  · refine .inr ((congrArg _ hsame).trans ?_)
    rw [Option.map_map, Option.map_map]
    rfl

end Runs

/-- A world seen through a function, with the same limits and nothing that ends the likeness. -/
def along (f : τ → σ) (limits : Limits) : View τ σ :=
  under limits f (fun _ => True) fun _ => False

/-- Where a function from worlds to worlds goes with hosts and sources, it goes with their runs. -/
theorem evaluateFresh_along (f : τ → σ) {limits : Limits} {host : Host τ} {host' : Host σ}
    {source : Source τ} {source' : Source σ} (hhost : (along f limits).Hosts host host')
    (hsource : (along f limits).Sources source source') (steps : Nat) (node : Node) (w : τ) :
    evaluateFresh host' source' steps limits node (f w) =
      (evaluateFresh host source steps limits node w).map fun r => (r.1, f r.2) := by
  rcases evaluateFresh_cases hhost hsource steps node (w := w) trivial with ⟨_, _, hexit, _⟩ | h
  · exact hexit.elim
  · exact h

end View

end Formulae
