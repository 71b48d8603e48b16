import Formulae.Proofs.Evaluation.Tracking
import Formulae.Proofs.Runs

/-!
# Proofs.Evaluation.Pace — names that the limit on substitutions never refuses

A scope counts the resolutions of a name that happened in it; a world may count those of a whole run. As long
as a run goes on, no scope has counted a name more often than the world has. So where the world refuses a name
before it comes to a cap, the limit on substitutions has no effect from that cap up.

* `Source.Paced`: a source that counts what it finds, in the world, and stops below a cap.
* `InPace`, `Spares`: the scopes are behind the world, and what every part of a run keeps of that.
* `spares_evaluate`: no name is refused by the limit.
* `evaluateFresh_allowing`: so two such limits come to the same.
-/

namespace Formulae

open Evaluation

variable {σ : Type}

/-- The fault says that the limit on substitutions was reached. -/
def Fault.IsRecursion (fault : Fault) : Prop :=
  ∃ name limit, fault = .domain (.recursiveVariable name limit)

/-- The limits with another one on substitutions. -/
def Limits.allowing (l : Limits) (substitutions : Nat) : Limits :=
  { l with substitutions }

theorem Operational.not_recursion {α : Type} {outcome : Except Fault α} (h : Operational outcome) :
    ∀ fault, outcome = .error fault → ¬ fault.IsRecursion := by
  rintro _ hfault ⟨name, limit, rfl⟩
  cases h _ hfault

/-- The world counts the names that the source finds something for, with `pace`, and none of them up to the
cap. No name stands for the fault of the limit. -/
structure Source.Paced (host : Host σ) (source : Source σ) (pace : σ → String → Nat) (cap : Nat) :
    Prop where
  poll : ∀ world, pace (host.poll world).2 = pace world
  random : ∀ world, pace (host.random world).2 = pace world
  candid : ∀ name world fault, Lookup.Fails name (source name world).1 fault → ¬ fault.IsRecursion
  counted : ∀ name world, (∃ fault, Lookup.Fails name (source name world).1 fault) ∨
    pace (source name world).2 name < cap ∧
      ∀ other, pace (source name world).2 other = pace world other + if name = other then 1 else 0

/-- The limit is not below the cap, and no scope has counted a name more often than the world has. -/
structure InPace (pace : σ → String → Nat) (cap : Nat) (ctx : Context σ) : Prop where
  limit : cap ≤ ctx.limits.substitutions
  counts : ∀ name, ctx.hits.count name ≤ pace ctx.world name
  below : ∀ name, pace ctx.world name < cap

/-- In pace, the evaluation does not end in the fault of the limit. It remains in pace, and the world does not
count backwards. -/
def Spares (pace : σ → String → Nat) (cap : Nat) (α : Type) (x : Evaluation σ α) : Prop :=
  ∀ ctx, InPace pace cap ctx → Run.Meets x ctx
    (fun _ after => InPace pace cap after ∧ ∀ name, pace ctx.world name ≤ pace after.world name)
    fun fault => ¬ fault.IsRecursion

section Spares

variable {pace : σ → String → Nat} {cap : Nat} {host : Host σ} {source : Source σ} {α β : Type}

/-- Only the world has changed, and it counts as before. -/
theorem InPace.of_world {ctx : Context σ} (h : InPace pace cap ctx) {world : σ}
    (hworld : pace world = pace ctx.world) :
    InPace pace cap { ctx with world } ∧ ∀ name, pace ctx.world name ≤ pace world name := by
  refine ⟨⟨h.limit, ?_, ?_⟩, fun name => ?_⟩
  · rw [hworld]
    exact h.counts
  · rw [hworld]
    exact h.below
  · rw [hworld]

theorem spares_ofExcept {outcome : Except Fault α}
    (h : ∀ fault, outcome = .error fault → ¬ fault.IsRecursion) :
    Spares pace cap α (Run.ofExcept outcome) := by
  intro ctx hctx
  cases outcome with
  | ok a => exact hctx.of_world rfl
  | error fault => exact h fault rfl

theorem spares_read (f : Context σ → α) : Spares pace cap α (Run.read f) :=
  fun _ hctx => hctx.of_world rfl

theorem Spares.bind {x : Evaluation σ α} {f : α → Evaluation σ β} (h : Spares pace cap α x)
    (hf : ∀ a, Spares pace cap β (f a)) : Spares pace cap β (x >>= f) := by
  intro ctx hctx
  refine Run.Meets.bind (h ctx hctx) fun a mid ⟨hmid, hbefore⟩ => ?_
  exact (hf a mid hmid).mono fun _ after ⟨hafter, hbehind⟩ =>
    ⟨hafter, fun name => (hbefore name).trans (hbehind name)⟩

/-- The counts of the scope are those before the iteration, which the world has not gone back behind. -/
theorem Spares.inScope (index : Float) {x : Evaluation σ Float} (h : Spares pace cap Float x) :
    Spares pace cap Float (inScope index x) := by
  intro ctx hctx
  have hwithin : InPace pace cap (ctx.within index) :=
    ⟨hctx.limit, fun _ => Nat.zero_le _, hctx.below⟩
  have hx := h (ctx.within index) hwithin
  unfold Run.Meets at hx ⊢
  rw [inScope_eq_map]
  rcases hrun : x (ctx.within index) with _ | ⟨fault | value, inner⟩
  · trivial
  · rw [hrun] at hx
    exact hx
  · rw [hrun] at hx
    obtain ⟨hinner, hworld⟩ := hx
    exact ⟨⟨hctx.limit, fun name => (hctx.counts name).trans (hworld name), hinner.below⟩, hworld⟩

theorem spares_poll (paced : source.Paced host pace cap) : Spares pace cap Unit (poll host) := by
  intro ctx hctx
  unfold Run.Meets
  rcases hrun : poll host ctx with _ | ⟨fault | _, after⟩
  · trivial
  · have hinterrupted := (poll_eq_some hrun).2 fault rfl
    rintro ⟨name, limit, rfl⟩
    cases hinterrupted
  · obtain ⟨rfl, -⟩ := poll_eq_some hrun
    exact hctx.of_world (paced.poll ctx.world)

theorem spares_draw (paced : source.Paced host pace cap) : Spares pace cap Float (draw host) :=
  fun ctx hctx => hctx.of_world (paced.random ctx.world)

/-- The scope counts a name once more often than the world at the most, which is not above the limit. -/
theorem InPace.not_refused {ctx : Context σ} (h : InPace pace cap ctx) (name : String) :
    ¬ ctx.limits.substitutions < (ctx.hit name).hits.count name := by
  have hself : (ctx.hit name).hits.count name = ctx.hits.count name + if name = name then 1 else 0 :=
    ctx.hits.count_add name name
  rw [if_pos rfl] at hself
  have hcounts := h.counts name
  have hbelow := h.below name
  have hlimit := h.limit
  omega

/-- The scope and the world count a name together. -/
theorem InPace.hit {ctx : Context σ} (h : InPace pace cap ctx) {name : String} {world : σ}
    (hcap : pace world name < cap)
    (hadd : ∀ other, pace world other = pace ctx.world other + if name = other then 1 else 0) :
    InPace pace cap { ctx.hit name with world } ∧ ∀ other, pace ctx.world other ≤ pace world other := by
  refine ⟨⟨h.limit, fun other => ?_, fun other => ?_⟩, fun other => ?_⟩
  · rw [hadd]
    exact (ctx.hits.count_add name other).trans_le (Nat.add_le_add_right (h.counts other) _)
  · by_cases heq : name = other
    · exact heq ▸ hcap
    · have hsame := hadd other
      rw [if_neg heq] at hsame
      exact hsame.trans_lt (h.below other)
  · rw [hadd]
    exact Nat.le_add_right _ _

/-- A name is not refused, and what it stands for is met in pace. -/
theorem spares_resolve (paced : source.Paced host pace cap) {enter : Node → Evaluation σ Float}
    (henter : ∀ root, Spares pace cap Float (enter root)) (name : String) :
    Spares pace cap Float (resolve source enter name) := by
  intro ctx hctx
  unfold Run.Meets
  rcases hindex : ctx.boundIndex? name with _ | index
  · have hcandid := paced.candid name ctx.world
    have hcounted := paced.counted name ctx.world
    rcases hfound : source name ctx.world with ⟨found, world⟩
    simp only [hfound] at hcandid hcounted
    rw [resolve_of_found _ _ hindex (hctx.not_refused name) hfound]
    have hpace : (∃ fault, Lookup.Fails name found fault) ∨
        InPace pace cap { ctx.hit name with world } ∧ ∀ other, pace ctx.world other ≤ pace world other :=
      hcounted.imp_right fun ⟨hcap, hadd⟩ => hctx.hit hcap hadd
    cases found with
    | unbound => exact hcandid _ (.inr ⟨rfl, rfl⟩)
    | value outcome =>
      cases outcome with
      | error fault => exact hcandid fault (.inl rfl)
      | ok value =>
        rcases hpace with ⟨_, ⟨⟨⟩⟩ | ⟨⟨⟩, -⟩⟩ | hpace
        exact hpace
    | formula root =>
      rcases hpace with ⟨_, ⟨⟨⟩⟩ | ⟨⟨⟩, -⟩⟩ | ⟨hmid, hbefore⟩
      exact (henter root _ hmid).mono fun _ after ⟨hafter, hbehind⟩ =>
        ⟨hafter, fun other => (hbefore other).trans (hbehind other)⟩
  · rw [resolve_of_index _ _ hindex]
    exact hctx.of_world rfl

theorem lifts_spares (paced : source.Paced host pace cap) (enter : Node → Evaluation σ Float)
    (steps : Nat) :
    Lifts ⟨host, source, enter, steps⟩ ⟨host, source, enter, steps⟩ Eq
      fun α x _ => Spares pace cap α x where
  ofExcept hop := spares_ofExcept hop.not_recursion
  bind := Spares.bind
  limit := spares_read _
  poll := spares_poll paced
  inScope index _ _ := Spares.inScope index
  exhausted _ _ := fun _ _ => trivial
  succ h := ⟨_, h.symm, rfl⟩
  steps := rfl

theorem spares_evaluate (paced : source.Paced host pace cap) (steps : Nat) (node : Node) :
    Spares pace cap Float (evaluate host source steps node) := by
  induction steps generalizing node with
  | zero => exact fun _ _ => trivial
  | succ steps ih =>
    exact (lifts_spares paced (evaluate host source steps) steps).run (spares_draw paced)
      (spares_resolve paced ih) node

/-! ### Whole runs -/

/-- What a run looks like under a higher limit on substitutions, until the lower one is reached. -/
def View.unrefused (σ : Type) (limits : Limits) {m : Nat} (hle : limits.substitutions ≤ m) : View σ σ where
  world := id
  limits := limits
  limits' := limits.allowing m
  valid _ := True
  exits := Fault.IsRecursion
  iterations := .inl rfl
  refused := .inr ⟨hle, fun name => ⟨name, _, rfl⟩⟩

variable (paced : source.Paced host pace cap)
include paced

/-- A run in pace does not end in the fault of the limit. -/
theorem evaluateFresh_not_recursion {limits : Limits} (hcap : cap ≤ limits.substitutions) {steps : Nat}
    {node : Node} {world after : σ} (start : ∀ name, pace world name < cap) {fault : Fault}
    (h : evaluateFresh host source steps limits node world = some (.error fault, after)) :
    ¬ fault.IsRecursion := by
  rw [evaluateFresh_eq_map] at h
  obtain ⟨⟨outcome, ctx⟩, hrun, heq⟩ := Option.map_eq_some_iff.mp h
  obtain ⟨rfl, -⟩ := Prod.mk.inj heq
  have hmeets := spares_evaluate paced steps node (Context.fresh limits world)
    ⟨hcap, fun _ => Nat.zero_le _, start⟩
  unfold Run.Meets at hmeets
  rwa [hrun] at hmeets

/-- Limits that are not below the cap come to the same. -/
theorem evaluateFresh_allowing {limits : Limits} (hlimit : cap ≤ limits.substitutions) {m : Nat}
    (hm : cap ≤ m) (steps : Nat) (node : Node) {world : σ} (start : ∀ name, pace world name < cap) :
    evaluateFresh host source steps (limits.allowing m) node world =
      evaluateFresh host source steps limits node world := by
  wlog hle : limits.substitutions ≤ m generalizing limits m
  · have hle' : (limits.allowing m).substitutions ≤ limits.substitutions := Nat.le_of_not_le hle
    exact (this hm hlimit hle').symm
  · have hhosts : (View.unrefused σ limits hle).Hosts host host :=
      ⟨fun _ _ => ⟨trivial, rfl⟩, fun _ _ => ⟨trivial, rfl⟩⟩
    have hsources : (View.unrefused σ limits hle).Sources source source :=
      fun _ _ _ => .inr ⟨trivial, rfl⟩
    rcases View.evaluateFresh_cases hhosts hsources steps node (w := world) trivial with
      ⟨fault, after, hexit, hrun⟩ | hsame
    · exact absurd hexit (evaluateFresh_not_recursion paced hlimit start hrun)
    · refine hsame.trans ?_
      show Option.map id _ = _
      rw [Option.map_id]
      rfl

end Spares

end Formulae
