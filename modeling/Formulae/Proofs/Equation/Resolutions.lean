import Formulae.Proofs.Equation.Agreement
import Formulae.Proofs.Evaluation.Trail
import Formulae.Proofs.Names
import Formulae.Proofs.Quiet
import Mathlib.Algebra.BigOperators.Group.Finset.Piecewise

/-!
# Proofs.Equation.Resolutions — how often the names of an equation are resolved

The run of an equation is observed at the source that counts: each resolution that comes to it is noted with
the names whose formulas are being evaluated, and each one that is let through to the bindings is logged.

* `Accounted`: the counts, the log and the trail tell of the same resolutions.
* `Capped`: no bound name has come to the limit, or one has, just now, and the run ends in that fault.
* `keeps_evaluateObserved`: what every part of a run keeps.
* `Equation.evaluate_bounded`: every run keeps to the limit.
-/

namespace Formulae

open Evaluation

variable {σ : Type}

/-! ### What a run keeps -/

/-- The trail, the counts and the log of what was let through tell of the same resolutions. -/
structure Accounted (names : Finset String) (limit : Nat) (w : Trail × Tally × List String × σ) :
    Prop where
  counted : ∀ name ∈ names, w.2.1.count name = w.1.resolutions name
  passed : ∀ name ∈ names, w.2.2.1.count name = min (w.1.resolutions name) (limit - 1)
  unasked : ∀ name, name ∉ names → w.2.2.1.count name = 0
  active_mem : ∀ name ∈ w.1.active, name ∈ names
  active_count : ∀ name, w.1.active.count name ≤ w.2.2.1.count name
  depth : ∀ moment ∈ w.1.moments, moment.length ≤ (limit - 1) * names.card + 1

/-- Every bound name was resolved less often than the limit says. -/
def Below (names : Finset String) (limit : Nat) (trail : Trail) : Prop :=
  ∀ name ∈ names, trail.resolutions name < limit

/-- All names are below the limit, or one of them has come to it and the outcome says so. -/
def Capped {α : Type} (names : Finset String) (limit : Nat) (outcome : Except Fault α) (trail : Trail) :
    Prop :=
  Below names limit trail ∨
    ∃ spent ∈ names, outcome = .error (.overused spent limit) ∧
      ∀ name ∈ names, trail.resolutions name ≤ limit - 1 + if spent = name then 1 else 0

section Keeps

variable {names : Finset String} {limit : Nat}

theorem Capped.below {α : Type} {a : α} {trail : Trail}
    (h : Capped names limit (.ok a : Except Fault α) trail) : Below names limit trail := by
  rcases h with h | ⟨spent, -, hfault, -⟩
  · exact h
  · cases hfault

theorem Capped.error {α β : Type} {fault : Fault} {trail : Trail}
    (h : Capped names limit (.error fault : Except Fault α) trail) :
    Capped names limit (.error fault : Except Fault β) trail := by
  refine h.imp_right ?_
  rintro ⟨spent, hmem, hfault, hcount⟩
  cases hfault
  exact ⟨spent, hmem, rfl, hcount⟩

/-- Active names are let through once for each time they are active, so there are not many of them. -/
theorem Accounted.length_active_le {w : Trail × Tally × List String × σ} (h : Accounted names limit w) :
    w.1.active.length ≤ (limit - 1) * names.card := by
  refine length_le_of_count_le h.active_mem fun name => (h.active_count name).trans ?_
  by_cases hname : name ∈ names
  · rw [h.passed name hname]
    exact Nat.min_le_right _ _
  · rw [h.unasked name hname]
    exact Nat.zero_le _

theorem Accounted.tick {w : Trail × Tally × List String × σ} (h : Accounted names limit w) (world : σ) :
    Accounted names limit (w.1.tick, w.2.1, w.2.2.1, world) :=
  ⟨h.counted, h.passed, h.unasked, h.active_mem, h.active_count, h.depth⟩

theorem Accounted.close {w : Trail × Tally × List String × σ} (h : Accounted names limit w) :
    Accounted names limit (w.1.close, w.2) where
  counted := h.counted
  passed := h.passed
  unasked := h.unasked
  active_mem name hname := h.active_mem name (List.mem_of_mem_tail hname)
  active_count name := ((List.tail_sublist _).count_le name).trans (h.active_count name)
  depth := h.depth

/-- The evaluation keeps the accounts and the cap. -/
def Keeps (names : Finset String) (limit : Nat) (α : Type)
    (x : Evaluation (Trail × Tally × List String × σ) α) : Prop :=
  ∀ ctx outcome after, Accounted names limit ctx.world → Below names limit ctx.world.1 →
    x ctx = some (outcome, after) →
    Accounted names limit after.world ∧ Capped names limit outcome after.world.1

variable {α β : Type} {x : Evaluation (Trail × Tally × List String × σ) α}

/-- The rule for evaluations that leave the accounts as they are. -/
theorem Keeps.of_still (h : ∀ ctx outcome after, x ctx = some (outcome, after) →
    Accounted names limit ctx.world →
    Accounted names limit after.world ∧ after.world.1.moments = ctx.world.1.moments) :
    Keeps names limit α x := by
  intro ctx outcome after haccounts hbelow hrun
  obtain ⟨hafter, hmoments⟩ := h ctx outcome after hrun haccounts
  refine ⟨hafter, .inl fun name hname => ?_⟩
  rw [Trail.resolutions, hmoments]
  exact hbelow name hname

theorem Keeps.bind {f : α → Evaluation (Trail × Tally × List String × σ) β} (h : Keeps names limit α x)
    (hf : ∀ a, Keeps names limit β (f a)) : Keeps names limit β (x >>= f) := by
  intro ctx outcome after haccounts hbelow hrun
  rcases hx : x ctx with _ | ⟨fault | a, mid⟩
  · rw [Run.bind_of_none hx] at hrun
    cases hrun
  · rw [Run.bind_of_error hx] at hrun
    cases hrun
    exact (h ctx _ _ haccounts hbelow hx).imp_right Capped.error
  · rw [Run.bind_of_ok hx] at hrun
    obtain ⟨hmid, hcapped⟩ := h ctx _ _ haccounts hbelow hx
    exact hf a mid outcome after hmid hcapped.below hrun

theorem Keeps.inScope (index : Float) {x : Evaluation (Trail × Tally × List String × σ) Float}
    (h : Keeps names limit Float x) : Keeps names limit Float (inScope index x) := by
  intro ctx outcome after haccounts hbelow hrun
  obtain ⟨inner, hinner, rfl⟩ := inScope_eq_some hrun
  exact h (ctx.within index) outcome inner haccounts hbelow hinner

theorem Keeps.closing {x : Evaluation (Trail × Tally × List String × σ) Float}
    (h : Keeps names limit Float x) : Keeps names limit Float (closing x) := by
  intro ctx outcome after haccounts hbelow hrun
  obtain ⟨inner, hinner, rfl⟩ := closing_eq_some hrun
  obtain ⟨hafter, hcapped⟩ := h ctx outcome inner haccounts hbelow hinner
  exact ⟨hafter.close, hcapped⟩

/-! ### The source that counts -/

section Meet

variable {trail : Trail} {tally : Tally} {asked : List String} {world world' : σ} {name : String}
  (h : Accounted names limit (trail, tally, asked, world))
include h

theorem Accounted.depth_meet (found : Lookup) :
    ∀ moment ∈ (trail.meet name found).moments, moment.length ≤ (limit - 1) * names.card + 1 :=
  List.forall_mem_cons.mpr ⟨Nat.succ_le_succ h.length_active_le, h.depth⟩

theorem Accounted.counted_meet (found : Lookup) : ∀ other ∈ names,
    (tally.add name).count other = (trail.meet name found).resolutions other := by
  intro other hother
  rw [Tally.count_add, Trail.resolutions_meet, h.counted other hother]

/-- A name that is not bound is neither counted nor asked for. -/
theorem Accounted.unbound (hname : name ∉ names) :
    Accounted names limit (trail.meet name .unbound, tally, asked, world') := by
  have hresolutions : ∀ other ∈ names,
      (trail.meet name .unbound).resolutions other = trail.resolutions other := by
    intro other hother
    have hne : ¬ name = other := fun heq => hname (heq ▸ hother)
    rw [Trail.resolutions_meet, if_neg hne, Nat.add_zero]
  refine ⟨fun other hother => ?_, fun other hother => ?_, h.unasked, h.active_mem, h.active_count,
    h.depth_meet .unbound⟩
  · rw [hresolutions other hother]
    exact h.counted other hother
  · rw [hresolutions other hother]
    exact h.passed other hother

/-- A name at the limit is counted but not asked for. -/
theorem Accounted.refused (hlast : trail.resolutions name + 1 = limit)
    (outcome : Except Fault Float) :
    Accounted names limit (trail.meet name (.value outcome), tally.add name, asked, world') := by
  refine ⟨h.counted_meet _, fun other hother => ?_, h.unasked, h.active_mem, h.active_count,
    h.depth_meet _⟩
  rw [Trail.resolutions_meet]
  have hpassed : asked.count other = min (trail.resolutions other) (limit - 1) := h.passed other hother
  by_cases heq : name = other
  · subst heq
    rw [if_pos rfl]
    show asked.count name = _
    omega
  · rw [if_neg heq]
    exact hpassed

/-- A name below the limit is counted and asked for; what it stands for may become active. -/
theorem Accounted.let_through (hname : name ∈ names) (hlt : trail.resolutions name + 1 < limit)
    (found : Lookup) :
    Accounted names limit (trail.meet name found, tally.add name, name :: asked, world') := by
  have hcount : ∀ other, (name :: asked).count other = asked.count other + if name = other then 1 else 0 := by
    intro other
    rw [List.count_cons]
    simp
  have hle : ∀ other, asked.count other ≤ (name :: asked).count other := by
    intro other
    rw [hcount]
    exact Nat.le_add_right _ _
  refine ⟨h.counted_meet found, fun other hother => ?_, fun other hother => ?_, ?_, fun other => ?_,
    h.depth_meet found⟩
  · rw [Trail.resolutions_meet]
    have hpassed : asked.count other = min (trail.resolutions other) (limit - 1) :=
      h.passed other hother
    show (name :: asked).count other = _
    rw [hcount]
    by_cases heq : name = other
    · subst heq
      rw [if_pos rfl]
      omega
    · rw [if_neg heq]
      exact hpassed
  · have hne : ¬ name = other := fun heq => hother (heq ▸ hname)
    show (name :: asked).count other = 0
    rw [hcount, if_neg hne]
    exact h.unasked other hother
  · cases found with
    | formula root => exact List.forall_mem_cons.mpr ⟨hname, h.active_mem⟩
    | unbound | value => exact h.active_mem
  · cases found with
    | formula root =>
      show (name :: trail.active).count other ≤ (name :: asked).count other
      rw [List.count_cons, List.count_cons]
      exact Nat.add_le_add_right (h.active_count other) _
    | unbound | value => exact (h.active_count other).trans (hle other)

end Meet

/-- A resolution that comes to the source keeps the accounts; at the limit it finds the fault. -/
theorem accounted_observed {isBound : String → Bool} (bound : ∀ name, isBound name = true ↔ name ∈ names)
    (source : Source σ) {w w' : Trail × Tally × List String × σ} {name : String} {found : Lookup}
    (haccounts : Accounted names limit w) (hbelow : Below names limit w.1)
    (hfound : (Equation.counted limit isBound source.logged).observed name w = (found, w')) :
    Accounted names limit w' ∧
      (Below names limit w'.1 ∨ ∃ fault, found = .value (.error fault) ∧
        Capped names limit (.error fault : Except Fault Float) w'.1) := by
  obtain ⟨trail, tally, asked, world⟩ := w
  unfold Source.observed Equation.counted at hfound
  -- the count of a bound name is the number of its resolutions, so the limit is met by the last one allowed
  by_cases hname : name ∈ names
  · have hself : tally.count name = trail.resolutions name := haccounts.counted name hname
    have hlt : trail.resolutions name < limit := hbelow name hname
    have hadd : (tally.add name).count name = trail.resolutions name + 1 := by
      rw [Tally.count_add, if_pos rfl, hself]
    simp only [(bound name).mpr hname, if_true, hadd] at hfound
    by_cases hlimit : limit ≤ trail.resolutions name + 1
    · simp only [hlimit, if_true] at hfound
      obtain ⟨rfl, rfl⟩ := Prod.mk.inj hfound
      refine ⟨haccounts.refused (by omega) _, .inr ⟨_, rfl, .inr ⟨name, hname, rfl, ?_⟩⟩⟩
      intro other hother
      have hother' : trail.resolutions other < limit := hbelow other hother
      rw [Trail.resolutions_meet]
      omega
    · simp only [hlimit, if_false] at hfound
      obtain ⟨rfl, rfl⟩ := Prod.mk.inj hfound
      refine ⟨haccounts.let_through hname (by omega) _, .inl ?_⟩
      intro other hother
      have hother' : trail.resolutions other < limit := hbelow other hother
      rw [Trail.resolutions_meet]
      by_cases heq : name = other
      · subst heq
        rw [if_pos rfl]
        omega
      · rwa [if_neg heq]
  · have hfree : isBound name = false := by
      rw [Bool.eq_false_iff]
      exact fun h => hname ((bound name).mp h)
    simp only [hfree, Bool.false_eq_true, if_false] at hfound
    obtain ⟨rfl, rfl⟩ := Prod.mk.inj hfound
    refine ⟨haccounts.unbound hname, .inl ?_⟩
    intro other hother
    have hne : ¬ name = other := fun heq => hname (heq ▸ hother)
    rw [Trail.resolutions_meet, if_neg hne]
    exact hbelow other hother

/-! ### Whole runs -/

variable {isBound : String → Bool} (bound : ∀ name, isBound name = true ↔ name ∈ names)
  (source : Source σ)

include bound in
theorem keeps_resolve {enter : Node → Evaluation (Trail × Tally × List String × σ) Float}
    (henter : ∀ root, Keeps names limit Float (enter root)) (name : String) :
    Keeps names limit Float
      (resolve (Equation.counted limit isBound source.logged).observed enter name) := by
  intro ctx outcome after haccounts hbelow hrun
  rcases hindex : ctx.boundIndex? name with _ | index
  · by_cases hlimit : ctx.limits.substitutions < (ctx.hit name).hits.count name
    · rw [resolve_of_refused _ _ hindex hlimit] at hrun
      cases hrun
      exact ⟨haccounts, .inl hbelow⟩
    · rcases hfound : (Equation.counted limit isBound source.logged).observed name ctx.world with
        ⟨found, w⟩
      rw [resolve_of_found _ _ hindex hlimit hfound] at hrun
      obtain ⟨hw, hcase⟩ := accounted_observed bound source haccounts hbelow hfound
      rcases hcase with hw' | ⟨fault, rfl, hcapped⟩
      · cases found with
        | unbound | value =>
          cases hrun
          exact ⟨hw, .inl hw'⟩
        | formula root => exact henter root { ctx.hit name with world := w } outcome after hw hw' hrun
      · cases hrun
        exact ⟨hw, hcapped⟩
  · rw [resolve_of_index _ _ hindex] at hrun
    cases hrun
    exact ⟨haccounts, .inl hbelow⟩

theorem keeps_poll (host : Host σ) :
    Keeps names limit Unit (poll ((host.onSecond (List String)).onSecond Tally).observed) := by
  refine Keeps.of_still fun ctx outcome after hrun haccounts => ?_
  obtain ⟨rfl, -⟩ := poll_eq_some hrun
  rcases observed_poll_cases ((host.onSecond (List String)).onSecond Tally) ctx.world with hworld | hworld
  · rw [hworld]
    exact ⟨haccounts, rfl⟩
  · rw [hworld]
    exact ⟨haccounts.tick _, rfl⟩

theorem keeps_lifts (host : Host σ) (source : Source (Tally × List String × σ)) (steps : Nat) :
    Lifts (Evaluator.observed ((host.onSecond (List String)).onSecond Tally) source steps)
      (Evaluator.observed ((host.onSecond (List String)).onSecond Tally) source steps) Eq
      fun α x _ => Keeps names limit α x where
  ofExcept _ := Keeps.of_still fun ctx _ _ hrun haccounts => by
    cases hrun
    exact ⟨haccounts, rfl⟩
  bind := Keeps.bind
  limit := Keeps.of_still fun ctx _ _ hrun haccounts => by
    cases hrun
    exact ⟨haccounts, rfl⟩
  poll := keeps_poll host
  inScope index _ _ h := h.inScope index
  exhausted _ _ := fun _ _ _ _ _ hrun => nomatch hrun
  succ h := ⟨_, h.symm, rfl⟩
  steps := rfl

include bound in
/-- Every part of an observed run keeps the accounts and the cap. -/
theorem keeps_evaluateObserved (host : Host σ) (steps : Nat) (node : Node) :
    Keeps names limit Float
      (evaluateObserved ((host.onSecond (List String)).onSecond Tally)
        (Equation.counted limit isBound source.logged) steps node) := by
  induction steps generalizing node with
  | zero => exact fun _ _ _ _ _ hrun => nomatch hrun
  | succ steps ih =>
    rw [evaluateObserved_succ]
    refine (keeps_lifts host _ steps).run ?_ ?_ node
    · refine Keeps.of_still fun ctx outcome after hrun haccounts => ?_
      cases hrun
      exact ⟨⟨haccounts.counted, haccounts.passed, haccounts.unasked, haccounts.active_mem,
        haccounts.active_count, haccounts.depth⟩, rfl⟩
    · exact keeps_resolve bound source fun root => (ih root).closing

end Keeps

/-! ### The run of an equation -/

namespace Equation

/-- The run of an equation, observed where it counts, with the names that were let through to the bindings,
the latest one first. It is cut off after `left` polls, if that is a number. -/
def observe (e : Equation σ) (host : Host σ) (steps : Nat) (left : Option Nat) (world : σ) :
    Option (Except Fault Float × Trail × Tally × List String × σ) :=
  Formulae.observe ((host.onSecond (List String)).onSecond Tally)
    (counted resolutionLimit (fun name => (e.bindings.get? name).isSome) e.bindings.source.logged)
    steps e.expression.limits e.expression.root left (Tally.empty, [], world)

/-- What a run of an equation comes to and leaves. A resolution refused by the limit on substitutions does
not come to the equation: it ends the run by itself. -/
structure Bounded (names : Finset String) (limit : Nat) (outcome : Except Fault Float) (trail : Trail)
    (asked : List String) : Prop where
  /-- Fewer resolutions of a name than the limit says are let through to its binding. -/
  asked_lt : ∀ name, asked.count name < limit
  /-- These are all resolutions of a bound name but the one that comes to the limit. -/
  asked_eq : ∀ name ∈ names, asked.count name = min (trail.resolutions name) (limit - 1)
  /-- A name that comes to the limit makes the result of the run, and goes no further. -/
  last : ∀ name ∈ names, trail.resolutions name < limit ∨
    trail.resolutions name = limit ∧ outcome = .error (.overused name limit)
  /-- The bound names together are resolved only so often. -/
  total : ∑ name ∈ names, trail.resolutions name ≤ (limit - 1) * names.card + 1
  /-- Resolutions are nested only so deep. -/
  depth : ∀ moment ∈ trail.moments, moment.length ≤ (limit - 1) * names.card + 1

variable {names : Finset String} {limit : Nat}

/-- At the start of a run nothing has been resolved. -/
theorem accounted_start (names : Finset String) (limit : Nat) (left : Option Nat) (world : σ) :
    Accounted names limit (Trail.start left, Tally.empty, [], world) where
  counted _ _ := rfl
  passed _ _ := (Nat.zero_min _).symm
  unasked _ _ := rfl
  active_mem := List.forall_mem_nil _
  active_count _ := Nat.le_refl _
  depth := List.forall_mem_nil _

theorem sum_resolutions_le {outcome : Except Fault Float} {trail : Trail}
    (h : Capped names limit outcome trail) :
    ∑ name ∈ names, trail.resolutions name ≤ (limit - 1) * names.card + 1 := by
  rcases h with hbelow | ⟨spent, hmem, -, hcount⟩
  · calc ∑ name ∈ names, trail.resolutions name
        ≤ ∑ _name ∈ names, (limit - 1) :=
          Finset.sum_le_sum fun name hname => Nat.le_sub_one_of_lt (hbelow name hname)
      _ = (limit - 1) * names.card := by rw [Finset.sum_const, Nat.nsmul_eq_mul, Nat.mul_comm]
      _ ≤ (limit - 1) * names.card + 1 := Nat.le_succ _
  · calc ∑ name ∈ names, trail.resolutions name
        ≤ ∑ name ∈ names, ((limit - 1) + if spent = name then 1 else 0) :=
          Finset.sum_le_sum fun name hname => hcount name hname
      _ = (limit - 1) * names.card + 1 := by
          rw [Finset.sum_add_distrib, Finset.sum_const, Nat.nsmul_eq_mul, Nat.mul_comm,
            Finset.sum_ite_eq, if_pos hmem]

theorem bounded_of_capped {outcome : Except Fault Float} {w : Trail × Tally × List String × σ}
    (hpos : 0 < limit) (haccounts : Accounted names limit w) (hcapped : Capped names limit outcome w.1) :
    Bounded names limit outcome w.1 w.2.2.1 where
  asked_lt name := by
    by_cases hname : name ∈ names
    · rw [haccounts.passed name hname]
      omega
    · rw [haccounts.unasked name hname]
      exact hpos
  asked_eq := haccounts.passed
  last name hname := by
    rcases hcapped with hbelow | ⟨spent, -, rfl, hcount⟩
    · exact .inl (hbelow name hname)
    · have hle := hcount name hname
      by_cases heq : spent = name
      · subst heq
        rw [if_pos rfl] at hle
        rcases Nat.lt_or_ge (w.1.resolutions spent) limit with hlt | hge
        · exact .inl hlt
        · exact .inr ⟨by omega, rfl⟩
      · rw [if_neg heq] at hle
        exact .inl (by omega)
  total := sum_resolutions_le hcapped
  depth := haccounts.depth

/-- The log lies beside the counts and changes nothing. -/
theorem counted_logged (limit : Nat) (isBound : String → Bool) (source : Source σ) (limits : Limits) :
    (View.along (fun w : Tally × List String × σ => (w.1, w.2.2)) limits).Sources
      (counted limit isBound source.logged) (counted limit isBound source) := by
  rintro name ⟨tally, asked, world⟩ -
  refine .inr ⟨trivial, ?_⟩
  show counted limit isBound source name (tally, world) = _
  unfold counted
  cases isBound name with
  | false => rfl
  | true =>
    by_cases hlimit : limit ≤ (tally.add name).count name
    · simp only [hlimit, if_true]
      rfl
    · simp only [hlimit, if_false, if_true]
      rfl

/-- Observed or not, the run comes to the same. -/
theorem observe_none_map (e : Equation σ) (host : Host σ) (steps : Nat) (world : σ) :
    (e.observe host steps none world).map (fun r => (r.1, r.2.2.2.2)) = e.evaluate host steps world := by
  have hhosts : (View.along (fun w : Tally × List String × σ => (w.1, w.2.2)) e.expression.limits).Hosts
      ((host.onSecond (List String)).onSecond Tally) (host.onSecond Tally) :=
    ⟨fun _ _ => ⟨trivial, rfl⟩, fun _ _ => ⟨trivial, rfl⟩⟩
  have hlogged : evaluateFresh (host.onSecond Tally) e.source steps e.expression.limits
      e.expression.root (Tally.empty, world) = _ :=
    View.evaluateFresh_along _ hhosts
      (counted_logged resolutionLimit (fun name => (e.bindings.get? name).isSome) e.bindings.source _)
      steps e.expression.root (Tally.empty, [], world)
  have hwhole := observe_whole ((host.onSecond (List String)).onSecond Tally)
    (counted resolutionLimit (fun name => (e.bindings.get? name).isSome) e.bindings.source.logged) steps
    e.expression.limits e.expression.root (Tally.empty, [], world)
  calc (e.observe host steps none world).map (fun r => (r.1, r.2.2.2.2))
      = ((e.observe host steps none world).map fun r => (r.1, r.2.2)).map
          fun r => (r.1, r.2.2.2) := by rw [Option.map_map]; rfl
    _ = (evaluateFresh ((host.onSecond (List String)).onSecond Tally) _ steps e.expression.limits
          e.expression.root (Tally.empty, [], world)).map fun r => (r.1, r.2.2.2) :=
        congrArg _ hwhole
    _ = (evaluateFresh (host.onSecond Tally) e.source steps e.expression.limits e.expression.root
          (Tally.empty, world)).map fun r => (r.1, r.2.2) := by
        rw [hlogged, Option.map_map]
        rfl
    _ = e.evaluate host steps world := (e.evaluate_eq_map host steps world).symm

/-- Every run of an equation keeps to the limit, whether it ends by itself or is cut off after any number of
polls, for any bindings, cyclic or not. -/
theorem evaluate_bounded (e : Equation σ) (host : Host σ) (world : σ) :
    (∀ steps, e.evaluate host steps world =
      (e.observe host steps none world).map fun r => (r.1, r.2.2.2.2)) ∧
    (∀ polls, (e.observe host (polls + 2) (some polls) world).isSome = true) ∧
    ∀ steps left, ∀ r ∈ e.observe host steps left world,
      Bounded e.bindings.keys resolutionLimit r.1 r.2.1 r.2.2.2.1 := by
  refine ⟨fun steps => (e.observe_none_map host steps world).symm, fun polls => ?_, fun steps left r hr => ?_⟩
  · obtain ⟨result, hresult⟩ := exists_observe_of_cut ((host.onSecond (List String)).onSecond Tally)
      (counted resolutionLimit (fun name => (e.bindings.get? name).isSome) e.bindings.source.logged)
      e.expression.limits e.expression.root polls (Tally.empty, [], world)
    unfold observe
    rw [hresult]
    rfl
  · unfold observe at hr
    rw [observe_eq_map] at hr
    obtain ⟨⟨outcome, after⟩, hrun, rfl⟩ := Option.map_eq_some_iff.mp hr
    have hpos : 0 < resolutionLimit := by decide
    obtain ⟨haccounts, hcapped⟩ := keeps_evaluateObserved e.bindings.isSome_get? e.bindings.source host
      steps e.expression.root _ outcome after (accounted_start _ _ left world) (fun _ _ => hpos) hrun
    exact bounded_of_capped hpos haccounts hcapped

/-- The name that stands for itself. -/
def cycle : Equation Unit :=
  let self : Expression := ⟨"x", .finite (.reference "x" false), ⟨1000, 0⟩⟩
  ⟨self, Bindings.empty.set "x" (.formula self)⟩

/-- A cycle comes to the limit, and ends in its fault. -/
theorem evaluate_bounded_cycle :
    ∃ r ∈ cycle.observe Host.idle 502 none (), r.2.1.resolutions "x" = resolutionLimit ∧
      r.1 = .error (.overused "x" resolutionLimit) ∧
      Bounded cycle.bindings.keys resolutionLimit r.1 r.2.1 r.2.2.2.1 := by
  have hcount : (cycle.observe Host.idle 502 none ()).map (fun r => r.2.1.resolutions "x") =
      some resolutionLimit := by
    decide +kernel
  obtain ⟨r, hr, hresolutions⟩ := Option.map_eq_some_iff.mp hcount
  have hbounded := (cycle.evaluate_bounded Host.idle ()).2.2 502 none r hr
  have hbound : "x" ∈ cycle.bindings.keys := by decide +kernel
  rcases hbounded.last "x" hbound with hlt | ⟨-, houtcome⟩
  · exact absurd hresolutions (Nat.ne_of_lt hlt)
  · exact ⟨r, hr, hresolutions, houtcome, hbounded⟩

end Equation

end Formulae
