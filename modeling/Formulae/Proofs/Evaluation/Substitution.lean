import Formulae.Proofs.Evaluation.Trail
import Formulae.Proofs.Names
import Formulae.Proofs.Quiet
import Formulae.Proofs.Reading.Exactness
import Mathlib.Logic.Relation

/-!
# Proofs.Evaluation.Substitution — how deep formulas for names are nested

Each iteration of a summation counts the resolutions of names anew. Where no name comes back to itself
through the body of a summation, the names whose formulas are being evaluated were all counted by the scopes
that can still come to them, so none of them is nested more often than the limit on substitutions says.

* `Node.Mentions`, `Bindings.Refers`, `Bindings.Straight`: which names lead to which.
* `Standing`: a tree that is evaluated while some names are active.
* `Nests`: what every part of a run keeps.
* `Expression.evaluateUnder_nested`: how deep the runs of a formula nest its names.
* `Expression.nests_through_body`: a cycle through the body of a summation nests deeper.
-/

namespace Formulae

open Evaluation Relation

variable {σ : Type}

/-! ### Names that lead to names -/

/-- The name stands in the tree, in the body of a summation if `inBody`, and is not its index. -/
def Node.Mentions (node : Node) (inBody : Bool) (name : String) : Prop :=
  (∃ inSummation, (.reference name inSummation, inBody) ∈ node.leaves false) ∧
    ¬ (inBody = true ∧ name = summationIndex)

namespace Bindings

/-- The formula for one name mentions the other one. -/
def Refers (v : Bindings σ) (name other : String) : Prop :=
  ∃ e inBody, v.get? name = some (.formula e) ∧ e.root.Mentions inBody other

/-- No name comes back to itself through the body of a summation. -/
def Straight (v : Bindings σ) : Prop :=
  ∀ name e other, v.get? name = some (.formula e) → e.root.Mentions true other →
    ¬ ReflTransGen v.Refers other name

theorem source_eq_formula {v : Bindings σ} {name : String} {root : Node} {world after : σ}
    (h : v.source name world = (.formula root, after)) :
    ∃ e, v.get? name = some (.formula e) ∧ e.root = root ∧ after = world := by
  unfold Bindings.source at h
  split at h
  · cases h
  · rename_i b hb
    cases b with
    | value x => cases h
    | supplier ask => cases h
    | formula e =>
      obtain ⟨hroot, rfl⟩ := Prod.mk.inj h
      cases hroot
      exact ⟨e, hb, rfl, rfl⟩

end Bindings

/-- The tree may be evaluated while these names are active: all of them lead to what it mentions, and none of
them comes after what it mentions in the body of a summation. -/
structure Standing (v : Bindings σ) (limit : Nat) (node : Node) (active : List String) : Prop where
  chain : ∀ inBody name, node.Mentions inBody name → ∀ other ∈ active, ReflTransGen v.Refers other name
  apart : ∀ name, node.Mentions true name → ∀ other, ReflTransGen v.Refers name other → other ∉ active
  bound : ∀ name ∈ active, name ∈ v.keys
  count : ∀ name, active.count name ≤ limit

/-- The names that the tree comes to without the body of a summation of its own. -/
def Node.Leads (v : Bindings σ) (node : Node) (other : String) : Prop :=
  ∃ name, node.Mentions false name ∧ ReflTransGen v.Refers name other

section Standing

variable {v : Bindings σ} {limit : Nat} {node : Node} {active : List String}

theorem standing_nil (v : Bindings σ) (limit : Nat) (node : Node) : Standing v limit node [] where
  chain _ _ _ := List.forall_mem_nil _
  apart _ _ _ _ := List.not_mem_nil
  bound := List.forall_mem_nil _
  count _ := Nat.zero_le _

/-- The formula for a name may be evaluated where the name was resolved. -/
theorem Standing.enter (h : Standing v limit node active) (straight : v.Straight) {inBody : Bool}
    {name : String} (hname : node.Mentions inBody name) {e : Expression}
    (he : v.get? name = some (.formula e)) (hcount : ∀ other, (name :: active).count other ≤ limit) :
    Standing v limit e.root (name :: active) where
  chain inBody' other hother := by
    have hstep : v.Refers name other := ⟨e, inBody', he, hother⟩
    refine List.forall_mem_cons.mpr ⟨.single hstep, fun before hbefore => ?_⟩
    exact (h.chain inBody name hname before hbefore).tail hstep
  apart other hother later hlater := by
    -- an active name leads to this one, so coming back to it would be a cycle through the body
    have hback : ¬ ReflTransGen v.Refers other name := straight name e other he hother
    intro hmem
    rcases List.mem_cons.mp hmem with rfl | hmem
    · exact hback hlater
    · exact hback (hlater.trans (h.chain inBody name hname later hmem))
  bound := by
    refine List.forall_mem_cons.mpr ⟨(v.isSome_get? name).mp ?_, h.bound⟩
    rw [he]
    rfl
  count := hcount

end Standing

/-! ### What a run keeps -/

/-- The trail notes only names that are nested as the limit allows, below these active ones. -/
structure Nested (v : Bindings σ) (limit : Nat) (active : List String) (trail : Trail) : Prop where
  active : trail.active = active
  count : ∀ moment ∈ trail.moments, ∀ name, moment.count name ≤ limit
  bound : ∀ moment ∈ trail.moments, ∀ name ∈ moment.tail, name ∈ v.keys

/-- The evaluation keeps the nesting, restores the index and does not count backwards. It starts with an
index if it stands in a body; else the active names that it leads to have been counted. -/
def Nests (v : Bindings σ) (limits : Limits) (active : List String) (leads : String → Prop)
    (inBody : Bool) (α : Type) (x : Evaluation (Trail × σ) α) : Prop :=
  ∀ ctx outcome after, ctx.limits = limits → Nested v limits.substitutions active ctx.world.1 →
    (inBody = true → ctx.index.isSome = true) →
    (inBody = false → ∀ name, leads name → active.count name ≤ ctx.hits.count name) →
    x ctx = some (outcome, after) →
    after.limits = limits ∧ Nested v limits.substitutions active after.world.1 ∧
      after.index = ctx.index ∧ ∀ name, ctx.hits.count name ≤ after.hits.count name

section Nests

variable {v : Bindings σ} {limits : Limits} {active : List String} {leads : String → Prop}
  {inBody : Bool} {α β : Type}

/-- The rule for evaluations that resolve no names. -/
theorem Nests.of_nameless {x : Evaluation (Trail × σ) α} (h : ∀ ctx outcome after,
    x ctx = some (outcome, after) → after.limits = ctx.limits ∧ after.index = ctx.index ∧
      after.hits = ctx.hits ∧ after.world.1.active = ctx.world.1.active ∧
      after.world.1.moments = ctx.world.1.moments) : Nests v limits active leads inBody α x := by
  intro ctx outcome after hlimits hnested _ _ hrun
  obtain ⟨hlimits', hindex, hhits, hactive, hmoments⟩ := h ctx outcome after hrun
  refine ⟨hlimits'.trans hlimits, ⟨hactive.trans hnested.active, ?_, ?_⟩, hindex, fun name => ?_⟩
  · rw [hmoments]
    exact hnested.count
  · rw [hmoments]
    exact hnested.bound
  · rw [hhits]

theorem Nests.bind {x : Evaluation (Trail × σ) α} {f : α → Evaluation (Trail × σ) β}
    (h : Nests v limits active leads inBody α x) (hf : ∀ a, Nests v limits active leads inBody β (f a)) :
    Nests v limits active leads inBody β (x >>= f) := by
  intro ctx outcome after hlimits hnested hin hout hrun
  rcases hx : x ctx with _ | ⟨fault | a, mid⟩
  · rw [Run.bind_of_none hx] at hrun
    cases hrun
  · rw [Run.bind_of_error hx] at hrun
    cases hrun
    exact h ctx _ _ hlimits hnested hin hout hx
  · rw [Run.bind_of_ok hx] at hrun
    obtain ⟨hlimits', hnested', hindex, hhits⟩ := h ctx _ _ hlimits hnested hin hout hx
    have hout' : inBody = false → ∀ name, leads name → active.count name ≤ mid.hits.count name :=
      fun hm name hname => (hout hm name hname).trans (hhits name)
    obtain ⟨hlimits'', hnested'', hindex', hhits'⟩ :=
      hf a mid outcome after hlimits' hnested' (hindex ▸ hin) hout' hrun
    exact ⟨hlimits'', hnested'', hindex'.trans hindex, fun name => (hhits name).trans (hhits' name)⟩

/-- The scope of an iteration counts anew and leaves no counts. -/
theorem Nests.inScope (index : Float) {x : Evaluation (Trail × σ) Float}
    (h : Nests v limits active leads true Float x) :
    Nests v limits active leads inBody Float (inScope index x) := by
  intro ctx outcome after hlimits hnested _ _ hrun
  obtain ⟨inner, hinner, rfl⟩ := inScope_eq_some hrun
  obtain ⟨-, hnested', -, -⟩ :=
    h (ctx.within index) outcome inner hlimits hnested (fun _ => rfl) nofun hinner
  exact ⟨hlimits, hnested', rfl, fun name => Nat.le_refl _⟩

theorem nests_poll (host : Host σ) : Nests v limits active leads inBody Unit (poll host.observed) := by
  refine Nests.of_nameless fun ctx outcome after hrun => ?_
  obtain ⟨rfl, -⟩ := poll_eq_some hrun
  rcases observed_poll_cases host ctx.world with hworld | hworld
  · rw [hworld]
    exact ⟨rfl, rfl, rfl, rfl, rfl⟩
  · rw [hworld]
    exact ⟨rfl, rfl, rfl, rfl, rfl⟩

theorem nests_loops (v : Bindings σ) (limits : Limits) (active : List String) (leads : String → Prop)
    (host : Host σ) (source : Source σ) (steps : Nat) (inBody : Bool) :
    Loops (Evaluator.observed host source steps) (Evaluator.observed host source steps) Eq
      fun α x _ => Nests v limits active leads inBody α x where
  ofExcept _ := Nests.of_nameless fun ctx _ _ hrun => by
    cases hrun
    exact ⟨rfl, rfl, rfl, rfl, rfl⟩
  bind := Nests.bind
  limit := Nests.of_nameless fun ctx _ _ hrun => by
    cases hrun
    exact ⟨rfl, rfl, rfl, rfl, rfl⟩
  poll := nests_poll host
  exhausted _ _ := fun _ _ _ _ _ _ _ hrun => nomatch hrun
  succ h := ⟨_, h.symm, rfl⟩
  steps := rfl

theorem nests_draw (host : Host σ) : Nests v limits active leads inBody Float (draw host.observed) := by
  refine Nests.of_nameless fun ctx outcome after hrun => ?_
  cases hrun
  exact ⟨rfl, rfl, rfl, rfl, rfl⟩

/-! ### Names -/

variable {node : Node} {limit : Nat}

/-- A name that was counted and let through is nested as the limit allows. -/
theorem count_cons_le_of_found (standing : Standing v limits.substitutions node active)
    {name : String} (hname : node.Mentions inBody name) {ctx : Context (Trail × σ)}
    (hlimits : ctx.limits = limits)
    (hout : inBody = false → ∀ other, node.Leads v other → active.count other ≤ ctx.hits.count other)
    (hfound : ¬ ctx.limits.substitutions < (ctx.hit name).hits.count name) (other : String) :
    (name :: active).count other ≤ limits.substitutions := by
  -- outside of bodies this scope has counted the active ones, in a body the name is not active at all
  have hself : active.count name ≤ ctx.hits.count name := by
    cases inBody with
    | false => exact hout rfl name ⟨name, hname, .refl⟩
    | true =>
      rw [List.count_eq_zero_of_not_mem (standing.apart name hname name .refl)]
      exact Nat.zero_le _
  have hhit : (ctx.hit name).hits.count name = ctx.hits.count name + 1 := by
    show (ctx.hits.add name).count name = _
    rw [Tally.count_add, if_pos rfl]
  rw [hhit, hlimits] at hfound
  by_cases heq : name = other
  · subst heq
    rw [List.count_cons_self]
    omega
  · rw [List.count_cons_of_ne heq]
    exact standing.count other

/-- The names that the formula for a name leads to have been counted when it is entered. -/
theorem count_cons_le_of_leads (standing : Standing v limit node active) {name : String}
    (hname : node.Mentions inBody name) {e : Expression} (he : v.get? name = some (.formula e))
    {hits : Tally}
    (hout : inBody = false → ∀ other, node.Leads v other → active.count other ≤ hits.count other)
    {other : String} (hother : e.root.Leads v other) :
    (name :: active).count other ≤ (hits.add name).count other := by
  obtain ⟨next, hnext, hreach⟩ := hother
  have hreach' : ReflTransGen v.Refers name other := .head ⟨e, false, he, hnext⟩ hreach
  have hbelow : active.count other ≤ hits.count other := by
    cases inBody with
    | false => exact hout rfl other ⟨name, hname, hreach'⟩
    | true =>
      rw [List.count_eq_zero_of_not_mem (standing.apart name hname other hreach')]
      exact Nat.zero_le _
  rw [Tally.count_add, List.count_cons]
  simp only [beq_iff_eq]
  omega

/-- A resolution that comes to the source is noted as nested below the active names. -/
theorem Nested.meet {trail : Trail} (h : Nested v limit active trail)
    (standing : Standing v limit node active) {name : String}
    (hcount : ∀ other, (name :: active).count other ≤ limit) {found : Lookup} {active' : List String}
    (hactive : (trail.meet name found).active = active') :
    Nested v limit active' (trail.meet name found) where
  active := hactive
  count := by
    rw [Trail.meet_moments, h.active]
    exact List.forall_mem_cons.mpr ⟨hcount, h.count⟩
  bound := by
    rw [Trail.meet_moments, h.active]
    exact List.forall_mem_cons.mpr ⟨standing.bound, h.bound⟩

theorem Nested.close {trail : Trail} {name : String} (h : Nested v limit (name :: active) trail) :
    Nested v limit active trail.close where
  active := by
    show trail.active.tail = active
    rw [h.active]
    rfl
  count := h.count
  bound := h.bound

theorem nests_resolve (straight : v.Straight) (standing : Standing v limits.substitutions node active)
    {enter : Node → Evaluation (Trail × σ) Float}
    (henter : ∀ root active', Standing v limits.substitutions root active' →
      Nests v limits active' (root.Leads v) false Float (enter root))
    {name : String} (hname : node.Mentions inBody name) :
    Nests v limits active (node.Leads v) inBody Float
      (resolve v.source.observed (fun root => closing (enter root)) name) := by
  intro ctx outcome after hlimits hnested hin hout hrun
  have hhits : ∀ other, ctx.hits.count other ≤ (ctx.hit name).hits.count other := fun other => by
    show _ ≤ (ctx.hits.add name).count other
    rw [Tally.count_add]
    exact Nat.le_add_right _ _
  rcases hindex : ctx.boundIndex? name with _ | index
  · by_cases hlimit : ctx.limits.substitutions < (ctx.hit name).hits.count name
    · rw [resolve_of_refused _ _ hindex hlimit] at hrun
      cases hrun
      exact ⟨hlimits, hnested, rfl, hhits⟩
    · rcases hfound : v.source name ctx.world.2 with ⟨found, world⟩
      rw [resolve_of_found _ _ hindex hlimit (observed_of_found hfound)] at hrun
      have hcount := count_cons_le_of_found standing hname hlimits hout hlimit
      cases found with
      | unbound =>
        cases hrun
        have hmeet : Nested v limits.substitutions active (ctx.world.1.meet name .unbound) :=
          hnested.meet standing hcount hnested.active
        exact ⟨hlimits, hmeet, rfl, hhits⟩
      | value supplied =>
        have hmeet : Nested v limits.substitutions active (ctx.world.1.meet name (.value supplied)) :=
          hnested.meet standing hcount hnested.active
        cases hrun
        exact ⟨hlimits, hmeet, rfl, hhits⟩
      | formula root =>
        obtain ⟨e, he, rfl, rfl⟩ := Bindings.source_eq_formula hfound
        obtain ⟨inner, hinner, rfl⟩ := closing_eq_some hrun
        have hmeet : Nested v limits.substitutions (name :: active)
            (ctx.world.1.meet name (.formula e.root)) :=
          hnested.meet standing hcount (congrArg (name :: ·) hnested.active)
        obtain ⟨hlimits', hnested', hindex', hhits'⟩ := henter e.root (name :: active)
          (standing.enter straight hname he hcount)
          { ctx.hit name with world := (ctx.world.1.meet name (.formula e.root), ctx.world.2) } outcome
          inner hlimits hmeet nofun
          (fun _ other hother => count_cons_le_of_leads standing hname he hout hother) hinner
        exact ⟨hlimits', hnested'.close, hindex', fun other => (hhits other).trans (hhits' other)⟩
  · rw [resolve_of_index _ _ hindex] at hrun
    cases hrun
    exact ⟨hlimits, hnested, rfl, fun _ => Nat.le_refl _⟩

/-- In a body the index is not resolved but read. -/
theorem nests_index (source : Source (Trail × σ)) (enter : Node → Evaluation (Trail × σ) Float) :
    Nests v limits active leads true Float (resolve source enter summationIndex) := by
  intro ctx outcome after hlimits hnested hin _ hrun
  obtain ⟨index, hindex⟩ := Option.isSome_iff_exists.mp (hin rfl)
  have hbound : ctx.boundIndex? summationIndex = some index := by
    rw [Context.boundIndex?, if_pos rfl, hindex]
  rw [resolve_of_index _ _ hbound] at hrun
  cases hrun
  exact ⟨hlimits, hnested, rfl, fun _ => Nat.le_refl _⟩

/-- Every part of an observed run nests names as the limit allows. -/
theorem nests_evaluateObserved (straight : v.Straight) (host : Host σ) (steps : Nat) (node : Node)
    (active : List String) (standing : Standing v limits.substitutions node active) :
    Nests v limits active (node.Leads v) false Float (evaluateObserved host v.source steps node) := by
  induction steps generalizing node active with
  | zero => exact fun _ _ _ _ _ _ _ hrun => nomatch hrun
  | succ steps ih =>
    have hloops := nests_loops v limits active (node.Leads v) host v.source steps
    rw [evaluateObserved_succ]
    refine Composes.of_leaves (fun inBody => (hloops inBody).composes)
      (fun inBody index _ _ h => h.inScope index) node false ?_
    rintro ⟨leaf, inBody⟩ hl
    have hleaf := Node.childrenReversed_of_mem_leaves hl
    cases leaf with
    | number | constant => exact (hloops inBody).ofExcept (operational_ok _)
    | random => exact nests_draw host
    | reference name inSummation =>
      refine (hloops inBody).composes.reference name inSummation ?_
      by_cases hindex : inBody = true ∧ name = summationIndex
      · obtain ⟨rfl, rfl⟩ := hindex
        exact nests_index _ _
      · exact nests_resolve straight standing ih ⟨⟨inSummation, hl⟩, hindex⟩
    | _ => cases hleaf

end Nests

/-! ### Runs under a higher limit -/

/-- What a run looks like under a higher limit on substitutions, until the lower one refuses a name. -/
def View.raised (σ : Type) (limits higher : Limits) (hiterations : higher.iterations = limits.iterations)
    (hle : limits.substitutions ≤ higher.substitutions) : View (Trail × σ) (Trail × σ) where
  world := id
  limits := limits
  limits' := higher
  valid _ := True
  exits fault := ∃ name, fault = .domain (.recursiveVariable name limits.substitutions)
  iterations := .inl hiterations
  refused := .inr ⟨hle, fun name => ⟨name, rfl⟩⟩

section Raised

variable {limits higher : Limits} (hiterations : higher.iterations = limits.iterations)
  (hle : limits.substitutions ≤ higher.substitutions)

theorem raised_closing {x y : Evaluation (Trail × σ) Float}
    (h : (View.raised σ limits higher hiterations hle).Tracks Float x y) :
    (View.raised σ limits higher hiterations hle).Tracks Float (closing x) (closing y) := by
  intro ctx hs
  have hx := h ctx hs
  unfold closing
  rcases hrun : x ctx with _ | ⟨fault | a, after⟩
  · rw [hrun] at hx
    simp only [hx]
  · rw [hrun] at hx
    refine hx.imp_right fun ⟨hafter, hy⟩ => ⟨⟨hafter.limits, trivial⟩, ?_⟩
    simp only [hy]
    rfl
  · rw [hrun] at hx
    refine ⟨⟨hx.1.limits, trivial⟩, ?_⟩
    simp only [hx.2]
    rfl

theorem raised_evaluateObserved (host : Host σ) (source : Source σ) (steps : Nat) (node : Node) :
    (View.raised σ limits higher hiterations hle).Tracks Float (evaluateObserved host source steps node)
      (evaluateObserved host source steps node) := by
  induction steps generalizing node with
  | zero => exact fun _ _ => rfl
  | succ steps ih =>
    have hhosts : (View.raised σ limits higher hiterations hle).Hosts host.observed host.observed :=
      ⟨fun _ _ => ⟨trivial, rfl⟩, fun _ _ => ⟨trivial, rfl⟩⟩
    exact hhosts.run (View.Sources.tracks_resolve (fun _ _ _ => .inr ⟨trivial, rfl⟩)
      fun root => raised_closing hiterations hle (ih root)) node

include hiterations hle in
/-- The run ends because a name was resolved too often, or it is the run under the higher limit. -/
theorem observe_raised (host : Host σ) (source : Source σ) (steps : Nat)
    (node : Node) (left : Option Nat) (world : σ) :
    (∃ name after, observe host source steps limits node left world =
      some (.error (.domain (.recursiveVariable name limits.substitutions)), after)) ∨
    observe host source steps higher node left world = observe host source steps limits node left world := by
  rw [observe_eq_map, observe_eq_map]
  rcases (raised_evaluateObserved hiterations hle host source steps node).cases
    (show View.Sees _ (Context.fresh limits (Trail.start left, world)) from ⟨rfl, trivial⟩) with
    ⟨_, after, ⟨name, rfl⟩, hrun⟩ | hsame
  · exact .inl ⟨name, after.world, congrArg _ hrun⟩
  · refine .inr ((congrArg _ hsame).trans ?_)
    rw [Option.map_map]
    rfl

end Raised

/-! ### The runs of a formula -/

/-- At no moment is a name resolved while it is active more often than the limit says, or are there more
active names than that makes together. -/
structure Trail.NestedWithin (trail : Trail) (limit : Nat) (names : Finset String) : Prop where
  count : ∀ moment ∈ trail.moments, ∀ name, moment.count name ≤ limit
  depth : ∀ moment ∈ trail.moments, moment.length ≤ limit * names.card + 1

theorem Nested.within {v : Bindings σ} {limit : Nat} {active : List String} {trail : Trail}
    (h : Nested v limit active trail) : trail.NestedWithin limit v.keys where
  count := h.count
  depth moment hmoment := by
    have htail : moment.tail.length ≤ limit * v.keys.card :=
      length_le_of_count_le (h.bound moment hmoment) fun name =>
        ((List.tail_sublist moment).count_le name).trans (h.count moment hmoment name)
    rw [List.length_tail] at htail
    omega

theorem nestedWithin_of_observe {v : Bindings σ} (straight : v.Straight) {limits : Limits} {host : Host σ}
    {steps : Nat} {node : Node} {left : Option Nat} {world : σ} {r : Except Fault Float × Trail × σ}
    (hr : r ∈ observe host v.source steps limits node left world) :
    r.2.1.NestedWithin limits.substitutions v.keys := by
  rw [observe_eq_map] at hr
  obtain ⟨⟨outcome, after⟩, hrun, rfl⟩ := Option.map_eq_some_iff.mp hr
  have hstart : Nested v limits.substitutions [] (Trail.start left) :=
    ⟨rfl, List.forall_mem_nil _, List.forall_mem_nil _⟩
  obtain ⟨-, hnested, -, -⟩ := nests_evaluateObserved straight host steps node []
    (standing_nil v limits.substitutions node) _ outcome after rfl hstart nofun
    (fun _ _ _ => Nat.zero_le _) hrun
  exact hnested.within

namespace Expression

/-- Where no name comes back to itself through the body of a summation, every run of a formula, whether it
ends by itself or is cut off after any number of polls, nests no name more often than the limit says. A run
that nests one more often under a higher limit ends as recursive under the lower one. -/
theorem evaluateUnder_nested (e : Expression) (v : Bindings σ) (straight : v.Straight) (limits : Limits)
    (host : Host σ) (world : σ) :
    (∀ steps, e.evaluateUnder limits host v.source steps world =
      (observe host v.source steps limits e.root none world).map fun r => (r.1, r.2.2)) ∧
    (∀ polls, (observe host v.source (polls + 2) limits e.root (some polls) world).isSome = true) ∧
    ∀ steps left,
      (∀ r ∈ observe host v.source steps limits e.root left world,
        r.2.1.NestedWithin limits.substitutions v.keys) ∧
      ∀ higher : Limits, higher.iterations = limits.iterations →
        limits.substitutions ≤ higher.substitutions →
        ∀ r ∈ observe host v.source steps higher e.root left world,
          (∃ moment ∈ r.2.1.moments, ∃ name, limits.substitutions < moment.count name) →
          ∃ name after, observe host v.source steps limits e.root left world =
            some (.error (.domain (.recursiveVariable name limits.substitutions)), after) := by
  refine ⟨fun steps => (observe_whole host v.source steps limits e.root world).symm, fun polls => ?_,
    fun steps left => ⟨fun r hr => nestedWithin_of_observe straight hr, ?_⟩⟩
  · obtain ⟨result, hresult⟩ := exists_observe_of_cut host v.source limits e.root polls world
    rw [hresult]
    rfl
  · rintro higher hiterations hle r hr ⟨moment, hmoment, name, hdeep⟩
    rcases observe_raised hiterations hle host v.source steps e.root left world with hfault | hsame
    · exact hfault
    · have hwithin := nestedWithin_of_observe straight (hsame ▸ hr)
      exact absurd (hwithin.count moment hmoment name) (Nat.not_le_of_lt hdeep)

/-- A name that stands for itself and for a sum of another name, which leads nowhere. -/
def growing : Bindings Unit :=
  ⟨[("x", .formula ⟨"x + sum(1, 2, y)", .finite (.binary .add (.reference "x" false)
    (.summation (.number 1.0) (.number 2.0) (.reference "y" true))), {}⟩), ("y", .value 1.0)]⟩

theorem straight_growing : growing.Straight := by
  intro name e other he hother hback
  have hformula : ∀ name e, growing.get? name = some (.formula e) → name = "x" ∧
      e.root = .finite (.binary .add (.reference "x" false)
        (.summation (.number 1.0) (.number 2.0) (.reference "y" true))) := by
    intro name e he
    by_cases hx : "x" = name
    · rw [Bindings.get?, growing, Bindings.getIn, if_pos hx] at he
      cases he
      exact ⟨hx.symm, rfl⟩
    · by_cases hy : "y" = name <;> simp [Bindings.get?, growing, Bindings.getIn, hx, hy] at he
  obtain ⟨rfl, hroot⟩ := hformula name e he
  obtain ⟨⟨inSummation, hleaf⟩, -⟩ := hother
  rw [hroot] at hleaf
  obtain ⟨rfl, -⟩ : other = "y" ∧ inSummation = true := by simpa [Node.leaves] using hleaf
  rcases hback.cases_head with heq | ⟨next, ⟨e', _, he', _⟩, -⟩
  · exact absurd heq (by decide)
  · exact absurd (hformula _ _ he').1 (by decide)

/-- The name nests twice under a limit of two, and ends as recursive, since it nests three times under a limit
of three. -/
theorem evaluateUnder_nested_growing :
    growing.Straight ∧ ∃ name trail,
      observe Host.idle growing.source 9 ⟨2, 9⟩ (.finite (.reference "x" false)) none () =
        some (.error (.domain (.recursiveVariable name 2)), trail, ()) ∧
      trail.NestedWithin 2 growing.keys := by
  have hdeep : (observe Host.idle growing.source 9 ⟨3, 9⟩ (.finite (.reference "x" false)) none ()).map
      (fun r => r.2.1.moments.head?) = some (some ["x", "x", "x"]) := by
    decide +kernel
  obtain ⟨r, hr, hmoment⟩ := Option.map_eq_some_iff.mp hdeep
  obtain ⟨hwithin, hrecursive⟩ := (evaluateUnder_nested ⟨"x", .finite (.reference "x" false), {}⟩ growing
    straight_growing ⟨2, 9⟩ Host.idle ()).2.2 9 none
  obtain ⟨name, ⟨trail, ⟨⟩⟩, hrun⟩ := hrecursive ⟨3, 9⟩ rfl (by decide) r hr
    ⟨_, List.mem_of_head? hmoment, "x", by decide⟩
  exact ⟨straight_growing, name, trail, hrun, hwithin _ hrun⟩

/-- A name that stands for a sum over itself, up to the fourth time. -/
def circling : Bindings Unit :=
  ⟨[("s", .formula ⟨"if(n >= 4, 0, sum(n + 1, n + 1, s))", .finite (.choice
    (.comparison .ge (.reference "n" false) (.number 4.0)) (.number 0.0)
    (.summation (.binary .add (.reference "n" true) (.number 1.0))
      (.binary .add (.reference "n" true) (.number 1.0)) (.reference "s" true))), {}⟩)]⟩

/-- A name that comes back to itself through the body of a summation is counted anew each time: under a limit
of two it is nested four times, and the run ends in a value. -/
theorem nests_through_body :
    readNode Host.idle ⟨false, true, {}⟩ 2 "if(n >= 4, 0, sum(n + 1, n + 1, s))" () =
      some (.ok (.finite (.choice
        (.comparison .ge (.reference "n" false) (.number 4.0)) (.number 0.0)
        (.summation (.binary .add (.reference "n" true) (.number 1.0))
          (.binary .add (.reference "n" true) (.number 1.0)) (.reference "s" true)))), ()) ∧
    (observe Host.idle circling.source 9 ⟨2, 9⟩
      (.finite (.summation (.number 1.0) (.number 1.0) (.reference "s" true))) none ()).map
        (fun r => (r.1, r.2.1.moments.head?)) = some (.ok 0.0, some ["s", "s", "s", "s"]) := by
  constructor
  · decide +kernel
  · decide +kernel

end Expression

end Formulae
