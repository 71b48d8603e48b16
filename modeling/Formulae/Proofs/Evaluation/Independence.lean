import Formulae.Proofs.Evaluation.Trail
import Formulae.Proofs.Folding

/-!
# Proofs.Evaluation.Independence — constant formulas and the bindings they are evaluated under

A run without bindings either fails for want of one or is the run under any bindings. Of the names of a
constant formula there is only the index of a summation, and that one is bound in bodies. So a constant
formula is independent of its bindings exactly if it never comes to an index outside of a body, in one of
the bounds of a summation.

* `evaluateFresh_none_cases`: runs without bindings, and under any.
* `Misses`: which names an evaluation may miss, and where the index is bound.
* `Expression.independent_iff_of_isConstant`: when constancy means independence.
-/

namespace Formulae

open Evaluation

variable {σ : Type}

/-! ### Runs without bindings -/

/-- What a run without bindings looks like beside the names that other bindings are asked for, as long as no
binding is missing. -/
def View.unasked (σ : Type) (limits : Limits) : View σ (List String × σ) :=
  .under limits (fun w => ([], w)) (fun _ => True) fun fault => ∃ name, fault = .unset name

/-- Without bindings a run fails for want of one, or it is the run under any bindings, which are not asked for
anything. -/
theorem evaluateFresh_none_cases (host : Host σ) (source : Source σ) (steps : Nat) (limits : Limits)
    (node : Node) (world : σ) :
    (∃ name after, evaluateFresh host Source.none steps limits node world =
      some (.error (.unset name), after)) ∨
    evaluateFresh (host.onSecond (List String)) source.logged steps limits node ([], world) =
      (evaluateFresh host Source.none steps limits node world).map fun r => (r.1, [], r.2) := by
  have hhosts : (View.unasked σ limits).Hosts host (host.onSecond (List String)) :=
    ⟨fun _ _ => ⟨trivial, rfl⟩, fun _ _ => ⟨trivial, rfl⟩⟩
  have hsources : (View.unasked σ limits).Sources Source.none source.logged :=
    fun name _ _ => .inl ⟨.unset name, .inr ⟨rfl, rfl⟩, name, rfl⟩
  rcases View.evaluateFresh_cases hhosts hsources steps node (w := world) trivial with
    ⟨_, after, ⟨name, rfl⟩, hrun⟩ | hsame
  · exact .inl ⟨name, after, hrun⟩
  · exact .inr hsame

/-- A run that misses no binding is the run under any bindings. -/
theorem evaluateFresh_eq_none (host : Host σ) (source : Source σ) (steps : Nat) (limits : Limits)
    (node : Node) (world : σ)
    (found : ∀ name after, evaluateFresh host Source.none steps limits node world ≠
      some (.error (.unset name), after)) :
    evaluateFresh host source steps limits node world =
        evaluateFresh host Source.none steps limits node world ∧
      evaluateFresh (host.onSecond (List String)) source.logged steps limits node ([], world) =
        (evaluateFresh host Source.none steps limits node world).map fun r => (r.1, [], r.2) := by
  rcases evaluateFresh_none_cases host source steps limits node world with ⟨name, after, hrun⟩ | hlogged
  · exact absurd hrun (found name after)
  · refine ⟨?_, hlogged⟩
    rw [evaluateFresh_logged host source steps limits node [], hlogged, Option.map_map]
    exact Option.map_id' ..

/-! ### The names that are missed -/

/-- The evaluation restores the index, and a name that it misses is as `misses` says. It is started with an
index if it stands in a body. -/
def Misses (misses : String → Prop) (inBody : Bool) (α : Type) (x : Evaluation σ α) : Prop :=
  ∀ ctx outcome after, (inBody = true → ctx.index.isSome = true) → x ctx = some (outcome, after) →
    after.index = ctx.index ∧ ∀ name, outcome = .error (.unset name) → misses name

section Misses

variable {misses : String → Prop} {inBody : Bool} {α β : Type}

/-- The rule for evaluations that do not look at names. -/
theorem Misses.of_nameless {x : Evaluation σ α} (h : ∀ ctx outcome after, x ctx = some (outcome, after) →
    after.index = ctx.index ∧ ∀ name, outcome ≠ .error (.unset name)) : Misses misses inBody α x := by
  intro ctx outcome after _ hrun
  obtain ⟨hindex, hnot⟩ := h ctx outcome after hrun
  exact ⟨hindex, fun name hname => absurd hname (hnot name)⟩

theorem Misses.bind {x : Evaluation σ α} {f : α → Evaluation σ β} (h : Misses misses inBody α x)
    (hf : ∀ a, Misses misses inBody β (f a)) : Misses misses inBody β (x >>= f) := by
  intro ctx outcome after hin hrun
  rcases hx : x ctx with _ | ⟨fault | a, mid⟩
  · rw [Run.bind_of_none hx] at hrun
    cases hrun
  · rw [Run.bind_of_error hx] at hrun
    cases hrun
    obtain ⟨hindex, hmiss⟩ := h ctx _ _ hin hx
    refine ⟨hindex, fun name hname => hmiss name ?_⟩
    cases hname
    rfl
  · rw [Run.bind_of_ok hx] at hrun
    obtain ⟨hindex, -⟩ := h ctx _ _ hin hx
    rw [← hindex] at hin ⊢
    exact hf a mid outcome after hin hrun

/-- In the scope of an iteration there is an index. -/
theorem Misses.inScope (index : Float) {x : Evaluation σ Float} (h : Misses misses inBody Float x)
    (inBody' : Bool) : Misses misses inBody' Float (inScope index x) := by
  intro ctx outcome after _ hrun
  obtain ⟨inner, hinner, rfl⟩ := inScope_eq_some hrun
  exact ⟨rfl, (h (ctx.within index) outcome inner (fun _ => rfl) hinner).2⟩

theorem Operational.ne_unset {outcome : Except Fault α} (h : Operational outcome) (name : String) :
    outcome ≠ .error (.unset name) := by
  intro hname
  have hop := h _ hname
  cases hop

theorem misses_poll (host : Host σ) : Misses misses inBody Unit (poll host) := by
  refine Misses.of_nameless fun ctx outcome after hrun => ?_
  obtain ⟨rfl, hfault⟩ := poll_eq_some hrun
  exact ⟨rfl, fun name hname => nomatch hfault _ hname⟩

theorem misses_lifts (misses : String → Prop) (host : Host σ) (source : Source σ)
    (enter : Node → Evaluation σ Float) (steps : Nat) (inBody : Bool) :
    Lifts ⟨host, source, enter, steps⟩ ⟨host, source, enter, steps⟩ Eq
      fun α x _ => Misses misses inBody α x where
  ofExcept h := Misses.of_nameless fun ctx _ _ hrun => by
    cases hrun
    exact ⟨rfl, h.ne_unset⟩
  bind := Misses.bind
  limit := Misses.of_nameless fun ctx _ _ hrun => by
    cases hrun
    exact ⟨rfl, nofun⟩
  poll := misses_poll host
  inScope index _ _ h := h.inScope index inBody
  exhausted _ _ := fun _ _ _ _ hrun => nomatch hrun
  succ h := ⟨_, h.symm, rfl⟩
  steps := rfl

theorem misses_draw (host : Host σ) : Misses misses inBody Float (draw host) := by
  refine Misses.of_nameless fun ctx outcome after hrun => ?_
  cases hrun
  exact ⟨rfl, nofun⟩

/-- In a body the index is bound. -/
theorem misses_index (enter : Node → Evaluation σ Float) (h : inBody = false → misses summationIndex) :
    Misses misses inBody Float (resolve Source.none enter summationIndex) := by
  intro ctx outcome after hin hrun
  rcases hindex : ctx.boundIndex? summationIndex with _ | index
  · have hfree : ctx.index = none := by simpa [Context.boundIndex?] using hindex
    have hout : inBody = false := by
      rw [Bool.eq_false_iff]
      intro htrue
      have hsome := hin htrue
      rw [hfree] at hsome
      cases hsome
    rw [resolve_none_of_unindexed _ hindex] at hrun
    cases hrun
    refine ⟨rfl, fun name hname => ?_⟩
    split at hname
    · cases hname
    · cases hname
      exact h hout
  · rw [resolve_of_index _ _ hindex] at hrun
    cases hrun
    exact ⟨rfl, nofun⟩

end Misses

/-- Every name of the tree stands in the body of a summation. -/
def Node.Scoped (node : Node) : Prop :=
  ∀ name inSummation, (.reference name inSummation, false) ∉ node.leaves false

/-- Without bindings a constant tree misses nothing but the index, and not even that one if all names stand in
bodies. -/
theorem misses_evaluate_none (host : Host σ) (steps : Nat) {node : Node} (hclosed : node.isClosed = true) :
    Misses (fun name => name = summationIndex ∧ ¬ node.Scoped) false Float
      (evaluate host Source.none steps node) := by
  -- without bindings no formula is entered, so one step is as good as all
  cases steps with
  | zero => exact fun _ _ _ _ hrun => nomatch hrun
  | succ steps =>
    have hlifts := misses_lifts (fun name => name = summationIndex ∧ ¬ node.Scoped) host
      Source.none (evaluate host Source.none steps) steps
    refine Composes.of_leaves (fun inBody => (hlifts inBody).composes)
      (fun inBody index _ _ h => h.inScope index inBody) node false ?_
    rintro ⟨leaf, inBody⟩ hl
    have hleaf := Node.childrenReversed_of_mem_leaves hl
    have hclosed' := Node.isClosed_of_mem_leaves hclosed hl
    cases leaf with
    | number | constant => exact (hlifts inBody).ofExcept (operational_ok _)
    | random => cases hclosed'
    | reference name inSummation =>
      obtain ⟨-, hname⟩ := (Bool.and_eq_true _ _).mp hclosed'
      obtain rfl : name = summationIndex := eq_of_beq hname
      refine (hlifts inBody).composes.reference _ inSummation (misses_index _ ?_)
      rintro rfl
      exact ⟨rfl, fun hscoped => hscoped _ _ hl⟩
    | _ => cases hleaf

/-- Bindings that bind every name miss none. -/
theorem misses_evaluate_value (host : Host σ) (value : Float) (steps : Nat) (node : Node) :
    Misses (fun _ => False) false Float
      (evaluate host (fun _ world => (.value (.ok value), world)) steps node) := by
  cases steps with
  | zero => exact fun _ _ _ _ hrun => nomatch hrun
  | succ steps =>
    refine (misses_lifts _ host _ _ steps false).run (misses_draw host) (fun name => ?_) node
    refine Misses.of_nameless fun ctx outcome after hrun => ?_
    rcases hindex : ctx.boundIndex? name with _ | index
    · by_cases hlimit : ctx.limits.substitutions < (ctx.hit name).hits.count name
      · rw [resolve_of_refused _ _ hindex hlimit] at hrun
        cases hrun
        exact ⟨rfl, nofun⟩
      · rw [resolve_of_found _ _ hindex hlimit rfl] at hrun
        cases hrun
        exact ⟨rfl, nofun⟩
    · rw [resolve_of_index _ _ hindex] at hrun
      cases hrun
      exact ⟨rfl, nofun⟩

theorem Misses.of_evaluateFresh {misses : String → Prop} {host : Host σ} {source : Source σ} {steps : Nat}
    {limits : Limits} {node : Node} {world after : σ} {name : String}
    (h : Misses misses false Float (evaluate host source steps node))
    (hrun : evaluateFresh host source steps limits node world = some (.error (.unset name), after)) :
    misses name := by
  rw [evaluateFresh_eq_map] at hrun
  obtain ⟨⟨outcome, ctx⟩, hctx, hr⟩ := Option.map_eq_some_iff.mp hrun
  exact (h _ _ _ nofun hctx).2 name (congrArg Prod.fst hr)

/-! ### Constant formulas -/

namespace Expression

/-- The formula comes to the same under any bindings as under none, and asks them for nothing. -/
structure Independent (e : Expression) : Prop where
  same : ∀ {σ : Type} (limits : Limits) (host : Host σ) (source : Source σ) (steps : Nat) (world : σ),
    e.evaluateUnder limits host source steps world = e.evaluateUnder limits host Source.none steps world
  unasked : ∀ {σ : Type} (limits : Limits) (host : Host σ) (source : Source σ) (steps : Nat) (world : σ),
    ∀ r ∈ e.evaluateUnder limits (host.onSecond (List String)) source.logged steps ([], world), r.2.1 = []

/-- The formula never fails for want of a binding, whatever it is evaluated under. -/
def NeedsNoBinding (e : Expression) : Prop :=
  ∀ {σ : Type} (limits : Limits) (host : Host σ) (source : Source σ) (steps : Nat) (world : σ)
    (name : String) (after : σ),
    e.evaluateUnder limits host source steps world ≠ some (.error (.unset name), after)

/-- Without bindings the formula never comes to the index of a summation where none is bound. -/
def IndexIsBound (e : Expression) : Prop :=
  ∀ {σ : Type} (limits : Limits) (host : Host σ) (steps : Nat) (world after : σ),
    e.evaluateUnder limits host Source.none steps world ≠ some (.error (.unset summationIndex), after)

theorem Independent.needsNoBinding {e : Expression} (h : e.Independent) : e.NeedsNoBinding := by
  intro σ limits host source steps world name after hrun
  -- the run is also that under bindings that bind every name
  rw [h.same, ← h.same limits host (fun _ world => (.value (.ok 0.0), world))] at hrun
  exact (misses_evaluate_value host 0.0 steps e.root).of_evaluateFresh hrun

theorem independent_of_found {e : Expression}
    (found : ∀ {σ : Type} (limits : Limits) (host : Host σ) (steps : Nat) (world : σ) (name : String)
      (after : σ), e.evaluateUnder limits host Source.none steps world ≠ some (.error (.unset name), after)) :
    e.Independent where
  same limits host source steps world :=
    (evaluateFresh_eq_none host source steps limits e.root world (found limits host steps world)).1
  unasked limits host source steps world r hr := by
    have hlogged :=
      (evaluateFresh_eq_none host source steps limits e.root world (found limits host steps world)).2
    obtain ⟨r', -, rfl⟩ := Option.map_eq_some_iff.mp (hlogged.symm.trans hr)
    rfl

/-- A constant formula is independent of its bindings exactly if it never comes to an index that is not
bound. Then it needs no binding; and so it is if its names stand in the bodies of summations only. -/
theorem independent_iff_of_isConstant (e : Expression) (hconst : e.isConstant = true) :
    (e.Independent ↔ e.IndexIsBound) ∧ (e.Independent → e.NeedsNoBinding) ∧
      (e.root.Scoped → e.Independent) := by
  have hclosed : e.root.isClosed = true := e.root.isConstant_eq_isClosed ▸ hconst
  refine ⟨⟨fun h => ?_, fun hbound => ?_⟩, Independent.needsNoBinding, fun hscoped => ?_⟩
  · intro σ limits host steps world after
    exact h.needsNoBinding limits host Source.none steps world summationIndex after
  · refine independent_of_found fun limits host steps world name after hrun => ?_
    obtain ⟨rfl, -⟩ := (misses_evaluate_none host steps hclosed).of_evaluateFresh hrun
    exact hbound limits host steps world after hrun
  · refine independent_of_found fun limits host steps world name after hrun => ?_
    exact ((misses_evaluate_none host steps hclosed).of_evaluateFresh hrun).2 hscoped

/-- A sum of an index that its body binds is independent of the bindings. -/
theorem independent_of_index_in_body :
    ∃ e, Expression.read Host.idle ⟨false, false, {}⟩ 2 "sum(1, 3, sum(1, 2, n))" () = some (.ok e, ()) ∧
      e.isConstant = true ∧ e.root.Scoped ∧ e.Independent ∧ e.NeedsNoBinding := by
  have hroot : readNode Host.idle ⟨false, false, {}⟩ 2 "sum(1, 3, sum(1, 2, n))" () =
      some (.ok (.finite (.summation (.number 1.0) (.number 3.0)
        (.summation (.number 1.0) (.number 2.0) (.reference "n" true)))), ()) := by
    decide +kernel
  have hscoped : (Node.finite (.summation (.number 1.0) (.number 3.0)
      (.summation (.number 1.0) (.number 2.0) (.reference "n" true)))).Scoped := by
    intro name inSummation
    simp [Node.leaves]
  have hconst := Node.isConstant_eq_isClosed (.finite (.summation (.number 1.0) (.number 3.0)
    (.summation (.number 1.0) (.number 2.0) (.reference "n" true))))
  have h := independent_iff_of_isConstant ⟨"sum(1, 3, sum(1, 2, n))", _, {}⟩ hconst
  exact ⟨_, read_of_readNode hroot, hconst, hscoped, h.2.2 hscoped, h.2.1 (h.2.2 hscoped)⟩

/-- A sum from the index itself counts as constant, but its lower bound is a name that may be bound or not. -/
theorem dependent_of_index_in_bound :
    ∃ e, Expression.read Host.idle ⟨false, true, {}⟩ 2 "sum(n, 3, n)" () = some (.ok e, ()) ∧
      e.isConstant = true ∧ e.evaluate Host.idle Source.none 6 () = some (.error (.unset "n"), ()) ∧
      e.evaluate Host.idle (fun _ world => (.value (.ok 1.0), world)) 6 () = some (.ok 6.0, ()) ∧
      ¬ e.Independent := by
  have hroot : readNode Host.idle ⟨false, true, {}⟩ 2 "sum(n, 3, n)" () =
      some (.ok (.finite (.summation (.reference "n" true) (.number 3.0) (.reference "n" true))), ()) := by
    decide +kernel
  have hfree : evaluateFresh Host.idle Source.none 6 {} (.finite (.summation (.reference "n" true)
      (.number 3.0) (.reference "n" true))) () = some (.error (.unset "n"), ()) := by
    decide +kernel
  refine ⟨_, read_of_readNode hroot, Node.isConstant_eq_isClosed _, hfree, by decide +kernel, fun h => ?_⟩
  exact h.needsNoBinding {} Host.idle Source.none 6 () "n" () hfree

end Expression

end Formulae
