import Formulae.Proofs.Evaluation.Course
import Formulae.Proofs.Evaluation.Substitution
import Formulae.Proofs.Grammar.Occurrences
import Formulae.Proofs.Runs

/-!
# Proofs.Evaluation.Traversal — straight trees are evaluated from left to right

An evaluation of a straight tree gets to all of its nodes, unless it fails before, so the names that it resolves
are references of the tree from the first one on.

* `Actions.Collects.walk`: what collects names as evaluations follow each other collects the references of
  straight trees.
* `references_eq_nil_of_ok`: a straight tree that has a value without bindings has no references.
* `Traversed`: what a run through references leaves behind, and how it ends.
* `traversed_evaluateNoting`: every evaluation of a straight tree is such a run, if no name in it stands for a
  formula.
-/

namespace Formulae

open Number Evaluation

variable {σ ω α β : Type}

/-! ### Straight trees -/

/-- The relation between names and evaluations holds for the actions, where `allowed` names are concerned, and
adds up the names of evaluations that follow each other. -/
structure Actions.Collects (A : Actions σ) (allowed : String → Prop)
    (P : ∀ α : Type, List String → Evaluation σ α → Prop) : Prop where
  ofExcept : ∀ {α : Type} {outcome : Except Fault α}, Operational outcome →
    P α [] (Run.ofExcept outcome)
  bind : ∀ {α β : Type} {names more : List String} {x : Evaluation σ α} {f : α → Evaluation σ β},
    P α names x → (∀ a, P β more (f a)) → P β (names ++ more) (x >>= f)
  poll : P Unit [] A.poll
  draw : P Float [] A.draw
  name : ∀ name, allowed name → P Float [name] (A.name name)

namespace Actions.Collects

variable {A : Actions σ} {allowed : String → Prop}
  {P : ∀ α : Type, List String → Evaluation σ α → Prop} (h : A.Collects allowed P)
include h

theorem first {names : List String} {x : Evaluation σ α} {f : α → Evaluation σ β} (hx : P α [] x)
    (hf : ∀ a, P β names (f a)) : P β names (x >>= f) :=
  h.bind hx hf

theorem last {names : List String} {x : Evaluation σ α} {f : α → Evaluation σ β} (hx : P α names x)
    (hf : ∀ a, P β [] (f a)) : P β names (x >>= f) := by
  have hboth := h.bind hx hf
  rwa [List.append_nil] at hboth

/-- It holds between the references and the evaluations of straight trees, then. -/
theorem walk {node : Node} (straight : node.Straight) (hnames : ∀ name ∈ node.references, allowed name) :
    P Float node.references (node.walk A) := by
  induction node with
  | number | constant => exact h.ofExcept (operational_ok _)
  | random => exact h.draw
  | reference name => exact h.first h.poll fun _ => h.name name (hnames name List.mem_cons_self)
  | unary op a ih | finite a ih =>
    exact h.first h.poll fun _ => h.last (ih straight hnames) fun _ => h.ofExcept (operational_checkFinite _)
  | binary op a b iha ihb =>
    obtain ⟨ha, hb⟩ := List.forall_mem_append.mp hnames
    exact h.first h.poll fun _ => h.bind (iha straight.1 ha) fun _ => h.last (ihb straight.2 hb) fun _ =>
      h.last (h.ofExcept (operational_apply _ _ _)) fun _ => h.ofExcept (operational_checkFinite _)
  | comparison op a b iha ihb =>
    obtain ⟨ha, hb⟩ := List.forall_mem_append.mp hnames
    exact h.first h.poll fun _ => h.bind (iha straight.1 ha) fun _ => h.last (ihb straight.2 hb) fun _ =>
      h.ofExcept (operational_ok _)
  | logic op a b iha ihb =>
    obtain ⟨ha, hb⟩ := List.forall_mem_append.mp hnames
    exact h.first h.poll fun _ => h.bind (iha straight.1 ha) fun _ =>
      h.first (h.ofExcept (operational_toBool _)) fun _ => h.last (ihb straight.2 hb) fun _ =>
        h.last (h.ofExcept (operational_toBool _)) fun _ => h.ofExcept (operational_ok _)
  | choice | summation => exact straight.elim

end Actions.Collects

/-! ### Trees without bindings -/

/-- Outside of summations the evaluation has a value only if there are no names. -/
def NeedsNone (α : Type) (names : List String) (x : Evaluation σ α) : Prop :=
  ∀ ctx a after, ctx.index = none → x ctx = some (.ok a, after) → names = [] ∧ after.index = none

theorem NeedsNone.bind {names more : List String} {x : Evaluation σ α} {f : α → Evaluation σ β}
    (h : NeedsNone α names x) (hf : ∀ a, NeedsNone β more (f a)) : NeedsNone β (names ++ more) (x >>= f) := by
  intro ctx b after hindex hrun
  rcases Run.bind_cases hrun with ⟨_, ⟨⟩, -⟩ | ⟨a, mid, hx, hrest⟩
  obtain ⟨rfl, hmid⟩ := h ctx a mid hindex hx
  exact hf a mid b after hmid hrest

theorem collects_needsNone (host : Host σ) (enter : Node → Evaluation σ Float) (steps : Nat) :
    (Evaluator.actions ⟨host, Source.none, enter, steps⟩).Collects (fun _ => True) NeedsNone where
  ofExcept _ := by
    intro ctx a after hindex hrun
    obtain ⟨-, rfl⟩ := Prod.mk.inj (Option.some.inj hrun)
    exact ⟨rfl, hindex⟩
  bind h hf := h.bind hf
  poll ctx a after hindex hrun := by
    obtain ⟨rfl, -⟩ := poll_eq_some hrun
    exact ⟨rfl, hindex⟩
  draw := by
    rintro ctx a _ hindex ⟨⟩
    exact ⟨rfl, hindex⟩
  name name _ ctx a after hindex hrun := by
    cases (resolve_none_of_unindexed enter (boundIndex?_of_unscoped hindex)).symm.trans hrun

/-- A straight tree that has a value without bindings has no references. -/
theorem references_eq_nil_of_ok {host : Host σ} {steps : Nat} {node : Node} (straight : node.Straight)
    {ctx after : Context σ} {x : Float} (hindex : ctx.index = none)
    (h : evaluate host Source.none steps node ctx = some (.ok x, after)) : node.references = [] := by
  cases steps with
  | zero => cases h
  | succ steps =>
    have hrun := Evaluator.run_eq_walk ⟨host, Source.none, evaluate host Source.none steps, steps⟩ node
    rw [show evaluate host Source.none (steps + 1) node = _ from hrun] at h
    exact ((collects_needsNone host _ steps).walk straight (fun _ _ => trivial) ctx x after hindex h).1

/-! ### What happens on the way -/

namespace Course

/-- The names that were resolved, the first one first. -/
def resolved (course : Course) : List String :=
  course.reverse.filterMap fun
    | .resolved name => some name
    | _ => none

/-- The names that the bindings were asked for, the first one first. -/
def asked (course : Course) : List String :=
  course.reverse.filterMap fun
    | .read name _ _ => some name
    | _ => none

theorem resolved_append (new old : Course) : resolved (new ++ old) = resolved old ++ resolved new := by
  rw [resolved, List.reverse_append, List.filterMap_append]
  rfl

theorem asked_append (new old : Course) : asked (new ++ old) = asked old ++ asked new := by
  rw [asked, List.reverse_append, List.filterMap_append]
  rfl

end Course

/-- Nothing is resolved or read. -/
def Happening.IsStill : Happening → Prop
  | .polled _ | .began | .drawn => True
  | .resolved _ | .read _ _ _ => False

/-- The fault of a name that is resolved too often. -/
def refusal (name : String) (limit : Nat) : Fault :=
  .domain (.recursiveVariable name limit)

/-- What a run through the references `names` adds to its course, and how it ends. -/
structure Traversed (names : List String) (before : Context (Course × σ)) (outcome : Except Fault α)
    (after : Context (Course × σ)) (new : Course) : Prop where
  course : after.world.1 = new ++ before.world.1
  index : after.index = none
  limits : after.limits = before.limits
  counts : ∀ name, after.hits.count name = before.hits.count name + new.resolved.count name
  /-- The first references are resolved, in their order. -/
  resolved : new.resolved <+: names
  /-- The bindings are asked once for each of them, unless it is refused. -/
  asked : new.asked = new.resolved ∨
    ∃ name, new.resolved = new.asked ++ [name] ∧
      outcome = .error (refusal name before.limits.substitutions)
  /-- With a value they all are, and none of them too often. -/
  complete : ∀ a, outcome = .ok a → new.resolved = names ∧
    ∀ name, after.hits.count name ≤ before.limits.substitutions
  /-- A supplier that fails is the last one. -/
  failed : ∀ name fault cancelled, .read name (.value (.error fault)) cancelled ∈ new → outcome = .error fault
  exceeded : ∀ name, before.limits.substitutions < after.hits.count name →
    outcome = .error (refusal name before.limits.substitutions)
  /-- A name is refused because it was resolved too often, or a supplier says so. -/
  refused : ∀ name limit, outcome = .error (refusal name limit) →
    (limit = before.limits.substitutions ∧ limit < after.hits.count name) ∨
    ∃ other cancelled, .read other (.value (.error (refusal name limit))) cancelled ∈ new

/-- Outside of summations, with no name resolved too often so far, the evaluation runs through the names. -/
def Traverses (α : Type) (names : List String) (x : Evaluation (Course × σ) α) : Prop :=
  ∀ ctx, ctx.index = none → (∀ name, ctx.hits.count name ≤ ctx.limits.substitutions) →
    ∃ outcome after new, x ctx = some (outcome, after) ∧ Traversed names ctx outcome after new

theorem Traversed.error {names more : List String} {before after : Context (Course × σ)} {fault : Fault}
    {new : Course} (h : Traversed names before (.error fault : Except Fault α) after new) :
    Traversed (names ++ more) before (.error fault : Except Fault β) after new where
  course := h.course
  index := h.index
  limits := h.limits
  counts := h.counts
  resolved := h.resolved.trans (List.prefix_append names more)
  asked := by
    rcases h.asked with hasked | ⟨name, hresolved, hfault⟩
    · exact .inl hasked
    · exact .inr ⟨name, hresolved, congrArg _ (Except.error.inj hfault)⟩
  complete := nofun
  failed name fault' cancelled hread := congrArg _ (Except.error.inj (h.failed name fault' cancelled hread))
  exceeded name hcount := congrArg _ (Except.error.inj (h.exceeded name hcount))
  refused name limit hfault := h.refused name limit (congrArg _ (Except.error.inj hfault))

/-- One run after another. -/
theorem Traversed.trans {names more : List String} {before mid after : Context (Course × σ)} {a : α}
    {outcome : Except Fault β} {new later : Course}
    (h : Traversed names before (.ok a : Except Fault α) mid new)
    (h' : Traversed more mid outcome after later) :
    Traversed (names ++ more) before outcome after (later ++ new) := by
  have hlimits := h.limits
  have hasked : new.asked = new.resolved := by
    rcases h.asked with hasked | ⟨_, _, ⟨⟩⟩
    exact hasked
  obtain ⟨hresolved, -⟩ := h.complete a rfl
  refine ⟨?_, h'.index, h'.limits.trans hlimits, fun name => ?_, ?_, ?_, fun b hb => ?_,
    fun name fault cancelled hread => ?_, fun name hcount => ?_, fun name limit hfault => ?_⟩
  · rw [h'.course, h.course, List.append_assoc]
  · rw [h'.counts, h.counts, Course.resolved_append, List.count_append, Nat.add_assoc]
  · rw [Course.resolved_append, hresolved]
    exact (List.prefix_append_right_inj names).mpr h'.resolved
  · rw [Course.asked_append, Course.resolved_append, hasked]
    rcases h'.asked with hlater | ⟨name, hlater, hfault⟩
    · exact .inl (by rw [hlater])
    · exact .inr ⟨name, by rw [hlater, List.append_assoc], hlimits ▸ hfault⟩
  · obtain ⟨hlater, hcounts⟩ := h'.complete b hb
    rw [Course.resolved_append, hresolved, hlater]
    exact ⟨rfl, hlimits ▸ hcounts⟩
  · rcases List.mem_append.mp hread with hread | hread
    · exact h'.failed name fault cancelled hread
    · cases h.failed name fault cancelled hread
  · rw [← hlimits] at hcount ⊢
    exact h'.exceeded name hcount
  · rw [← hlimits]
    rcases h'.refused name limit hfault with hcount | ⟨other, cancelled, hread⟩
    · exact .inl hcount
    · exact .inr ⟨other, cancelled, List.mem_append_left new hread⟩

theorem Traverses.bind {names more : List String} {x : Evaluation (Course × σ) α}
    {f : α → Evaluation (Course × σ) β} (h : Traverses α names x) (hf : ∀ a, Traverses β more (f a)) :
    Traverses β (names ++ more) (x >>= f) := by
  intro ctx hindex hcounts
  obtain ⟨outcome, mid, new, hx, hnew⟩ := h ctx hindex hcounts
  cases outcome with
  | error fault => exact ⟨_, mid, new, Run.bind_of_error hx, hnew.error⟩
  | ok a =>
    obtain ⟨-, hmid⟩ := hnew.complete a rfl
    obtain ⟨outcome, after, later, hrest, hlater⟩ := hf a mid hnew.index (hnew.limits ▸ hmid)
    exact ⟨outcome, after, later ++ new, (Run.bind_of_ok hx).trans hrest, hnew.trans hlater⟩

/-- A run that resolves nothing runs through no names. -/
theorem traversed_still {ctx : Context (Course × σ)} (hindex : ctx.index = none)
    (hcounts : ∀ name, ctx.hits.count name ≤ ctx.limits.substitutions) {outcome : Except Fault α}
    {world : Course × σ} {new : Course} (hcourse : world.1 = new ++ ctx.world.1)
    (still : ∀ h ∈ new, h.IsStill) (hfault : ∀ name limit, outcome ≠ .error (refusal name limit)) :
    Traversed [] ctx outcome { ctx with world } new := by
  have hresolved : new.resolved = [] := by
    refine List.filterMap_eq_nil_iff.mpr fun h hh => ?_
    cases h with
    | resolved => exact (still _ (List.mem_reverse.mp hh)).elim
    | _ => rfl
  have hasked : new.asked = [] := by
    refine List.filterMap_eq_nil_iff.mpr fun h hh => ?_
    cases h with
    | read => exact (still _ (List.mem_reverse.mp hh)).elim
    | _ => rfl
  refine ⟨hcourse, hindex, rfl, fun name => ?_, ?_, .inl (hasked.trans hresolved.symm),
    fun _ _ => ⟨hresolved, hcounts⟩, fun _ _ _ hread => (still _ hread).elim,
    fun name hcount => (Nat.not_lt.mpr (hcounts name) hcount).elim,
    fun name limit h => (hfault name limit h).elim⟩
  · rw [hresolved]
    rfl
  · rw [hresolved]

theorem count_hit (ctx : Context ω) (name other : String) :
    (ctx.hit name).hits.count other = ctx.hits.count other + List.count other [name] := by
  simp only [Context.hit, Tally.count_add, List.count_singleton, beq_iff_eq]

section Names

variable {ctx : Context (Course × σ)} (hindex : ctx.index = none)
  (hcounts : ∀ name, ctx.hits.count name ≤ ctx.limits.substitutions) {name : String}
include hindex hcounts

/-- A name that is resolved once more than it may be is refused and not asked for. -/
theorem traversed_refused (hlimit : ctx.limits.substitutions < (ctx.hit name).hits.count name)
    {world : Course × σ} (hcourse : world.1 = [.resolved name] ++ ctx.world.1) :
    Traversed [name] ctx (.error (refusal name ctx.limits.substitutions) : Except Fault α)
      { ctx.hit name with world } [.resolved name] where
  course := hcourse
  index := hindex
  limits := rfl
  counts := count_hit ctx name
  resolved := List.prefix_refl _
  asked := .inr ⟨name, rfl, rfl⟩
  complete := nofun
  failed := by simp
  exceeded other hcount := by
    by_cases h : name = other
    · rw [h]
    · rw [count_hit, List.count_singleton, beq_false_of_ne h] at hcount
      exact (Nat.not_lt.mpr (hcounts other) hcount).elim
  refused other limit hfault := by
    cases hfault
    exact .inl ⟨rfl, hlimit⟩

/-- Any other name is asked for once. -/
theorem traversed_read (hlimit : ¬ ctx.limits.substitutions < (ctx.hit name).hits.count name)
    {world : Course × σ} {found : Lookup} {cancelled : Bool}
    (hcourse : world.1 = [.read name found cancelled, .resolved name] ++ ctx.world.1)
    {outcome : Except Fault Float}
    (hfound : found = .value outcome ∨ found = .unbound ∧ outcome = .error (.unset name)) :
    Traversed [name] ctx outcome { ctx.hit name with world }
      [.read name found cancelled, .resolved name] := by
  have hbelow : ∀ other, (ctx.hit name).hits.count other ≤ ctx.limits.substitutions := by
    intro other
    by_cases h : name = other
    · exact h ▸ Nat.not_lt.mp hlimit
    · rw [count_hit, List.count_singleton, beq_false_of_ne h]
      exact hcounts other
  refine ⟨hcourse, hindex, rfl, count_hit ctx name, List.prefix_refl _, .inl rfl,
    fun _ _ => ⟨rfl, hbelow⟩, fun other fault c hread => ?_,
    fun other hcount => (Nat.not_lt.mpr (hbelow other) hcount).elim, fun other limit hfault => ?_⟩
  · have hread : Happening.read other (.value (.error fault)) c = .read name found cancelled := by
      simpa using hread
    obtain ⟨-, rfl, -⟩ := Happening.read.inj hread
    rcases hfound with hfound | ⟨⟨⟩, -⟩
    exact (Lookup.value.inj hfound).symm
  · rcases hfound with rfl | ⟨-, rfl⟩
    · rw [hfault]
      exact .inr ⟨name, cancelled, List.mem_cons_self⟩
    · cases hfault

end Names

section Noting

variable {host : Host σ} {cancelled : σ → Bool} {v : Bindings σ}
  {enter : Node → Evaluation (Course × σ) Float}

theorem traverses_ofExcept {outcome : Except Fault α} (hop : Operational outcome) :
    Traverses α [] (Run.ofExcept outcome : Evaluation (Course × σ) α) := by
  intro ctx hindex hcounts
  refine ⟨outcome, ctx, [], rfl, traversed_still hindex hcounts rfl nofun fun name limit h => ?_⟩
  cases hop _ h

theorem traverses_poll : Traverses Unit [] (Evaluation.poll host.noted) := by
  intro ctx hindex hcounts
  obtain ⟨outcome, hpoll⟩ : ∃ outcome, Evaluation.poll host.noted ctx =
      some (outcome, { ctx with world := (host.noted.poll ctx.world).2 }) := by
    unfold Evaluation.poll
    rcases host.noted.poll ctx.world with ⟨_ | stop, world⟩
    · exact ⟨_, rfl⟩
    · exact ⟨_, rfl⟩
  obtain ⟨-, hfault⟩ := poll_eq_some hpoll
  refine ⟨outcome, _, [.polled _], hpoll, traversed_still hindex hcounts rfl ?_ fun name limit h => ?_⟩
  · exact List.forall_mem_singleton.mpr trivial
  · cases hfault _ h

theorem traverses_draw : Traverses Float [] (Evaluation.draw host.noted) := by
  intro ctx hindex hcounts
  refine ⟨_, _, [.drawn], rfl, traversed_still hindex hcounts rfl ?_ nofun⟩
  exact List.forall_mem_singleton.mpr trivial

/-- A name that does not stand for a formula is resolved and asked for, or refused. -/
theorem traverses_name {name : String} (hformula : ∀ e, v.get? name ≠ some (.formula e)) :
    Traverses Float [name] (Evaluation.note Happening.onto (.resolved name) >>= fun _ =>
      resolve (v.source.noted cancelled) enter name) := by
  intro ctx hindex hcounts
  let noted : Context (Course × σ) := { ctx with world := Happening.onto (.resolved name) ctx.world }
  have hunindexed : noted.boundIndex? name = none := boundIndex?_of_unscoped hindex
  by_cases hlimit : noted.limits.substitutions < (noted.hit name).hits.count name
  · exact ⟨_, _, [.resolved name], resolve_of_refused _ enter hunindexed hlimit,
      traversed_refused hindex hcounts hlimit rfl⟩
  · rcases hfound : v.source name ctx.world.2 with ⟨found, world⟩
    have hnoted : v.source.noted cancelled name noted.world =
        (found, Happening.onto (.read name found (cancelled world)) (noted.world.1, world)) := by
      simp only [Source.noted, noted, Happening.onto, hfound]
    have hrun := resolve_of_found _ enter hunindexed hlimit hnoted
    cases found with
    | unbound => exact ⟨_, _, _, hrun, traversed_read hindex hcounts hlimit rfl (.inr ⟨rfl, rfl⟩)⟩
    | value outcome => exact ⟨_, _, _, hrun, traversed_read hindex hcounts hlimit rfl (.inl rfl)⟩
    | formula root =>
      obtain ⟨e, he, -⟩ := Bindings.source_eq_formula hfound
      exact (hformula e he).elim

variable (host) (cancelled) in
/-- Every evaluation of a straight tree runs through its references, if none of them stands for a formula. -/
theorem traversed_evaluateNoting {node : Node} (straight : node.Straight)
    (hformula : ∀ name ∈ node.references, ∀ e, v.get? name ≠ some (.formula e)) (steps : Nat) :
    Traverses Float node.references
      (evaluateNoting Happening.onto host.noted (v.source.noted cancelled) (steps + 1) node) := by
  let E : Evaluator (Course × σ) := ⟨host.noted, v.source.noted cancelled,
    evaluateNoting Happening.onto host.noted (v.source.noted cancelled) steps, steps⟩
  have hcollects : (Actions.noting Happening.onto E).Collects
      (fun name => ∀ e, v.get? name ≠ some (.formula e)) Traverses :=
    { ofExcept := traverses_ofExcept
      bind := fun h hf => h.bind hf
      poll := traverses_poll
      draw := traverses_draw
      name := fun name h => traverses_name h }
  exact hcollects.walk straight hformula

end Noting

end Formulae
