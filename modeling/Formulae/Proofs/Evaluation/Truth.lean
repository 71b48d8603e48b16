import Formulae.Proofs.Constancy
import Formulae.Proofs.Equation.Agreement
import Formulae.Proofs.Evaluation.Congruence
import Formulae.Proofs.Runs
import Formulae.Reading.Grammar

/-!
# Proofs.Evaluation.Truth — operands of logic are booleans

Numbers are the only values, and logic accepts those near zero and one. A comparison or a node of logic comes
to one of the two exactly, and so does a tree that only passes such values on. If every operand of logic and
every condition is such a tree, evaluation does not fail for an operand that is no boolean.

* `Node.IsBoolean names`: the tree passes on booleans, where `names` are bound to such trees.
* `Node.Sorted names`: the operands of logic and the conditions in the tree are booleans.
* `yields_run`: a boolean tree comes to zero or one, whatever it is evaluated with.
* `Source.Sorted`, `sound_evaluate`: a sorted tree over sorted formulas never fails with `notBoolean`.
-/

namespace Formulae

open Number Evaluation

variable {σ : Type}

/-- The number is that of a boolean. -/
def IsTruth (x : Float) : Prop :=
  ∃ b, x = ofBool b

/-- Whether the cause is an operand of logic that is no boolean. -/
def Fault.isNotBoolean : Fault → Bool
  | .notBoolean _ => true
  | _ => false

/-- The tree comes to a boolean, if `names` are bound to such trees. -/
inductive Node.IsBoolean (names : String → Prop) : Node → Prop where
  | comparison (op : ComparisonOp) (left right : Node) : IsBoolean names (.comparison op left right)
  | logic (op : LogicOp) (left right : Node) : IsBoolean names (.logic op left right)
  | yes : IsBoolean names (.constant (ofBool true) "true")
  | no : IsBoolean names (.constant (ofBool false) "false")
  | group {inner : Node} (h : IsBoolean names inner) : IsBoolean names (.unary .paren inner)
  | finite {inner : Node} (h : IsBoolean names inner) : IsBoolean names (.finite inner)
  | choice (test : Node) {yes no : Node} (hyes : IsBoolean names yes) (hno : IsBoolean names no) :
      IsBoolean names (.choice test yes no)
  /-- The value of a boolean tree, folded while a text was read. -/
  | folded {τ : Type} {host : Host τ} {steps : Nat} {limits : Limits} {tree : Node} {value : Float}
      {label : String} {reader after : Reader τ} (h : IsBoolean names tree)
      (folds : Reading.fold host steps limits tree reader = some (.ok (.constant value label), after)) :
      IsBoolean names (.constant value label)
  | name {name : String} {inSummation : Bool} (other : name ≠ summationIndex) (bound : names name) :
      IsBoolean names (.reference name inSummation)

/-- Every operand of logic and every condition in the tree is boolean. -/
def Node.Sorted (names : String → Prop) : Node → Prop
  | .number _ | .constant _ _ | .reference _ _ | .random => True
  | .unary _ a | .finite a => a.Sorted names
  | .binary _ a b | .comparison _ a b => a.Sorted names ∧ b.Sorted names
  | .logic _ a b => (a.IsBoolean names ∧ b.IsBoolean names) ∧ a.Sorted names ∧ b.Sorted names
  | .choice a b c => a.IsBoolean names ∧ a.Sorted names ∧ b.Sorted names ∧ c.Sorted names
  | .summation a b c => a.Sorted names ∧ b.Sorted names ∧ c.Sorted names

/-! ### Values of boolean trees -/

theorem toBool_ofBool (b : Bool) : toBool (ofBool b) = .ok b := by
  cases b <;> rfl

theorem eq_of_checkFinite {x y : Float} (h : checkFinite x = .ok y) : y = x := by
  unfold checkFinite at h
  split at h
  · cases h
  · split at h
    · cases h
    · exact (Except.ok.inj h).symm

/-- Where the evaluation comes to a value, the value is as `post` says. -/
def Evaluation.Yields {α : Type} (x : Evaluation σ α) (post : α → Prop) : Prop :=
  ∀ ctx a after, x ctx = some (.ok a, after) → post a

section Yields

variable {α β : Type}

theorem yields_true (x : Evaluation σ α) : x.Yields fun _ => True :=
  fun _ _ _ _ => trivial

theorem yields_ofExcept {outcome : Except Fault α} {post : α → Prop}
    (h : ∀ a, outcome = .ok a → post a) : Yields (Run.ofExcept outcome : Evaluation σ α) post :=
  fun _ a _ hrun => h a (Prod.mk.inj (Option.some.inj hrun)).1

theorem Evaluation.Yields.bind {x : Evaluation σ α} {f : α → Evaluation σ β} {post : α → Prop}
    {post' : β → Prop} (h : x.Yields post) (hf : ∀ a, post a → (f a).Yields post') :
    Yields (x >>= f) post' := by
  intro ctx b after hrun
  rcases Run.bind_cases hrun with ⟨_, ⟨⟩, -⟩ | ⟨a, mid, hx, hrest⟩
  exact hf a (h ctx a mid hx) mid b after hrest

theorem yields_ofBool (b : Bool) : Yields (pure (ofBool b) : Evaluation σ Float) IsTruth := by
  refine yields_ofExcept ?_
  rintro _ ⟨⟩
  exact ⟨b, rfl⟩

/-- A finite truth stays one when it is checked. -/
theorem yields_checkFinite {x : Float} (h : IsTruth x) :
    Yields (Run.ofExcept (checkFinite x) : Evaluation σ Float) IsTruth := by
  refine yields_ofExcept fun y hy => ?_
  rwa [eq_of_checkFinite hy]

/-- Without bindings, no name but the index comes to a value. -/
theorem yields_resolve_none (enter : Node → Evaluation σ Float) {name : String}
    (other : name ≠ summationIndex) (post : Float → Prop) :
    Yields (resolve Source.none enter name) post := by
  intro ctx a after hrun
  have hindex : ctx.boundIndex? name = none := if_neg other
  rw [resolve_none_of_unindexed enter hindex] at hrun
  cases hrun

/-- Folding leaves a node as it is, or puts the value in its place that it has without bindings. -/
theorem Reading.eq_or_constant_of_fold {host : Host σ} {steps : Nat} {limits : Limits} {node out : Node}
    {r after : Reader σ} (h : fold host steps limits node r = some (.ok out, after)) :
    out = node ∨ ∃ value world, out = .constant value (node.render false) ∧
      evaluateFresh host Source.none steps limits node r.world = some (.ok value, world) := by
  unfold fold at h
  split at h
  · cases h
    exact .inl rfl
  · split at h
    · cases h
    · rename_i value world hrun
      cases h
      exact .inr ⟨value, world, rfl, hrun⟩
    · cases h
    · cases h
      exact .inl rfl

/-- A boolean tree comes to a boolean if its names do. -/
theorem Node.IsBoolean.yields_run {names : String → Prop} {node : Node} (h : node.IsBoolean names)
    (E : Evaluator σ)
    (hname : ∀ name, names name → name ≠ summationIndex →
      Yields (resolve E.source E.enter name) IsTruth) : Yields (E.run node) IsTruth := by
  induction h generalizing σ with
  | comparison op a b =>
    exact (yields_true _).bind fun _ _ => (yields_true _).bind fun _ _ => (yields_true _).bind
      fun _ _ => yields_ofBool _
  | logic op a b =>
    exact (yields_true _).bind fun _ _ => (yields_true _).bind fun _ _ => (yields_true _).bind
      fun _ _ => (yields_true _).bind fun _ _ => (yields_true _).bind fun _ _ => yields_ofBool _
  | yes => exact yields_ofBool true
  | no => exact yields_ofBool false
  | group _ ih =>
    exact (yields_true _).bind fun _ _ => (ih E hname).bind fun x hx => yields_checkFinite hx
  | finite _ ih =>
    exact (yields_true _).bind fun _ _ => (ih E hname).bind fun x hx => yields_checkFinite hx
  | choice test _ _ ihyes ihno =>
    refine (yields_true _).bind fun _ _ => (yields_true _).bind fun _ _ => (yields_true _).bind ?_
    rintro p -
    cases p with
    | true => exact ihyes E hname
    | false => exact ihno E hname
  | @folded τ host steps limits tree value label reader after _ folds ih =>
    rcases Reading.eq_or_constant_of_fold folds with htree | ⟨value', world, hconstant, hvalue⟩
    · rw [htree]
      exact ih E hname
    · cases hconstant
      rw [evaluateFresh_eq_map, Option.map_eq_some_iff] at hvalue
      obtain ⟨⟨outcome, ctx⟩, hrun, heq⟩ := hvalue
      obtain rfl : outcome = .ok value := (Prod.mk.inj heq).1
      cases steps with
      | zero => cases hrun
      | succ steps =>
        -- it was evaluated without bindings, so nothing depends on what the names are bound to
        have hvalue := ih ⟨host, Source.none, evaluate host Source.none steps, steps⟩
          (fun _ _ other => yields_resolve_none _ other IsTruth) _ _ _ hrun
        obtain ⟨b, rfl⟩ := hvalue
        exact yields_ofBool b
  | name other bound => exact (yields_true _).bind fun _ _ => hname _ bound other

end Yields

/-! ### How evaluations are put together -/

/-- The outcome is no complaint about an operand of logic. -/
def Sensible {α : Type} (outcome : Except Fault α) : Prop :=
  ∀ fault, outcome = .error fault → fault.isNotBoolean = false

/-- Where the index has a value if the evaluation stands in a body (`inBody`), it comes to what `post` says
or to a fault that is no complaint about an operand of logic, and leaves the index as it is. -/
def Evaluation.Sound {α : Type} (inBody : Bool) (x : Evaluation σ α) (post : α → Prop) : Prop :=
  ∀ ctx : Context σ, (inBody = true → ctx.index.isSome = true) →
    Run.Meets x ctx (fun a after => post a ∧ after.index = ctx.index) fun fault => fault.isNotBoolean = false

section Sound

variable {α β : Type} {inBody : Bool} {x : Evaluation σ α} {post : α → Prop} {post' : β → Prop}

theorem sensible_checkFinite (x : Float) : Sensible (checkFinite x) := by
  unfold checkFinite
  split
  · rintro _ ⟨⟩
    rfl
  · split
    · rintro _ ⟨⟩
      rfl
    · exact nofun

theorem sensible_apply (op : BinaryOp) (x y : Float) : Sensible (op.apply x y) := by
  cases op with
  | div =>
    show Sensible (if y == 0.0 then _ else _)
    split
    · rintro _ ⟨⟩
      rfl
    · exact nofun
  | _ => exact nofun

theorem sound_ofExcept {outcome : Except Fault α} (h : Sensible outcome) :
    Sound inBody (Run.ofExcept outcome : Evaluation σ α) fun _ => True := by
  intro ctx _
  cases outcome with
  | ok a => exact ⟨trivial, rfl⟩
  | error fault => exact h fault rfl

theorem sound_pure (a : α) : Sound inBody (pure a : Evaluation σ α) fun _ => True :=
  fun _ _ => ⟨trivial, rfl⟩

theorem sound_exhausted : Sound inBody (Run.exhausted : Evaluation σ α) post :=
  fun _ _ => trivial

theorem sound_fail {fault : Fault} (h : fault.isNotBoolean = false) :
    Sound inBody (Run.fail fault : Evaluation σ α) post :=
  fun _ _ => h

theorem sound_read (f : Context σ → α) : Sound inBody (Run.read f) fun _ => True :=
  fun _ _ => ⟨trivial, rfl⟩

theorem Evaluation.Sound.bind {f : α → Evaluation σ β} (h : Sound inBody x post)
    (hf : ∀ a, post a → Sound inBody (f a) post') : Sound inBody (x >>= f) post' := by
  intro ctx hindex
  refine (h ctx hindex).bind ?_
  rintro a mid ⟨ha, heq⟩
  refine (hf a ha mid (heq ▸ hindex)).mono ?_
  rintro b after ⟨hb, heq'⟩
  exact ⟨hb, heq'.trans heq⟩

/-- What the evaluation yields may be used behind it. -/
theorem Evaluation.Sound.of_yields {post' : α → Prop} (h : Sound inBody x post) (hx : x.Yields post') :
    Sound inBody x post' := by
  intro ctx hindex
  have hmeets := h ctx hindex
  unfold Run.Meets at hmeets ⊢
  rcases hrun : x ctx with _ | ⟨fault | a, after⟩
  · trivial
  · rw [hrun] at hmeets
    exact hmeets
  · rw [hrun] at hmeets
    exact ⟨hx ctx a after hrun, hmeets.2⟩

theorem sound_poll (host : Host σ) : Sound inBody (poll host) fun _ => True := by
  intro ctx _
  unfold Run.Meets
  rcases hrun : poll host ctx with _ | ⟨fault | _, after⟩
  · trivial
  · have hstop := (poll_eq_some hrun).2 fault rfl
    cases fault with
    | interrupted => rfl
    | _ => cases hstop
  · exact ⟨trivial, by rw [(poll_eq_some hrun).1]⟩

theorem sound_draw (host : Host σ) : Sound inBody (draw host) fun _ => True :=
  fun _ _ => ⟨trivial, rfl⟩

theorem sound_inScope (index : Float) (h : Sound true x post) : Sound inBody (inScope index x) post := by
  intro ctx _
  have hbody := h (ctx.within index) fun _ => rfl
  unfold Run.Meets at hbody ⊢
  rw [inScope_eq_map]
  rcases hx : x (ctx.within index) with _ | ⟨fault | a, inner⟩
  · trivial
  · rw [hx] at hbody
    exact hbody
  · rw [hx] at hbody
    exact ⟨hbody.1, rfl⟩

/-- An operand of logic that comes to a boolean is accepted. -/
theorem sound_toBool {x : Float} (h : IsTruth x) :
    Sound inBody (Run.ofExcept (toBool x) : Evaluation σ Bool) fun _ => True := by
  obtain ⟨b, rfl⟩ := h
  rw [toBool_ofBool]
  exact sound_pure b

end Sound

/-! ### Names, loops and trees -/

/-- In the body of a summation its index has a value. -/
theorem sound_index (source : Source σ) (enter : Node → Evaluation σ Float) :
    Sound true (resolve source enter summationIndex) fun _ => True := by
  intro ctx hindex
  obtain ⟨index, hsome⟩ := Option.isSome_iff_exists.mp (hindex rfl)
  have hbound : ctx.boundIndex? summationIndex = some index := by
    rw [Context.boundIndex?, if_pos rfl, hsome]
  unfold Run.Meets
  rw [resolve_of_index source enter hbound]
  exact ⟨trivial, rfl⟩

theorem sound_resolve {source : Source σ} {enter : Node → Evaluation σ Float} {name : String}
    {inBody : Bool} (honest : ∀ world x, (source name world).1 ≠ .value (.error (.notBoolean x)))
    (henter : ∀ world root, (source name world).1 = .formula root →
      Sound inBody (enter root) fun _ => True) :
    Sound inBody (resolve source enter name) fun _ => True := by
  intro ctx hctx
  unfold Run.Meets
  rcases hindex : ctx.boundIndex? name with _ | index
  · by_cases hlimit : ctx.limits.substitutions < (ctx.hit name).hits.count name
    · rw [resolve_of_refused source enter hindex hlimit]
      rfl
    · rcases hfound : source name ctx.world with ⟨found, world⟩
      rw [resolve_of_found source enter hindex hlimit hfound]
      have hsource : (source name ctx.world).1 = found := by rw [hfound]
      cases found with
      | unbound => rfl
      | value outcome =>
        cases outcome with
        | ok x => exact ⟨trivial, rfl⟩
        | error fault =>
          cases fault with
          | notBoolean x => exact (honest ctx.world x hsource).elim
          | _ => rfl
      | formula root => exact henter ctx.world root hsource { ctx.hit name with world } hctx
  · rw [resolve_of_index source enter hindex]
    exact ⟨trivial, rfl⟩

theorem sound_iterate {host : Host σ} {lower upper : Float} {body : Evaluation σ Float} {inBody : Bool}
    (hbody : Sound true body fun _ => True) (steps step : Nat) (total : Float) :
    Sound inBody (iterate host lower upper body steps step total) fun _ => True := by
  induction steps generalizing step total with
  | zero => exact sound_exhausted
  | succ steps ih =>
    unfold iterate
    by_cases habove : upper < lower + Float.ofNat step
    · simp only [habove, if_true]
      exact sound_ofExcept (sensible_checkFinite total)
    · simp only [habove, if_false]
      exact (sound_poll host).bind fun _ _ => (sound_inScope _ hbody).bind fun value _ => ih _ _

theorem sound_sumOver {host : Host σ} {lower upper : Float} {body : Evaluation σ Float} {inBody : Bool}
    (hbody : Sound true body fun _ => True) (steps : Nat) :
    Sound inBody (sumOver host steps lower upper body) fun _ => True := by
  unfold sumOver
  by_cases hbounds : upper < lower
  · simp only [hbounds, if_true]
    exact sound_fail rfl
  · simp only [hbounds, if_false]
    refine (sound_read _).bind fun limit _ => ?_
    by_cases hlong : (0 < limit && Float.ofNat limit < summationLength lower upper) = true
    · simp only [hlong, if_true]
      exact sound_fail rfl
    · simp only [hlong]
      exact sound_iterate hbody steps 0 0.0

section Trees

variable {E : Evaluator σ} {names : String → Prop}
  (hname : ∀ name, names name → name ≠ summationIndex → Yields (resolve E.source E.enter name) IsTruth)
include hname

/-- A sorted tree is sound if the names in it are. -/
theorem sound_run (node : Node) (inBody : Bool) (h : node.Sorted names)
    (hleaf : ∀ leaf ∈ node.leaves inBody, ∀ name inSummation, leaf.1 = .reference name inSummation →
      Sound leaf.2 (resolve E.source E.enter name) fun _ => True) :
    Sound inBody (E.run node) fun _ => True := by
  have hpoll : ∀ {inBody}, Sound inBody (poll E.host) fun _ => True := sound_poll E.host
  induction node generalizing inBody with
  | number value => exact sound_pure value
  | constant value label => exact sound_pure value
  | random => exact sound_draw E.host
  | reference name inSummation =>
    exact hpoll.bind fun _ _ => hleaf _ (List.mem_singleton_self _) name inSummation rfl
  | unary op a ih =>
    exact hpoll.bind fun _ _ => (ih inBody h hleaf).bind fun _ _ =>
      sound_ofExcept (sensible_checkFinite _)
  | finite a ih =>
    exact hpoll.bind fun _ _ => (ih inBody h hleaf).bind fun _ _ =>
      sound_ofExcept (sensible_checkFinite _)
  | binary op a b iha ihb =>
    obtain ⟨ha, hb⟩ := List.forall_mem_append.mp hleaf
    exact hpoll.bind fun _ _ => (iha inBody h.1 ha).bind fun x _ => (ihb inBody h.2 hb).bind fun y _ =>
      (sound_ofExcept (sensible_apply op x y)).bind fun _ _ => sound_ofExcept (sensible_checkFinite _)
  | comparison op a b iha ihb =>
    obtain ⟨ha, hb⟩ := List.forall_mem_append.mp hleaf
    exact hpoll.bind fun _ _ => (iha inBody h.1 ha).bind fun _ _ => (ihb inBody h.2 hb).bind fun _ _ =>
      sound_pure _
  | logic op a b iha ihb =>
    obtain ⟨ha, hb⟩ := List.forall_mem_append.mp hleaf
    obtain ⟨⟨truthA, truthB⟩, sortedA, sortedB⟩ := h
    have hx := (iha inBody sortedA ha).of_yields (truthA.yields_run E hname)
    have hy := (ihb inBody sortedB hb).of_yields (truthB.yields_run E hname)
    exact hpoll.bind fun _ _ => hx.bind fun _ truth => (sound_toBool truth).bind fun _ _ =>
      hy.bind fun _ truth => (sound_toBool truth).bind fun _ _ => sound_pure _
  | choice a b c iha ihb ihc =>
    obtain ⟨hab, hc⟩ := List.forall_mem_append.mp hleaf
    obtain ⟨ha, hb⟩ := List.forall_mem_append.mp hab
    obtain ⟨truth, sortedA, sortedB, sortedC⟩ := h
    have hx := (iha inBody sortedA ha).of_yields (truth.yields_run E hname)
    refine hpoll.bind fun _ _ => hx.bind fun _ truth => (sound_toBool truth).bind fun p _ => ?_
    cases p with
    | true => exact ihb inBody sortedB hb
    | false => exact ihc inBody sortedC hc
  | summation a b c iha ihb ihc =>
    obtain ⟨hab, hc⟩ := List.forall_mem_append.mp hleaf
    obtain ⟨ha, hb⟩ := List.forall_mem_append.mp hab
    exact hpoll.bind fun _ _ => (iha inBody h.1 ha).bind fun _ _ => (ihb inBody h.2.1 hb).bind
      fun _ _ => sound_sumOver (ihc true h.2.2 hc) E.steps

end Trees

/-! ### Whole evaluations -/

/-- What a name comes to is a boolean, if it comes to anything but a fault. -/
def Lookup.IsBoolean (names : String → Prop) : Lookup → Prop
  | .unbound => True
  | .value outcome => ∀ x, outcome ≠ .ok x
  | .formula root => root.IsBoolean names

/-- The source supplies booleans for `names`, and every tree that evaluation gets to through it is sorted. A
tree is kept with whether it stands in the body of a summation; there its index is no name to be supplied. -/
structure Source.Sorted (source : Source σ) (names : String → Prop) (reached : Bool → Node → Prop) :
    Prop where
  truth : ∀ name world, names name → name ≠ summationIndex → (source name world).1.IsBoolean names
  honest : ∀ name world x, (source name world).1 ≠ .value (.error (.notBoolean x))
  sorted : ∀ inBody node, reached inBody node → node.Sorted names
  closed : ∀ {inBody node name inSummation within world root}, reached inBody node →
    (.reference name inSummation, within) ∈ node.leaves inBody →
    ¬ (within = true ∧ name = summationIndex) → (source name world).1 = .formula root →
    reached within root

section Evaluate

variable {host : Host σ} {source : Source σ} {names : String → Prop} {reached : Bool → Node → Prop}

/-- Names that are bound to boolean trees yield booleans. -/
theorem yields_resolve {name : String} (truth : ∀ world, (source name world).1.IsBoolean names)
    {enter : Node → Evaluation σ Float} (other : name ≠ summationIndex)
    (henter : ∀ root : Node, root.IsBoolean names → Yields (enter root) IsTruth) :
    Yields (resolve source enter name) IsTruth := by
  intro ctx x after hrun
  have hindex : ctx.boundIndex? name = none := if_neg other
  by_cases hlimit : ctx.limits.substitutions < (ctx.hit name).hits.count name
  · rw [resolve_of_refused source enter hindex hlimit] at hrun
    cases hrun
  · rcases hfound : source name ctx.world with ⟨found, world⟩
    have htruth := truth ctx.world
    rw [hfound] at htruth
    rw [resolve_of_found source enter hindex hlimit hfound] at hrun
    cases found with
    | unbound => cases hrun
    | value outcome =>
      cases hrun
      exact (htruth x rfl).elim
    | formula root => exact henter root htruth _ _ _ hrun

/-- A boolean tree comes to zero or one. -/
theorem yields_evaluate
    (truth : ∀ name world, names name → name ≠ summationIndex → (source name world).1.IsBoolean names)
    (steps : Nat) {node : Node} (h : node.IsBoolean names) :
    Yields (evaluate host source steps node) IsTruth := by
  induction steps generalizing node with
  | zero => exact nofun
  | succ steps ih =>
    exact h.yields_run ⟨host, source, evaluate host source steps, steps⟩ fun name bound other =>
      yields_resolve (fun world => truth name world bound other) other fun root hroot => ih hroot

variable (host) in
/-- A sorted tree over sorted formulas never fails for an operand of logic that is no boolean. -/
theorem sound_evaluate (h : source.Sorted names reached) (steps : Nat) {inBody : Bool} {node : Node}
    (hnode : reached inBody node) : Sound inBody (evaluate host source steps node) fun _ => True := by
  induction steps generalizing inBody node with
  | zero => exact sound_exhausted
  | succ steps ih =>
    refine sound_run (E := ⟨host, source, evaluate host source steps, steps⟩)
      (fun name bound other => yields_resolve (fun world => h.truth name world bound other) other
        fun root hroot => yields_evaluate h.truth steps hroot)
      node inBody (h.sorted inBody node hnode) ?_
    rintro ⟨leaf, within⟩ hmem name inSummation rfl
    by_cases hindex : within = true ∧ name = summationIndex
    · obtain ⟨rfl, rfl⟩ := hindex
      exact sound_index source _
    · exact sound_resolve (h.honest name) fun world root hroot => ih (h.closed hnode hmem hindex hroot)

/-- Counting a source keeps all of that. -/
theorem Source.Sorted.counted (h : source.Sorted names reached) (limit : Nat) (isBound : String → Bool) :
    (Equation.counted limit isBound source).Sorted names reached := by
  constructor
  · intro name w bound other
    rcases Equation.counted_cases limit isBound source name w with hfound | hfound | hfound
    · rw [hfound]
      trivial
    · rw [hfound]
      exact nofun
    · rw [hfound]
      exact h.truth name w.2 bound other
  · intro name w x
    rcases Equation.counted_cases limit isBound source name w with hfound | hfound | hfound
    · rw [hfound]
      exact nofun
    · rw [hfound]
      exact nofun
    · rw [hfound]
      exact h.honest name w.2 x
  · exact h.sorted
  · intro inBody node name inSummation within w root hnode hmem hindex hroot
    rcases Equation.counted_cases limit isBound source name w with hfound | hfound | hfound
    · rw [hfound] at hroot
      cases hroot
    · rw [hfound] at hroot
      cases hroot
    · rw [hfound] at hroot
      exact h.closed hnode hmem hindex hroot

end Evaluate

end Formulae
