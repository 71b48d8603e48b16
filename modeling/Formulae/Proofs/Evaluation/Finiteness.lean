import Formulae.Equation
import Formulae.Proofs.Literals
import Formulae.Proofs.Number.Finite
import Formulae.Proofs.Quiet
import Formulae.Proofs.Runs

/-!
# Proofs.Evaluation.Finiteness — evaluations come to finite numbers

Functions and arithmetic check their results; values, names and indices do not. They are finite because
of where they come from: the numbers of a tree from the text, values from sources that check them, and the
index of a summation from below its upper bound.

* `Node.AllFinite`, `Source.Finite`, `Context.FiniteIndex`: the three places.
* `Evaluation.Comes`: what an evaluation comes to, in a context with a finite index.
* `Evaluator.comes_run`, `evaluate_comes`: a tree of finite numbers comes to a finite number.
* `Evaluation.Checked`: whatever the context is like, the result was checked. Parentheses around such a tree
  check it once more, which changes nothing (`Evaluator.run_paren`).
-/

namespace Formulae

open Number Evaluation

variable {σ : Type}

/-- The host draws numbers from zero, inclusive, to one, exclusive. -/
def Host.Uniform (host : Host σ) : Prop :=
  ∀ world, 0.0 ≤ (host.random world).1 ∧ (host.random world).1 < 1.0

theorem Host.Uniform.onSecond {host : Host σ} (uniform : host.Uniform) (τ : Type) :
    (host.onSecond τ).Uniform :=
  fun world => uniform world.2

/-- So does the host of the program. -/
theorem Deadline.uniform_host (d : Deadline) : d.host.Uniform := by
  intro world
  refine ofNat_div_mem_unit ?_
  have hbits := (World.mix (world.seed + 0x9E3779B97F4A7C15)).toNat_lt
  rw [Nat.shiftRight_eq_div_pow]
  omega

/-- All numbers of the tree are finite. -/
abbrev Node.AllFinite (node : Node) : Prop :=
  node.Numbers fun x => x.isFinite = true

/-- What a lookup yields is finite: a value itself, a formula in all of its numbers. -/
def Lookup.Finite : Lookup → Prop
  | .unbound => True
  | .value outcome => ∀ x, outcome = .ok x → x.isFinite = true
  | .formula root => root.AllFinite

/-- Whatever the source yields is finite. -/
def Source.Finite (source : Source σ) : Prop :=
  ∀ name world, (source name world).1.Finite

/-- The index of the summation around is finite, if there is one. -/
def Context.FiniteIndex (ctx : Context σ) : Prop :=
  ∀ index, ctx.index = some index → index.isFinite = true

theorem finiteIndex_fresh (limits : Limits) (world : σ) : (Context.fresh limits world).FiniteIndex :=
  nofun

theorem finiteIndex_of_eq {ctx after : Context σ} (h : ctx.FiniteIndex)
    (heq : after.index = ctx.index) : after.FiniteIndex :=
  fun index hindex => h index (heq ▸ hindex)

theorem finiteIndex_within (ctx : Context σ) {index : Float} (h : index.isFinite = true) :
    (ctx.within index).FiniteIndex := by
  rintro _ ⟨⟩
  exact h

/-! ### Bindings -/

/-- Values and supplied values are checked, so bindings yield what is finite if their formulas are. -/
theorem Bindings.finite_source {v : Bindings σ}
    (h : ∀ name e, v.get? name = some (.formula e) → e.root.AllFinite) : v.source.Finite := by
  intro name world
  unfold Bindings.source
  rcases hb : v.get? name with _ | b
  · trivial
  · cases b with
    | value x => exact fun y => isFinite_of_checkFinite
    | supplier ask =>
      intro y hy
      have hchecked : (ask world).1.bind checkFinite = .ok y := hy
      rcases hask : (ask world).1 with fault | x
      · rw [hask] at hchecked
        cases hchecked
      · rw [hask] at hchecked
        exact isFinite_of_checkFinite hchecked
    | formula e => exact h name e hb

/-- Counting keeps that. -/
theorem Source.Finite.counted {source : Source σ} (h : source.Finite) (limit : Nat)
    (isBound : String → Bool) : (Equation.counted limit isBound source).Finite := by
  rintro name ⟨tally, world⟩
  unfold Equation.counted
  cases isBound name with
  | false => trivial
  | true =>
    simp only [if_true]
    by_cases hlimit : limit ≤ (tally.add name).count name
    · simp only [hlimit, if_true]
      exact nofun
    · simp only [hlimit, if_false]
      exact h name world

/-! ### How evaluations are put together -/

/-- In a context with a finite index the evaluation comes to what `post` says, if to anything but a fault,
and leaves the index as it is. -/
def Evaluation.Comes {α : Type} (x : Evaluation σ α) (post : α → Prop) : Prop :=
  ∀ ctx : Context σ, ctx.FiniteIndex →
    Run.Meets x ctx (fun a after => post a ∧ after.index = ctx.index) fun _ => True

section Comes

variable {α β : Type} {x : Evaluation σ α} {post : α → Prop} {post' : β → Prop}

theorem comes_ofExcept {outcome : Except Fault α} (h : ∀ a, outcome = .ok a → post a) :
    Comes (Run.ofExcept outcome : Evaluation σ α) post := by
  intro ctx _
  cases outcome with
  | ok a => exact ⟨h a rfl, rfl⟩
  | error fault => trivial

theorem comes_pure {a : α} (h : post a) : Comes (pure a : Evaluation σ α) post :=
  fun _ _ => ⟨h, rfl⟩

theorem comes_fail (fault : Fault) : Comes (Run.fail fault : Evaluation σ α) post :=
  fun _ _ => trivial

theorem comes_read (f : Context σ → α) : Comes (Run.read f) fun _ => True :=
  fun _ _ => ⟨trivial, rfl⟩

theorem comes_exhausted : Comes (Run.exhausted : Evaluation σ α) post :=
  fun _ _ => trivial

theorem Evaluation.Comes.bind {f : α → Evaluation σ β} (h : Comes x post)
    (hf : ∀ a, post a → Comes (f a) post') : Comes (x >>= f) post' := by
  intro ctx hindex
  refine (h ctx hindex).bind ?_
  rintro a after ⟨ha, heq⟩
  refine (hf a ha after (finiteIndex_of_eq hindex heq)).mono ?_
  rintro b last ⟨hb, heq'⟩
  exact ⟨hb, heq'.trans heq⟩

theorem comes_poll (host : Host σ) : Comes (poll host) fun _ => True := by
  intro ctx _
  unfold Run.Meets
  rcases hrun : poll host ctx with _ | ⟨fault | _, after⟩
  · trivial
  · trivial
  · exact ⟨trivial, by rw [(poll_eq_some hrun).1]⟩

theorem comes_draw {host : Host σ} (uniform : host.Uniform) :
    Comes (draw host) fun x => x.isFinite = true := by
  intro ctx _
  obtain ⟨hlow, hhigh⟩ := uniform ctx.world
  exact ⟨isFinite_of_mem_unit hlow hhigh, rfl⟩

theorem comes_inScope {index : Float} (hindex : index.isFinite = true) (h : Comes x post) :
    Comes (inScope index x) post := by
  intro ctx _
  have hbody := h (ctx.within index) (finiteIndex_within ctx hindex)
  unfold Run.Meets at hbody ⊢
  rw [inScope_eq_map]
  rcases hx : x (ctx.within index) with _ | ⟨fault | a, inner⟩
  · trivial
  · trivial
  · rw [hx] at hbody
    exact ⟨hbody.1, rfl⟩

end Comes

/-! ### Names, loops and trees -/

theorem comes_resolve {source : Source σ} (hsource : source.Finite) {enter : Node → Evaluation σ Float}
    (henter : ∀ root : Node, root.AllFinite → Comes (enter root) fun x => x.isFinite = true)
    (name : String) : Comes (resolve source enter name) fun x => x.isFinite = true := by
  intro ctx hctx
  unfold Run.Meets
  rcases hindex : ctx.boundIndex? name with _ | index
  · by_cases hlimit : ctx.limits.substitutions < (ctx.hit name).hits.count name
    · rw [resolve_of_refused source enter hindex hlimit]
      trivial
    · rcases hfound : source name ctx.world with ⟨found, world⟩
      have hfinite : found.Finite := by
        have := hsource name ctx.world
        rwa [hfound] at this
      rw [resolve_of_found source enter hindex hlimit hfound]
      cases found with
      | unbound => trivial
      | value outcome =>
        cases outcome with
        | ok x => exact ⟨hfinite x rfl, rfl⟩
        | error fault => trivial
      | formula root => exact henter root hfinite { ctx.hit name with world } hctx
  · rw [resolve_of_index source enter hindex]
    have hn : name = summationIndex ∧ ctx.index = some index := by
      unfold Context.boundIndex? at hindex
      split at hindex
      · exact ⟨‹_›, hindex⟩
      · cases hindex
    exact ⟨hctx index hn.2, rfl⟩

/-- The indices of a loop are finite, since they do not pass its upper bound. -/
theorem comes_iterate {host : Host σ} {lower upper : Float} {body : Evaluation σ Float}
    {post : Float → Prop} (hlower : lower.isFinite = true) (hupper : upper.isFinite = true)
    (hbody : Comes body post) (steps step : Nat) (total : Float) :
    Comes (iterate host lower upper body steps step total) fun x => x.isFinite = true := by
  induction steps generalizing step total with
  | zero => exact comes_exhausted
  | succ steps ih =>
    unfold iterate
    by_cases habove : upper < lower + Float.ofNat step
    · simp only [habove, if_true]
      exact comes_ofExcept fun x => isFinite_of_checkFinite
    · simp only [habove, if_false]
      have hindex := isFinite_add_ofNat hlower hupper habove
      exact (comes_poll host).bind fun _ _ => (comes_inScope hindex hbody).bind fun value _ => ih _ _

theorem comes_sumOver {host : Host σ} {lower upper : Float} {body : Evaluation σ Float}
    {post : Float → Prop} (hlower : lower.isFinite = true) (hupper : upper.isFinite = true)
    (hbody : Comes body post) (steps : Nat) :
    Comes (sumOver host steps lower upper body) fun x => x.isFinite = true := by
  unfold sumOver
  by_cases hbounds : upper < lower
  · simp only [hbounds, if_true]
    exact comes_fail _
  · simp only [hbounds, if_false]
    refine (comes_read _).bind fun limit _ => ?_
    by_cases hlong : (0 < limit && Float.ofNat limit < summationLength lower upper) = true
    · simp only [hlong, if_true]
      exact comes_fail _
    · simp only [hlong]
      exact comes_iterate hlower hupper hbody steps 0 0.0

section Trees

variable {E : Evaluator σ} (uniform : E.host.Uniform) (hsource : E.source.Finite)
  (henter : ∀ root : Node, root.AllFinite → Comes (E.enter root) fun x => x.isFinite = true)
include uniform hsource henter

/-- A tree of finite numbers comes to a finite number. -/
theorem Evaluator.comes_run (node : Node) (h : node.AllFinite) :
    Comes (E.run node) fun x => x.isFinite = true := by
  have hpoll := comes_poll E.host
  induction node with
  | number value => exact comes_pure h
  | constant value label => exact comes_pure h
  | reference name inSummation => exact hpoll.bind fun _ _ => comes_resolve hsource henter name
  | random => exact comes_draw uniform
  | unary op a ih =>
    refine hpoll.bind fun _ _ => (ih h).bind fun x _ => ?_
    exact comes_ofExcept fun y => isFinite_of_checkFinite
  | finite a ih =>
    refine hpoll.bind fun _ _ => (ih h).bind fun x _ => ?_
    exact comes_ofExcept fun y => isFinite_of_checkFinite
  | binary op a b iha ihb =>
    refine hpoll.bind fun _ _ => (iha h.1).bind fun x _ => (ihb h.2).bind fun y _ => ?_
    have happly : Comes (Run.ofExcept (op.apply x y) : Evaluation σ Float) fun _ => True :=
      comes_ofExcept fun _ _ => trivial
    exact happly.bind fun z _ => comes_ofExcept fun w => isFinite_of_checkFinite
  | comparison op a b iha ihb =>
    refine hpoll.bind fun _ _ => (iha h.1).bind fun x _ => (ihb h.2).bind fun y _ => ?_
    exact comes_pure (isFinite_ofBool _)
  | logic op a b iha ihb =>
    have htruth : ∀ x, Comes (Run.ofExcept (toBool x) : Evaluation σ Bool) fun _ => True :=
      fun x => comes_ofExcept fun _ _ => trivial
    refine hpoll.bind fun _ _ => (iha h.1).bind fun x _ => (htruth x).bind fun p _ => ?_
    refine (ihb h.2).bind fun y _ => (htruth y).bind fun q _ => ?_
    exact comes_pure (isFinite_ofBool _)
  | choice a b c iha ihb ihc =>
    have htruth : ∀ x, Comes (Run.ofExcept (toBool x) : Evaluation σ Bool) fun _ => True :=
      fun x => comes_ofExcept fun _ _ => trivial
    refine hpoll.bind fun _ _ => (iha h.1).bind fun x _ => (htruth x).bind fun p _ => ?_
    cases p with
    | true => exact ihb h.2.1
    | false => exact ihc h.2.2
  | summation a b c iha ihb ihc =>
    refine hpoll.bind fun _ _ => (iha h.1).bind fun lower hlower => ?_
    refine (ihb h.2.1).bind fun upper hupper => ?_
    exact comes_sumOver hlower hupper (ihc h.2.2) E.steps

end Trees

/-- The same with the formulas that names stand for. -/
theorem evaluate_comes {host : Host σ} (uniform : host.Uniform) {source : Source σ}
    (hsource : source.Finite) (steps : Nat) (node : Node) (h : node.AllFinite) :
    Comes (evaluate host source steps node) fun x => x.isFinite = true := by
  induction steps generalizing node with
  | zero => exact comes_exhausted
  | succ steps ih =>
    exact Evaluator.comes_run (E := ⟨host, source, evaluate host source steps, steps⟩) uniform hsource ih
      node h

theorem isFinite_of_evaluate {host : Host σ} (uniform : host.Uniform) {source : Source σ}
    (hsource : source.Finite) {steps : Nat} {node : Node} (h : node.AllFinite) {ctx after : Context σ}
    (hctx : ctx.FiniteIndex) {x : Float}
    (hx : evaluate host source steps node ctx = some (.ok x, after)) :
    x.isFinite = true ∧ after.index = ctx.index := by
  have hmeets := evaluate_comes uniform hsource steps node h ctx hctx
  unfold Run.Meets at hmeets
  rwa [hx] at hmeets

/-! ### Results that were checked -/

/-- The evaluation comes to finite numbers only, whatever flows into it. -/
def Evaluation.Checked (x : Evaluation σ Float) : Prop :=
  ∀ ctx y after, x ctx = some (.ok y, after) → y.isFinite = true

theorem checked_ofExcept {outcome : Except Fault Float}
    (h : ∀ y, outcome = .ok y → y.isFinite = true) : Checked (Run.ofExcept outcome : Evaluation σ Float) :=
  fun _ y _ hrun => h y (Prod.mk.inj (Option.some.inj hrun)).1

theorem checked_checkFinite (x : Float) :
    Checked (Run.ofExcept (checkFinite x) : Evaluation σ Float) :=
  checked_ofExcept fun _ => isFinite_of_checkFinite

theorem checked_ofBool (b : Bool) : Checked (pure (ofBool b) : Evaluation σ Float) := by
  refine checked_ofExcept ?_
  rintro _ ⟨⟩
  exact isFinite_ofBool b

/-- What was checked last was checked. -/
theorem checked_bind {α : Type} {x : Evaluation σ α} {f : α → Evaluation σ Float}
    (hf : ∀ a, Checked (f a)) : Checked (x >>= f) := by
  intro ctx y after hrun
  rw [Run.bind_apply] at hrun
  split at hrun
  · exact hf _ _ _ _ hrun
  · cases hrun
  · cases hrun

section Parentheses

variable {E : Evaluator σ}

theorem Evaluator.checked_unary (op : UnaryOp) (a : Node) : Checked (E.run (.unary op a)) :=
  checked_bind fun _ => checked_bind fun _ => checked_checkFinite _

theorem Evaluator.checked_finite (a : Node) : Checked (E.run (.finite a)) :=
  checked_bind fun _ => checked_bind fun _ => checked_checkFinite _

theorem Evaluator.checked_binary (op : BinaryOp) (a b : Node) : Checked (E.run (.binary op a b)) :=
  checked_bind fun _ => checked_bind fun _ => checked_bind fun _ => checked_bind fun _ =>
    checked_checkFinite _

theorem Evaluator.checked_comparison (op : ComparisonOp) (a b : Node) :
    Checked (E.run (.comparison op a b)) :=
  checked_bind fun _ => checked_bind fun _ => checked_bind fun _ => checked_ofBool _

theorem Evaluator.checked_logic (op : LogicOp) (a b : Node) : Checked (E.run (.logic op a b)) :=
  checked_bind fun _ => checked_bind fun _ => checked_bind fun _ => checked_bind fun _ =>
    checked_bind fun _ => checked_ofBool _

/-- A checked result passes the check of the parentheses. -/
theorem Evaluator.run_paren (quiet : E.host.Quiet) {node : Node} (h : Checked (E.run node)) :
    E.run (.unary .paren node) = E.run node := by
  funext ctx
  have hpoll := poll_of_quiet quiet ctx
  have hparen : E.run (.unary .paren node) ctx =
      (E.run node >>= fun x => Run.ofExcept (checkFinite x)) ctx := Run.bind_of_ok hpoll
  rw [hparen]
  rcases hrun : E.run node ctx with _ | ⟨fault | x, after⟩
  · exact Run.bind_of_none hrun
  · exact Run.bind_of_error hrun
  · rw [Run.bind_of_ok hrun, checkFinite_of_isFinite (h ctx x after hrun)]
    rfl

end Parentheses

end Formulae
