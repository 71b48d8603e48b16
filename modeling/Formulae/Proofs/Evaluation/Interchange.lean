import Formulae.Proofs.Evaluation.Settled
import Formulae.Proofs.Refolding

/-!
# Proofs.Evaluation.Interchange — trees that may stand for each other

Two trees are interchangeable under given limits if, given enough steps, either comes to whatever the other
one comes to, in every context and in the same world. A tree is interchangeable with what folding makes of
it (`interchangeable_of_refold`).

`Lifts.congruence` is what passes a relation between evaluations from subtrees to trees of the same shape.
-/

namespace Formulae

open Evaluation

variable {σ : Type}

/-- Under the limits, `y` comes to whatever `x` comes to, and leaves the same context. -/
def Extends (limits : Limits) (α : Type) (x y : Evaluation σ α) : Prop :=
  ∀ ctx, ctx.limits = limits → ∀ outcome after, x ctx = some (outcome, after) →
    after.limits = limits ∧ y ctx = some (outcome, after)

section Extends

variable {limits : Limits} {α β : Type} {x y z : Evaluation σ α}

theorem Extends.left (h : Extends limits α x y) : Extends limits α x x :=
  fun ctx hl outcome after hx => ⟨(h ctx hl outcome after hx).1, hx⟩

theorem Extends.trans (h : Extends limits α x y) (h' : Extends limits α y z) :
    Extends limits α x z := by
  intro ctx hl outcome after hx
  obtain ⟨-, hy⟩ := h ctx hl outcome after hx
  exact h' ctx hl outcome after hy

theorem Extends.bind {f g : α → Evaluation σ β} (h : Extends limits α x y)
    (hf : ∀ a, Extends limits β (f a) (g a)) : Extends limits β (x >>= f) (y >>= g) := by
  intro ctx hl outcome after hrun
  rw [Run.bind_apply] at hrun
  split at hrun
  · rename_i a mid hx
    obtain ⟨hmid, hy⟩ := h ctx hl _ _ hx
    rw [Run.bind_of_ok hy]
    exact hf a mid hmid outcome after hrun
  · rename_i fault mid hx
    obtain ⟨hmid, hy⟩ := h ctx hl _ _ hx
    obtain ⟨rfl, rfl⟩ := Prod.mk.inj (Option.some.inj hrun)
    exact ⟨hmid, Run.bind_of_error hy⟩
  · cases hrun

/-- An evaluation that always ends and keeps the limits extends itself. -/
theorem extends_of_keeps (h : ∀ ctx, ∃ outcome after, x ctx = some (outcome, after) ∧
    after.limits = ctx.limits) : Extends limits α x x := by
  intro ctx hl outcome after hx
  obtain ⟨outcome', after', hx', hafter⟩ := h ctx
  obtain ⟨-, rfl⟩ := Prod.mk.inj (Option.some.inj (hx'.symm.trans hx))
  exact ⟨hafter.trans hl, hx⟩

theorem extends_inScope (index : Float) {x y : Evaluation σ Float}
    (h : Extends limits Float x y) : Extends limits Float (inScope index x) (inScope index y) := by
  intro ctx hl outcome after hrun
  unfold inScope at hrun
  split at hrun
  · rename_i outcome' inner hx
    obtain ⟨rfl, rfl⟩ := Prod.mk.inj (Option.some.inj hrun)
    obtain ⟨-, hy⟩ := h (ctx.within index) hl _ _ hx
    refine ⟨hl, ?_⟩
    unfold inScope
    rw [hy]
  · cases hrun

end Extends

/-- Under the limits, `E'` has `k` steps more than `E`, and names come to whatever they come to for `E`. -/
structure Evaluator.Below (limits : Limits) (k : Nat) (E E' : Evaluator σ) : Prop where
  quiet : E.host.Quiet
  host : E'.host = E.host
  steps : E.steps + k ≤ E'.steps
  names : ∀ name, Extends limits Float (resolve E.source E.enter name)
    (resolve E'.source E'.enter name)

theorem Evaluator.Below.lifts {limits : Limits} {k : Nat} {E E' : Evaluator σ}
    (h : E.Below limits k E') : Lifts E E' (· ≤ ·) (Extends limits) where
  ofExcept _ := extends_of_keeps fun ctx => ⟨_, ctx, rfl, rfl⟩
  bind := Extends.bind
  limit := extends_of_keeps fun ctx => ⟨_, ctx, rfl, rfl⟩
  poll := by
    rw [h.host]
    exact extends_of_keeps fun ctx => ⟨_, ctx, poll_of_quiet h.quiet ctx, rfl⟩
  inScope := extends_inScope
  exhausted _ _ := by
    intro ctx hl outcome after hrun
    cases hrun
  succ {m n} h := ⟨n - 1, by omega, by omega⟩
  steps := by have := h.steps; omega

/-- A relation that loops and scopes keep passes from subtrees to trees, if it holds between random numbers
and between names. -/
theorem Lifts.congruence {τ : Type} {E : Evaluator σ} {E' : Evaluator τ} {more : Nat → Nat → Prop}
    {R : ∀ α : Type, Evaluation σ α → Evaluation τ α → Prop} (h : Lifts E E' more R)
    (hdraw : R Float (draw E.host) (draw E'.host))
    (hname : ∀ name, R Float (resolve E.source E.enter name) (resolve E'.source E'.enter name)) :
    Node.Congruence fun a b => R Float (E.run a) (E'.run b) where
  leaf node leaf := by
    cases node with
    | number | constant => exact h.ofExcept (operational_ok _)
    | random => exact hdraw
    | reference name inSummation => exact h.composes.reference name inSummation (hname name)
    | _ => cases leaf
  unary op _ _ := h.composes.unary op
  binary op _ _ _ _ := h.composes.binary op
  comparison op _ _ _ _ := h.composes.comparison op
  logic op _ _ _ _ := h.composes.logic op
  choice := h.composes.choice
  summation ha hb hc := h.composes.summation ha hb fun index => h.inScope index hc
  finite := h.composes.finite

theorem Evaluator.Below.congruence {limits : Limits} {k : Nat} {E E' : Evaluator σ}
    (h : E.Below limits k E') :
    Node.Congruence fun a b => Extends limits Float (E.run a) (E'.run b) := by
  refine h.lifts.congruence ?_ h.names
  rw [h.host]
  exact extends_of_keeps fun ctx => ⟨_, _, rfl, rfl⟩

/-! ### Simulation and interchange -/

/-- Under the limits, `b` comes to whatever `a` comes to, if it is given `k` steps more. -/
structure Simulates (limits : Limits) (k : Nat) (a b : Node) : Prop where
  run : ∀ {σ : Type} {E E' : Evaluator σ}, E.Below limits k E' →
    Extends limits Float (E.run a) (E'.run b)

/-- Under the limits, each of the trees comes to whatever the other one comes to. -/
def Interchangeable (limits : Limits) (a b : Node) : Prop :=
  ∃ k, Simulates limits k a b ∧ Simulates limits k b a

section Simulates

variable {limits : Limits} {k k' : Nat} {a a' b b' c c' : Node}

theorem Simulates.mono (h : Simulates limits k a b) (hk : k ≤ k') : Simulates limits k' a b :=
  ⟨fun below => h.run
    { below with steps := Nat.le_trans (Nat.add_le_add_left hk _) below.steps }⟩

theorem Simulates.trans (h : Simulates limits k a b) (h' : Simulates limits k' b c) :
    Simulates limits (k + k') a c := by
  refine ⟨fun {σ E E'} below => ?_⟩
  have hsteps := below.steps
  have hab : E.Below limits k { E with steps := E.steps + k } :=
    ⟨below.quiet, rfl, Nat.le_refl _, fun name => (below.names name).left⟩
  have hbc : Evaluator.Below limits k' { E with steps := E.steps + k } E' :=
    { below with steps := by show E.steps + k + k' ≤ E'.steps; omega }
  exact (h.run hab).trans (h'.run hbc)

theorem congruence_simulates (limits : Limits) (k : Nat) : Node.Congruence (Simulates limits k) where
  leaf node h := ⟨fun below => below.congruence.leaf node h⟩
  unary op _ _ ha := ⟨fun below => below.congruence.unary op (ha.run below)⟩
  binary op _ _ _ _ ha hb := ⟨fun below => below.congruence.binary op (ha.run below) (hb.run below)⟩
  comparison op _ _ _ _ ha hb :=
    ⟨fun below => below.congruence.comparison op (ha.run below) (hb.run below)⟩
  logic op _ _ _ _ ha hb := ⟨fun below => below.congruence.logic op (ha.run below) (hb.run below)⟩
  choice ha hb hc :=
    ⟨fun below => below.congruence.choice (ha.run below) (hb.run below) (hc.run below)⟩
  summation ha hb hc :=
    ⟨fun below => below.congruence.summation (ha.run below) (hb.run below) (hc.run below)⟩
  finite ha := ⟨fun below => below.congruence.finite (ha.run below)⟩

/-- Every tree simulates itself without a step more. -/
theorem Simulates.refl (limits : Limits) (node : Node) : Simulates limits 0 node node :=
  (congruence_simulates limits 0).refl node

end Simulates

namespace Interchangeable

variable {limits : Limits} {a a' b b' c c' : Node}

theorem refl (limits : Limits) (node : Node) : Interchangeable limits node node :=
  ⟨0, .refl limits node, .refl limits node⟩

theorem symm (h : Interchangeable limits a b) : Interchangeable limits b a := by
  obtain ⟨k, hab, hba⟩ := h
  exact ⟨k, hba, hab⟩

theorem trans (h : Interchangeable limits a b) (h' : Interchangeable limits b c) :
    Interchangeable limits a c := by
  obtain ⟨k, hab, hba⟩ := h
  obtain ⟨k', hbc, hcb⟩ := h'
  exact ⟨k + k', hab.trans hbc, (hcb.trans hba).mono (by omega)⟩

/-- A kind of node that keeps simulations of its subtrees keeps interchange. -/
theorem map {f : Node → Node}
    (hf : ∀ k {a a'}, Simulates limits k a a' → Simulates limits k (f a) (f a'))
    (ha : Interchangeable limits a a') : Interchangeable limits (f a) (f a') := by
  obtain ⟨k, h, h'⟩ := ha
  exact ⟨k, hf k h, hf k h'⟩

theorem map₂ {f : Node → Node → Node}
    (hf : ∀ k {a a' b b'}, Simulates limits k a a' → Simulates limits k b b' →
      Simulates limits k (f a b) (f a' b'))
    (ha : Interchangeable limits a a') (hb : Interchangeable limits b b') :
    Interchangeable limits (f a b) (f a' b') := by
  obtain ⟨j, ha, ha'⟩ := ha
  obtain ⟨k, hb, hb'⟩ := hb
  exact ⟨j + k, hf _ (ha.mono (by omega)) (hb.mono (by omega)),
    hf _ (ha'.mono (by omega)) (hb'.mono (by omega))⟩

theorem map₃ {f : Node → Node → Node → Node}
    (hf : ∀ k {a a' b b' c c'}, Simulates limits k a a' → Simulates limits k b b' →
      Simulates limits k c c' → Simulates limits k (f a b c) (f a' b' c'))
    (ha : Interchangeable limits a a') (hb : Interchangeable limits b b')
    (hc : Interchangeable limits c c') : Interchangeable limits (f a b c) (f a' b' c') := by
  obtain ⟨i, ha, ha'⟩ := ha
  obtain ⟨j, hb, hb'⟩ := hb
  obtain ⟨k, hc, hc'⟩ := hc
  exact ⟨i + j + k, hf _ (ha.mono (by omega)) (hb.mono (by omega)) (hc.mono (by omega)),
    hf _ (ha'.mono (by omega)) (hb'.mono (by omega)) (hc'.mono (by omega))⟩

theorem congruence (limits : Limits) : Node.Congruence (Interchangeable limits) where
  leaf node _ := refl limits node
  unary op _ _ := map fun k => (congruence_simulates limits k).unary op
  binary op _ _ _ _ := map₂ fun k => (congruence_simulates limits k).binary op
  comparison op _ _ _ _ := map₂ fun k => (congruence_simulates limits k).comparison op
  logic op _ _ _ _ := map₂ fun k => (congruence_simulates limits k).logic op
  choice := map₃ fun k => (congruence_simulates limits k).choice
  summation := map₃ fun k => (congruence_simulates limits k).summation
  finite := map fun k => (congruence_simulates limits k).finite

end Interchangeable

/-! ### What folding makes of a tree -/

section Folding

variable {limits : Limits} {steps : Nat} {node out : Node}

/-- What folding makes of a node, when it makes something of it. -/
theorem eq_or_constant_of_settle (h : settle steps limits node = some out) :
    out = node ∨ ∃ value after, out = .constant value (node.render false) ∧
      node.isConstant = true ∧
      evaluate Host.idle Source.none steps node (Context.fresh limits ()) =
        some (.ok value, after) := by
  unfold settle at h
  split at h
  · rename_i hc
    rw [Bool.and_eq_true] at hc
    split at h
    · rename_i value after hrun
      exact .inr ⟨value, after, (Option.some.inj h).symm, hc.1, hrun⟩
    · exact .inl (Option.some.inj h).symm
    · cases h
  · exact .inl (Option.some.inj h).symm

/-- A constant tree that has a value may be replaced by the value. -/
theorem interchangeable_constant {value : Float} {after : Context Unit} (label : String)
    (hc : node.isConstant = true)
    (hrun : evaluate Host.idle Source.none steps node (Context.fresh limits ()) =
      some (.ok value, after)) : Interchangeable limits node (.constant value label) := by
  rw [Node.isConstant_eq_isClosed] at hc
  obtain ⟨s, rfl⟩ : ∃ s, steps = s + 1 := by
    cases steps with
    | zero => cases hrun
    | succ s => exact ⟨s, rfl⟩
  have hvalue : ∀ {σ : Type} (E : Evaluator σ), E.host.Quiet → s ≤ E.steps →
      ∀ ctx, ctx.limits = limits → E.run node ctx = some (.ok value, ctx) := by
    intro σ E quiet hsteps ctx hl
    have htransfers := (lifts_transfers quiet E.source (evaluate Host.idle Source.none s) E.enter
      hsteps).closed (transfers_resolve _ E.source E.enter) hc
    exact (htransfers _ _ _ hrun).2 ctx ⟨hl, fun i hi => by cases hi⟩
  refine ⟨s, ⟨fun {σ E E'} below => ?_⟩, ⟨fun {σ E E'} below => ?_⟩⟩
  · -- with enough steps the tree has its value, and more steps change no outcome
    intro ctx hl outcome after' hnode
    have hmore : E.Below limits 0 { E with steps := E.steps + s } :=
      ⟨below.quiet, rfl, Nat.le_add_right _ _, fun name => (below.names name).left⟩
    obtain ⟨-, hrun'⟩ := (Simulates.refl limits node).run hmore ctx hl outcome after' hnode
    have hvalue' := hvalue { E with steps := E.steps + s } below.quiet (Nat.le_add_left _ _) ctx hl
    obtain ⟨rfl, rfl⟩ := Prod.mk.inj (Option.some.inj (hvalue'.symm.trans hrun'))
    exact ⟨hl, rfl⟩
  · intro ctx hl outcome after' hnode
    obtain ⟨rfl, rfl⟩ := Prod.mk.inj (Option.some.inj hnode)
    have hsteps := below.steps
    exact ⟨hl, hvalue E' (below.host ▸ below.quiet) (by omega) ctx hl⟩

theorem interchangeable_of_settle (h : settle steps limits node = some out) :
    Interchangeable limits node out := by
  obtain rfl | ⟨value, after, rfl, hc, hrun⟩ := eq_or_constant_of_settle h
  · exact .refl limits out
  · exact interchangeable_constant _ hc hrun

/-- A tree is interchangeable with what folding makes of it. -/
theorem interchangeable_of_refold (h : node.refold (settle steps limits) = some out) :
    Interchangeable limits node out :=
  (Interchangeable.congruence limits).refold (fun hmid hs => hmid.trans (interchangeable_of_settle hs))
    h

/-! ### Folding keeps the text and constancy -/

theorem congruence_isConstant : Node.Congruence fun a b => b.isConstant = a.isConstant := by
  constructor <;> simp_all

theorem isConstant_of_settle (h : settle steps limits node = some out) :
    out.isConstant = node.isConstant := by
  obtain rfl | ⟨value, after, rfl, hc, -⟩ := eq_or_constant_of_settle h
  · rfl
  · rw [hc, Node.isConstant_constant]

theorem isConstant_of_refold (h : node.refold (settle steps limits) = some out) :
    out.isConstant = node.isConstant :=
  congruence_isConstant.refold (fun hmid hs => (isConstant_of_settle hs).trans hmid) h

/-- The text of a formula is that of the tree below its outermost node. -/
theorem render_finite (node : Node) : (Node.finite node).render false = node.render false := by
  cases node <;> rfl

theorem congruence_render :
    Node.Congruence fun a b => b.render false = a.render false := by
  constructor <;> simp_all [Node.render, render_finite]

theorem render_of_settle (h : settle steps limits node = some out) :
    out.render false = node.render false := by
  obtain rfl | ⟨value, after, rfl, -, -⟩ := eq_or_constant_of_settle h <;> rfl

theorem render_of_refold (h : node.refold (settle steps limits) = some out) :
    out.render false = node.render false :=
  congruence_render.refold (fun hmid hs => (render_of_settle hs).trans hmid) h

end Folding

end Formulae
