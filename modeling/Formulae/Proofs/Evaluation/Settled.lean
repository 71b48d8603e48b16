import Formulae.Proofs.Evaluation.Congruence
import Formulae.Proofs.Quiet
import Formulae.Reading.Grammar

/-!
# Proofs.Evaluation.Settled — constant trees come to the same everywhere

A constant tree is evaluated for folding in a fresh context without bindings. What it comes to there does
not depend on the world (`Mirrors`), and a value that it has there it has in every context, under every
source (`Transfers`): it reads no binding, no count and no index from outside of itself.

* `settle`: what folding makes of a node, with nothing but a bound on the steps and the limits.
* `fold_of_quiet`: folding under a quiet host does just that.
-/

namespace Formulae

open Evaluation

variable {σ : Type}

/-- The context in a world instead of the empty one. -/
def Context.over (ctx : Context Unit) (world : σ) : Context σ :=
  ⟨ctx.hits, ctx.index, ctx.limits, world⟩

namespace Evaluation

/-! ### No dependence on the world -/

/-- In any world, `y` comes to what `x` comes to in the empty one, which is no interruption. -/
def Mirrors (α : Type) (x : Evaluation Unit α) (y : Evaluation σ α) : Prop :=
  ∀ ctx world,
    match x ctx with
    | some (outcome, after) => Calm outcome ∧ y (ctx.over world) = some (outcome, after.over world)
    | none => y (ctx.over world) = none

theorem Mirrors.bind {α β : Type} {x : Evaluation Unit α} {y : Evaluation σ α}
    {f : α → Evaluation Unit β} {g : α → Evaluation σ β} (h : Mirrors α x y)
    (hf : ∀ a, Mirrors β (f a) (g a)) : Mirrors β (x >>= f) (y >>= g) := by
  intro ctx world
  have hx := h ctx world
  rw [Run.bind_apply]
  rcases hrun : x ctx with _ | ⟨fault | a, after⟩
  · rw [hrun] at hx
    exact Run.bind_of_none hx
  · rw [hrun] at hx
    refine ⟨?_, Run.bind_of_error hx.2⟩
    rintro _ ⟨⟩
    exact hx.1 fault rfl
  · rw [hrun] at hx
    rw [Run.bind_of_ok hx.2]
    exact hf a after world

theorem mirrors_inScope (index : Float) {x : Evaluation Unit Float} {y : Evaluation σ Float}
    (h : Mirrors Float x y) : Mirrors Float (inScope index x) (inScope index y) := by
  intro ctx world
  have hx := h (ctx.within index) world
  have hwithin : (ctx.over world).within index = (ctx.within index).over world := rfl
  unfold inScope
  rw [hwithin]
  rcases hrun : x (ctx.within index) with _ | ⟨outcome, after⟩
  · rw [hrun] at hx
    simp only [hx]
  · rw [hrun] at hx
    exact ⟨hx.1, by simp only [hx.2]; rfl⟩

/-- Without bindings a name comes to the same in every world. -/
theorem mirrors_resolve (enter : Node → Evaluation Unit Float) (enter' : Node → Evaluation σ Float)
    (name : String) : Mirrors Float (resolve Source.none enter name)
      (resolve Source.none enter' name) := by
  intro ctx world
  have hindex : (ctx.over world).boundIndex? name = ctx.boundIndex? name := rfl
  rcases h : ctx.boundIndex? name with _ | index
  · rw [resolve_none_of_unindexed _ h, resolve_none_of_unindexed _ (hindex.trans h)]
    refine ⟨?_, rfl⟩
    rintro _ ⟨⟩
    split <;> rfl
  · rw [resolve_of_index _ _ h, resolve_of_index _ _ (hindex.trans h)]
    exact ⟨calm_ok _, rfl⟩

theorem lifts_mirrors {host : Host σ} (quiet : host.Quiet) (enter : Node → Evaluation Unit Float)
    (enter' : Node → Evaluation σ Float) (steps : Nat) :
    Lifts ⟨Host.idle, Source.none, enter, steps⟩ ⟨host, Source.none, enter', steps⟩ Eq Mirrors where
  ofExcept h := fun _ _ => ⟨h.calm, rfl⟩
  bind := Mirrors.bind
  limit := fun _ _ => ⟨calm_ok _, rfl⟩
  poll := fun ctx world => ⟨calm_ok _, poll_of_quiet quiet _⟩
  inScope := mirrors_inScope
  exhausted h hn := by
    rw [hn h.symm]
    exact fun _ _ => rfl
  succ h := ⟨_, h.symm, rfl⟩
  steps := rfl

/-- A constant tree comes to the same in every world, if nothing is bound. -/
theorem mirrors_evaluate {host : Host σ} (quiet : host.Quiet) (steps : Nat) {node : Node}
    (hc : node.isConstant = true) :
    Mirrors Float (evaluate Host.idle Source.none steps node)
      (evaluate host Source.none steps node) := by
  cases steps with
  | zero => exact fun _ _ => rfl
  | succ steps =>
    rw [Node.isConstant_eq_isClosed] at hc
    exact (lifts_mirrors quiet _ _ steps).closed (mirrors_resolve _ _) hc

/-! ### No dependence on the context -/

/-- The contexts agree on the limits and on the index as far as the first one has it. -/
structure Fits (ctx : Context Unit) (ctx' : Context σ) : Prop where
  limits : ctx'.limits = ctx.limits
  index : ∀ i, ctx.index = some i → ctx'.index = some i

/-- A value that `x` comes to, `y` comes to as well; neither of them changes the context. -/
def Transfers (α : Type) (x : Evaluation Unit α) (y : Evaluation σ α) : Prop :=
  ∀ ctx a after, x ctx = some (.ok a, after) →
    after = ctx ∧ ∀ ctx', Fits ctx ctx' → y ctx' = some (.ok a, ctx')

theorem Transfers.bind {α β : Type} {x : Evaluation Unit α} {y : Evaluation σ α}
    {f : α → Evaluation Unit β} {g : α → Evaluation σ β} (h : Transfers α x y)
    (hf : ∀ a, Transfers β (f a) (g a)) : Transfers β (x >>= f) (y >>= g) := by
  intro ctx b after hrun
  rw [Run.bind_apply] at hrun
  split at hrun
  · rename_i a mid hx
    obtain ⟨rfl, hy⟩ := h ctx a mid hx
    obtain ⟨rfl, hg⟩ := hf a _ b after hrun
    refine ⟨rfl, fun ctx' hfits => ?_⟩
    rw [Run.bind_of_ok (hy ctx' hfits)]
    exact hg ctx' hfits
  · cases hrun
  · cases hrun

theorem transfers_inScope (index : Float) {x : Evaluation Unit Float} {y : Evaluation σ Float}
    (h : Transfers Float x y) : Transfers Float (inScope index x) (inScope index y) := by
  intro ctx a after hrun
  unfold inScope at hrun
  split at hrun
  · rename_i outcome inner hx
    obtain ⟨rfl, rfl⟩ := Prod.mk.inj (Option.some.inj hrun)
    obtain ⟨-, hy⟩ := h (ctx.within index) a inner hx
    refine ⟨rfl, fun ctx' hfits => ?_⟩
    have hwithin : Fits (ctx.within index) (ctx'.within index) := ⟨hfits.limits, fun _ hi => hi⟩
    unfold inScope
    rw [hy _ hwithin]
    rfl
  · cases hrun

/-- Without bindings, only the index of a summation has a value. -/
theorem transfers_resolve (enter : Node → Evaluation Unit Float) (source : Source σ)
    (enter' : Node → Evaluation σ Float) (name : String) :
    Transfers Float (resolve Source.none enter name) (resolve source enter' name) := by
  intro ctx a after hrun
  rcases hindex : ctx.boundIndex? name with _ | index
  · rw [resolve_none_of_unindexed _ hindex] at hrun
    cases hrun
  · rw [resolve_of_index _ _ hindex] at hrun
    obtain ⟨ha, rfl⟩ := Prod.mk.inj (Option.some.inj hrun)
    obtain rfl := Except.ok.inj ha
    refine ⟨rfl, fun ctx' hfits => resolve_of_index _ _ ?_⟩
    unfold Context.boundIndex? at hindex ⊢
    split at hindex
    · rw [if_pos ‹_›]
      exact hfits.index index hindex
    · cases hindex

theorem lifts_transfers {host : Host σ} (quiet : host.Quiet) (source : Source σ)
    (enter : Node → Evaluation Unit Float) (enter' : Node → Evaluation σ Float) {m n : Nat}
    (hmn : m ≤ n) :
    Lifts ⟨Host.idle, Source.none, enter, m⟩ ⟨host, source, enter', n⟩ (· ≤ ·) Transfers where
  ofExcept _ := by
    intro ctx a after hrun
    obtain ⟨ha, rfl⟩ := Prod.mk.inj (Option.some.inj hrun)
    exact ⟨rfl, fun ctx' _ => by rw [ha]; rfl⟩
  bind := Transfers.bind
  limit := by
    intro ctx a after hrun
    obtain ⟨ha, rfl⟩ := Prod.mk.inj (Option.some.inj hrun)
    obtain rfl := Except.ok.inj ha
    exact ⟨rfl, fun ctx' hfits => by rw [Run.read_apply, hfits.limits]⟩
  poll := by
    intro ctx a after hrun
    obtain ⟨-, rfl⟩ := Prod.mk.inj (Option.some.inj hrun)
    exact ⟨rfl, fun ctx' _ => poll_of_quiet quiet ctx'⟩
  inScope := transfers_inScope
  exhausted _ _ := by
    intro ctx a after hrun
    cases hrun
  succ {m n} h := ⟨n - 1, by omega, by omega⟩
  steps := hmn

end Evaluation

/-! ### What folding makes of a node -/

/-- The node, or its value if it is constant and has one; nothing where the steps do not suffice. -/
def settle (steps : Nat) (limits : Limits) (node : Node) : Option Node :=
  if node.isConstant && !node.isLiteral then
    match evaluate Host.idle Source.none steps node (Context.fresh limits ()) with
    | some (.ok value, _) => some (.constant value (node.render false))
    | some (.error _, _) => some node
    | none => none
  else some node

/-- Folding a constant node under a quiet host settles it and leaves the world as it is. -/
theorem Reading.fold_of_quiet {host : Host σ} (quiet : host.Quiet) (steps : Nat) (limits : Limits)
    {node : Node} (hc : node.isConstant = true) (r : Reader σ) :
    fold host steps limits node r = (settle steps limits node).map fun node => (.ok node, r) := by
  have hmirror := mirrors_evaluate quiet steps hc (Context.fresh limits ()) r.world
  unfold fold settle
  rw [hc]
  cases hl : node.isLiteral with
  | true => rfl
  | false =>
    unfold evaluateFresh
    rcases hrun : evaluate Host.idle Source.none steps node (Context.fresh limits ()) with
      _ | ⟨fault | value, after⟩
    · rw [hrun] at hmirror
      have hnone : evaluate host Source.none steps node (Context.fresh limits r.world) = none :=
        hmirror
      simp [hnone]
    · rw [hrun] at hmirror
      have hsome : evaluate host Source.none steps node (Context.fresh limits r.world) =
          some (.error fault, after.over r.world) := hmirror.2
      have hcalm := hmirror.1 fault rfl
      simp only [hsome]
      cases fault with
      | interrupted => cases hcalm
      | _ => rfl
    · rw [hrun] at hmirror
      have hsome : evaluate host Source.none steps node (Context.fresh limits r.world) =
          some (.ok value, after.over r.world) := hmirror.2
      simp only [hsome]
      rfl

end Formulae
