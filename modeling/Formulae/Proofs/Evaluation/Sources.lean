import Formulae.Equation
import Formulae.Proofs.Evaluation.Interchange

/-!
# Proofs.Evaluation.Sources — evaluations under sources that may stand for each other

* `Source.Simulates`: in every world, the second source supplies what the first one does; a formula may be
  one that simulates that of the first.
* `evaluate_extends`: given `k` steps more, evaluations under such sources come to the same.
* `evaluate_mono`, `evaluate_unique`: more steps change nothing.
-/

namespace Formulae

open Evaluation

variable {σ : Type} {limits : Limits} {k : Nat}

/-- The lookups agree, up to a formula that simulates that of the first one. -/
inductive Lookup.Simulates (limits : Limits) (k : Nat) : Lookup → Lookup → Prop where
  | unbound : Simulates limits k .unbound .unbound
  | value (outcome : Except Fault Float) : Simulates limits k (.value outcome) (.value outcome)
  | formula {root root' : Node} (h : Formulae.Simulates limits k root root') :
      Simulates limits k (.formula root) (.formula root')

/-- The sources agree in every world, up to formulas that simulate those of the first one. -/
def Source.Simulates (limits : Limits) (k : Nat) (source source' : Source σ) : Prop :=
  ∀ name world, (source' name world).2 = (source name world).2 ∧
    Lookup.Simulates limits k (source name world).1 (source' name world).1

/-- Names come to the same if what they stand for does. -/
theorem Source.Simulates.resolve {source source' : Source σ} {enter enter' : Node → Evaluation σ Float}
    (h : Source.Simulates limits k source source')
    (henter : ∀ a b, Formulae.Simulates limits k a b → Extends limits Float (enter a) (enter' b))
    (name : String) :
    Extends limits Float (resolve source enter name) (Evaluation.resolve source' enter' name) := by
  intro ctx hl outcome after hrun
  rcases hindex : ctx.boundIndex? name with _ | index
  · rw [resolve_of_unindexed _ _ hindex] at hrun ⊢
    by_cases hlimit : ctx.limits.substitutions < (ctx.hit name).hits.count name
    · rw [if_pos hlimit] at hrun ⊢
      obtain ⟨rfl, rfl⟩ := Prod.mk.inj (Option.some.inj hrun)
      exact ⟨hl, rfl⟩
    · rw [if_neg hlimit] at hrun ⊢
      obtain ⟨hworld, hlookup⟩ := h name ctx.world
      rcases hs : source name ctx.world with ⟨found, world⟩
      rcases hs' : source' name ctx.world with ⟨found', world'⟩
      rw [hs] at hrun hworld hlookup
      rw [hs'] at hworld hlookup
      obtain rfl : world' = world := hworld
      cases hlookup with
      | unbound =>
        obtain ⟨rfl, rfl⟩ := Prod.mk.inj (Option.some.inj hrun)
        exact ⟨hl, rfl⟩
      | value found =>
        obtain ⟨rfl, rfl⟩ := Prod.mk.inj (Option.some.inj hrun)
        exact ⟨hl, rfl⟩
      | formula hroot => exact henter _ _ hroot { ctx.hit name with world := world' } hl outcome after hrun
  · rw [resolve_of_index _ _ hindex] at hrun ⊢
    obtain ⟨rfl, rfl⟩ := Prod.mk.inj (Option.some.inj hrun)
    exact ⟨hl, rfl⟩

/-- Given `k` steps more, a tree that simulates another one comes to the same under a source that
simulates that of the other one. -/
theorem evaluate_extends {host : Host σ} (quiet : host.Quiet) {source source' : Source σ}
    (hsource : Source.Simulates limits k source source') (m n : Nat) (hmn : m + k ≤ n) (a b : Node)
    (hab : Simulates limits k a b) :
    Extends limits Float (evaluate host source m a) (evaluate host source' n b) := by
  induction m generalizing n a b with
  | zero =>
    intro ctx hl outcome after hrun
    cases hrun
  | succ m ih =>
    obtain ⟨n, rfl⟩ : ∃ j, n = j + 1 := ⟨n - 1, by omega⟩
    have hbelow : Evaluator.Below limits k ⟨host, source, evaluate host source m, m⟩
        ⟨host, source', evaluate host source' n, n⟩ :=
      ⟨quiet, rfl, by show m + k ≤ n; omega, hsource.resolve (ih n (by omega))⟩
    exact hab.run hbelow

/-- The same for evaluations that start in a fresh context. -/
theorem evaluateFresh_of_simulates {host : Host σ} (quiet : host.Quiet) {source source' : Source σ}
    (hsource : Source.Simulates limits k source source') {a b : Node} (hab : Simulates limits k a b)
    {steps : Nat} {world : σ} {result : Except Fault Float × σ}
    (h : evaluateFresh host source steps limits a world = some result) :
    evaluateFresh host source' (steps + k) limits b world = some result := by
  unfold evaluateFresh at h ⊢
  rcases hrun : evaluate host source steps a (Context.fresh limits world) with
    _ | ⟨outcome, after⟩
  · rw [hrun] at h
    cases h
  · obtain ⟨-, hrun'⟩ := evaluate_extends quiet hsource steps (steps + k) (Nat.le_refl _) a b hab
      (Context.fresh limits world) rfl outcome after hrun
    rw [hrun] at h
    rw [hrun']
    exact h

theorem Source.Simulates.refl (limits : Limits) (source : Source σ) :
    Source.Simulates limits 0 source source := by
  intro name world
  refine ⟨rfl, ?_⟩
  rcases (source name world).1 with _ | outcome | root
  · exact .unbound
  · exact .value outcome
  · exact .formula (.refl limits root)

/-- More steps do not change what a tree comes to. -/
theorem evaluate_mono {host : Host σ} (quiet : host.Quiet) {source : Source σ} {m n : Nat}
    (hmn : m ≤ n) {node : Node} {ctx : Context σ} {result : Except Fault Float × Context σ}
    (h : evaluate host source m node ctx = some result) :
    evaluate host source n node ctx = some result :=
  (evaluate_extends quiet (.refl ctx.limits source) m n hmn node node (.refl ctx.limits node) ctx rfl
    result.1 result.2 h).2

/-- A tree comes to one result, however many steps it is given. -/
theorem evaluate_unique {host : Host σ} (quiet : host.Quiet) {source : Source σ} {m n : Nat}
    {node : Node} {ctx : Context σ} {result result' : Except Fault Float × Context σ}
    (h : evaluate host source m node ctx = some result)
    (h' : evaluate host source n node ctx = some result') : result = result' := by
  have hmore := evaluate_mono quiet (Nat.le_add_right m n) h
  have hmore' := evaluate_mono quiet (Nat.le_add_left n m) h'
  exact Option.some.inj (hmore.symm.trans hmore')

theorem evaluateFresh_unique {host : Host σ} (quiet : host.Quiet) {source : Source σ}
    {limits : Limits} {node : Node} {m n : Nat} {world : σ} {result result' : Except Fault Float × σ}
    (h : evaluateFresh host source m limits node world = some result)
    (h' : evaluateFresh host source n limits node world = some result') : result = result' := by
  rw [evaluateFresh_eq_map, Option.map_eq_some_iff] at h h'
  obtain ⟨r, hr, rfl⟩ := h
  obtain ⟨r', hr', rfl⟩ := h'
  rw [evaluate_unique quiet hr hr']

/-- Counting keeps simulation. -/
theorem Source.Simulates.counted {source source' : Source σ}
    (h : Source.Simulates limits k source source') (limit : Nat) (isBound : String → Bool) :
    Source.Simulates limits k (Equation.counted limit isBound source)
      (Equation.counted limit isBound source') := by
  rintro name ⟨tally, world⟩
  unfold Equation.counted
  cases isBound name with
  | false =>
    simp only [Bool.false_eq_true, if_false]
    exact ⟨trivial, .unbound⟩
  | true =>
    simp only [if_true]
    by_cases hlimit : limit ≤ (tally.add name).count name
    · simp only [hlimit, if_true]
      exact ⟨trivial, .value _⟩
    · simp only [hlimit, if_false]
      exact ⟨by rw [(h name world).1], (h name world).2⟩

end Formulae
