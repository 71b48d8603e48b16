import Formulae.Proofs.Evaluation.Finiteness
import Formulae.Proofs.Evaluation.Rounds

/-!
# Proofs.Evaluation.Visits — the subtrees that a run evaluates

A run evaluates operands from the left, of a choice the branch that is taken, the body of a summation once
for each index, and the formulas that names stand for, each in the context that the part before it left.

* `Visits`: the run evaluates a subtree in a context.
* `Visits.finite`: the subtree has finite numbers only, and the index of the context is finite.
* `FiniteFlow`: only finite numbers flow through a run.
-/

namespace Formulae

open Number Evaluation

variable {σ : Type}

/-- The operand that is evaluated first. -/
def Node.first? : Node → Option Node
  | .unary _ a | .finite a | .binary _ a _ | .comparison _ a _ | .logic _ a _ | .choice a _ _
  | .summation a _ _ => some a
  | .number _ | .constant _ _ | .reference _ _ | .random => none

/-- The operand that is evaluated next when the first one came to `x`. -/
def Node.second? (x : Float) : Node → Option Node
  | .binary _ _ b | .comparison _ _ b | .summation _ b _ => some b
  | .logic _ _ b =>
    match toBool x with
    | .ok _ => some b
    | .error _ => none
  | .choice _ yes no =>
    match toBool x with
    | .ok p => some (if p then yes else no)
    | .error _ => none
  | _ => none

/-- A summation from `lower` to `upper` passes the checks in front of its loop. -/
def PassesChecks (limits : Limits) (lower upper : Float) : Prop :=
  ¬ upper < lower ∧
    ¬ (0 < limits.iterations ∧ Float.ofNat limits.iterations < summationLength lower upper)

/-- A loop that starts in a context gets to an iteration in another one. -/
inductive Reaches (host : Host σ) (lower upper : Float) (body : Evaluation σ Float)
    (start : Context σ) : Nat → Context σ → Prop where
  | start : Reaches host lower upper body start 0 start
  | next {k : Nat} {ctx polled after : Context σ} {value : Float}
      (before : Reaches host lower upper body start k ctx)
      (within : ¬ upper < indexAt lower k)
      (polls : poll host ctx = some (.ok (), polled))
      (comes : inScope (indexAt lower k) body polled = some (.ok value, after)) :
      Reaches host lower upper body start (k + 1) after

/-- The run of a tree evaluates a subtree, of the tree or of a formula that a name stands for, in a context
and with so many steps. -/
inductive Visits (host : Host σ) (source : Source σ) (steps : Nat) (root : Node) (start : Context σ) :
    Nat → Node → Context σ → Prop where
  | root : Visits host source steps root start steps root start
  | first {n : Nat} {node a : Node} {ctx polled : Context σ}
      (visits : Visits host source steps root start (n + 1) node ctx)
      (isFirst : node.first? = some a)
      (polls : poll host ctx = some (.ok (), polled)) :
      Visits host source steps root start (n + 1) a polled
  | second {n : Nat} {node a b : Node} {ctx polled between : Context σ} {x : Float}
      (visits : Visits host source steps root start (n + 1) node ctx)
      (isFirst : node.first? = some a)
      (polls : poll host ctx = some (.ok (), polled))
      (comes : evaluate host source (n + 1) a polled = some (.ok x, between))
      (isSecond : node.second? x = some b) :
      Visits host source steps root start (n + 1) b between
  | body {n k : Nat} {a b c : Node} {ctx polled between start' ctx' polled' : Context σ}
      {lower upper : Float}
      (visits : Visits host source steps root start (n + 1) (.summation a b c) ctx)
      (polls : poll host ctx = some (.ok (), polled))
      (comesLower : evaluate host source (n + 1) a polled = some (.ok lower, between))
      (comesUpper : evaluate host source (n + 1) b between = some (.ok upper, start'))
      (passes : PassesChecks start'.limits lower upper)
      (reaches : Reaches host lower upper (evaluate host source (n + 1) c) start' k ctx')
      (enough : k < n)
      (within : ¬ upper < indexAt lower k)
      (polls' : poll host ctx' = some (.ok (), polled')) :
      Visits host source steps root start (n + 1) c (polled'.within (indexAt lower k))
  | formula {n : Nat} {name : String} {inSummation : Bool} {target : Node} {ctx polled : Context σ}
      {world : σ}
      (visits : Visits host source steps root start (n + 1) (.reference name inSummation) ctx)
      (polls : poll host ctx = some (.ok (), polled))
      (free : polled.boundIndex? name = none)
      (allowed : ¬ polled.limits.substitutions < (polled.hit name).hits.count name)
      (finds : source name polled.world = (.formula target, world)) :
      Visits host source steps root start n target { polled.hit name with world }

/-! ### Operands -/

theorem Node.AllFinite.first {node a : Node} (h : node.AllFinite) (ha : node.first? = some a) :
    a.AllFinite := by
  cases node with
  | number | constant | reference | random => cases ha
  | unary | finite =>
    obtain rfl := Option.some.inj ha
    exact h
  | binary | comparison | logic | choice | summation =>
    obtain rfl := Option.some.inj ha
    exact h.1

theorem Node.AllFinite.second {node b : Node} {x : Float} (h : node.AllFinite)
    (hb : node.second? x = some b) : b.AllFinite := by
  cases node with
  | number | constant | reference | random | unary | finite => cases hb
  | binary | comparison =>
    obtain rfl := Option.some.inj hb
    exact h.2
  | summation =>
    obtain rfl := Option.some.inj hb
    exact h.2.1
  | logic op l r =>
    simp only [second?] at hb
    split at hb
    · obtain rfl := Option.some.inj hb
      exact h.2
    · cases hb
  | choice test yes no =>
    simp only [second?] at hb
    split at hb
    · obtain rfl := Option.some.inj hb
      split
      · exact h.2.1
      · exact h.2.2
    · cases hb

theorem index_of_poll {host : Host σ} {ctx polled : Context σ}
    (h : poll host ctx = some (.ok (), polled)) : polled.index = ctx.index := by
  rw [(poll_eq_some h).1]

/-! ### Finite numbers -/

section Finite

variable {host : Host σ} (uniform : host.Uniform) {source : Source σ} (hsource : source.Finite)
  {steps : Nat} {root : Node} {start : Context σ} (hroot : root.AllFinite) (hstart : start.FiniteIndex)
include uniform hsource hroot hstart

/-- What is visited has finite numbers only, in a context with a finite index. -/
theorem Visits.finite {n : Nat} {node : Node} {ctx : Context σ}
    (h : Visits host source steps root start n node ctx) : node.AllFinite ∧ ctx.FiniteIndex := by
  induction h with
  | root => exact ⟨hroot, hstart⟩
  | first _ isFirst polls ih =>
    exact ⟨ih.1.first isFirst, finiteIndex_of_eq ih.2 (index_of_poll polls)⟩
  | second _ isFirst polls comes isSecond ih =>
    have hpolled := finiteIndex_of_eq ih.2 (index_of_poll polls)
    obtain ⟨-, hindex⟩ := isFinite_of_evaluate uniform hsource (ih.1.first isFirst) hpolled comes
    exact ⟨ih.1.second isSecond, finiteIndex_of_eq hpolled hindex⟩
  | body _ polls comesLower comesUpper _ _ _ within _ ih =>
    obtain ⟨ha, hb, hc⟩ := ih.1
    have hpolled := finiteIndex_of_eq ih.2 (index_of_poll polls)
    obtain ⟨hlower, hindex⟩ := isFinite_of_evaluate uniform hsource ha hpolled comesLower
    have hbetween := finiteIndex_of_eq hpolled hindex
    obtain ⟨hupper, -⟩ := isFinite_of_evaluate uniform hsource hb hbetween comesUpper
    exact ⟨hc, finiteIndex_within _ (isFinite_add_ofNat hlower hupper within)⟩
  | @formula n name inSummation target ctx polled world _ polls _ _ finds ih =>
    have htarget := hsource name polled.world
    rw [finds] at htarget
    have hpolled := finiteIndex_of_eq ih.2 (index_of_poll polls)
    exact ⟨htarget, finiteIndex_of_eq hpolled rfl⟩

end Finite

/-- Only finite numbers flow through the run of a tree. Operands, conditions, bounds and bodies are among
the subtrees that a run visits, so nothing else reaches an operator or a bound. -/
structure FiniteFlow (host : Host σ) (source : Source σ) (steps : Nat) (root : Node)
    (start : Context σ) : Prop where
  /-- Every number in a subtree that is evaluated is finite, a folded value like any other. -/
  literals : ∀ {n node ctx}, Visits host source steps root start n node ctx → node.AllFinite
  /-- So is the index of every summation. -/
  index : ∀ {n node ctx index}, Visits host source steps root start n node ctx →
    ctx.index = some index → index.isFinite = true
  /-- Whatever a subtree comes to is finite. -/
  value : ∀ {n node ctx x after}, Visits host source steps root start n node ctx →
    evaluate host source n node ctx = some (.ok x, after) → x.isFinite = true

theorem finiteFlow {host : Host σ} (uniform : host.Uniform) {source : Source σ}
    (hsource : source.Finite) (steps : Nat) {root : Node} (hroot : root.AllFinite)
    {start : Context σ} (hstart : start.FiniteIndex) : FiniteFlow host source steps root start where
  literals h := (h.finite uniform hsource hroot hstart).1
  index h hindex := (h.finite uniform hsource hroot hstart).2 _ hindex
  value h hx := by
    obtain ⟨hnode, hctx⟩ := h.finite uniform hsource hroot hstart
    exact (isFinite_of_evaluate uniform hsource hnode hctx hx).1

end Formulae
