import Formulae.Evaluation.Basic
import Formulae.Proofs.Constancy

/-!
# Proofs.Evaluation.Congruence — relations that evaluations of subtrees carry over to trees

A relation between evaluations under two hosts that is kept by sequencing, by polls and by summations
(`Composes`) relates two trees of one shape if it relates their subtrees.

* `resolve_of_index` and its companions, `poll_eq_some`: what names and polls come to.
* `Composes.unary` and its companions: one lemma for each kind of node.
* `Composes.of_leaves`: a tree is related to itself as soon as its leaves are, those in the bodies of
  summations perhaps by a relation of their own.
* `Composes.run`: the same for a relation that scopes keep, from names and random numbers.
* `Iterates`, `Loops`, `Lifts`: what makes a relation pass to the loops of summations, to summations under
  the same limit, and to the scopes of their iterations too.
* `Lifts.run`, `Lifts.closed`: a tree is related to itself as soon as names and random numbers are, a
  constant one as soon as names are.
-/

namespace Formulae

open Number Evaluation

variable {σ τ : Type}

/-! ### Outcomes -/

/-- Whether the cause lies in an operation on values, not in a name, the text or the host. -/
def Fault.isOperational : Fault → Bool
  | .domain (.recursiveVariable _ _) => false
  | .domain _ | .notBoolean _ => true
  | _ => false

/-- The outcome is that of an operation on values. -/
def Operational {α : Type} (outcome : Except Fault α) : Prop :=
  ∀ fault, outcome = .error fault → fault.isOperational = true

theorem operational_ok {α : Type} (a : α) : Operational (.ok a : Except Fault α) := by
  rintro fault ⟨⟩

theorem operational_error {α : Type} {fault : Fault} (h : fault.isOperational = true) :
    Operational (.error fault : Except Fault α) := by
  rintro _ ⟨⟩
  exact h

theorem operational_checkFinite (x : Float) : Operational (checkFinite x) := by
  unfold checkFinite
  split
  · exact operational_error rfl
  · split
    · exact operational_error rfl
    · exact operational_ok _

theorem operational_toBool (x : Float) : Operational (Number.toBool x) := by
  unfold Number.toBool
  split
  · exact operational_ok _
  · split
    · exact operational_ok _
    · exact operational_error rfl

theorem operational_apply (op : BinaryOp) (x y : Float) : Operational (op.apply x y) := by
  cases op with
  | div =>
    show Operational (if y == 0.0 then _ else _)
    split
    · exact operational_error rfl
    · exact operational_ok _
  | _ => exact operational_ok _

/-- The outcome is not an interruption. -/
def Calm {α : Type} (outcome : Except Fault α) : Prop :=
  ∀ fault, outcome = .error fault → fault.isInterruption = false

theorem calm_ok {α : Type} (a : α) : Calm (.ok a : Except Fault α) := by
  rintro fault ⟨⟩

theorem Operational.calm {α : Type} {outcome : Except Fault α} (h : Operational outcome) :
    Calm outcome := by
  intro fault hf
  have hop := h fault hf
  cases fault with
  | interrupted => cases hop
  | _ => rfl

/-! ### Names -/

section Names

variable {ctx : Context σ} {name : String} (source : Source σ) (enter : Node → Evaluation σ Float)

theorem boundIndex?_of_unscoped (h : ctx.index = none) : ctx.boundIndex? name = none := by
  unfold Context.boundIndex?
  rw [h, ite_self]

theorem resolve_of_index {index : Float} (h : ctx.boundIndex? name = some index) :
    resolve source enter name ctx = some (.ok index, ctx) := by
  rw [resolve, h]

theorem resolve_of_unindexed (h : ctx.boundIndex? name = none) :
    resolve source enter name ctx =
      if ctx.limits.substitutions < (ctx.hit name).hits.count name then
        some (.error (.domain (.recursiveVariable name ctx.limits.substitutions)), ctx.hit name)
      else
        match source name ctx.world with
        | (.unbound, world) => some (.error (.unset name), { ctx.hit name with world })
        | (.value outcome, world) => some (outcome, { ctx.hit name with world })
        | (.formula root, world) => enter root { ctx.hit name with world } := by
  rw [resolve, h]
  rfl

/-- A name that was resolved as often as the limit allows is refused. -/
theorem resolve_of_refused (h : ctx.boundIndex? name = none)
    (hlimit : ctx.limits.substitutions < (ctx.hit name).hits.count name) :
    resolve source enter name ctx =
      some (.error (.domain (.recursiveVariable name ctx.limits.substitutions)), ctx.hit name) := by
  rw [resolve_of_unindexed _ _ h, if_pos hlimit]

/-- A name that is not refused comes to what the source finds for it. -/
theorem resolve_of_found (h : ctx.boundIndex? name = none)
    (hlimit : ¬ ctx.limits.substitutions < (ctx.hit name).hits.count name) {found : Lookup} {world : σ}
    (hfound : source name ctx.world = (found, world)) :
    resolve source enter name ctx =
      match found with
      | .unbound => some (.error (.unset name), { ctx.hit name with world })
      | .value outcome => some (outcome, { ctx.hit name with world })
      | .formula root => enter root { ctx.hit name with world } := by
  rw [resolve_of_unindexed _ _ h, if_neg hlimit]
  simp only [hfound]
  cases found <;> rfl

/-- Without bindings, a name that is not the index of a summation fails. -/
theorem resolve_none_of_unindexed (h : ctx.boundIndex? name = none) :
    resolve Source.none enter name ctx =
      some (.error (if ctx.limits.substitutions < (ctx.hit name).hits.count name then
        .domain (.recursiveVariable name ctx.limits.substitutions) else .unset name),
        ctx.hit name) := by
  rw [resolve_of_unindexed _ _ h]
  split <;> rfl

end Names

/-- An evaluation in the scope of an iteration, where it comes to something. -/
theorem inScope_of_some {α : Type} {x : Evaluation σ α} {ctx inner : Context σ} {index : Float}
    {outcome : Except Fault α} (h : x (ctx.within index) = some (outcome, inner)) :
    inScope index x ctx = some (outcome, { ctx with world := inner.world }) := by
  rw [inScope, h]

theorem inScope_eq_some {α : Type} {x : Evaluation σ α} {ctx after : Context σ} {index : Float}
    {outcome : Except Fault α} (h : inScope index x ctx = some (outcome, after)) :
    ∃ inner, x (ctx.within index) = some (outcome, inner) ∧ after = { ctx with world := inner.world } := by
  unfold inScope at h
  split at h
  · rename_i outcome' inner hx
    obtain ⟨rfl, rfl⟩ := Prod.mk.inj (Option.some.inj h)
    exact ⟨inner, hx, rfl⟩
  · cases h

theorem inScope_eq_map {α : Type} (x : Evaluation σ α) (ctx : Context σ) (index : Float) :
    inScope index x ctx =
      (x (ctx.within index)).map fun r => (r.1, { ctx with world := r.2.world }) := by
  unfold inScope
  rcases x (ctx.within index) with _ | ⟨outcome, inner⟩ <;> rfl

/-! ### Polls and fresh contexts -/

/-- A poll only changes the world, and fails with nothing but an interruption. -/
theorem poll_eq_some {host : Host σ} {ctx after : Context σ} {outcome : Except Fault Unit}
    (h : poll host ctx = some (outcome, after)) :
    after = { ctx with world := (host.poll ctx.world).2 } ∧
      ∀ fault, outcome = .error fault → fault.isInterruption = true := by
  unfold poll at h
  rcases hstop : host.poll ctx.world with ⟨_ | cancelled, world⟩
  · simp only [hstop] at h
    cases h
    exact ⟨rfl, nofun⟩
  · simp only [hstop] at h
    cases h
    refine ⟨rfl, ?_⟩
    rintro _ ⟨⟩
    rfl

theorem evaluateFresh_eq_map (host : Host σ) (source : Source σ) (steps : Nat) (limits : Limits)
    (node : Node) (world : σ) :
    evaluateFresh host source steps limits node world =
      (evaluate host source steps node (Context.fresh limits world)).map fun r => (r.1, r.2.world) := by
  unfold evaluateFresh
  rcases evaluate host source steps node (Context.fresh limits world) with _ | ⟨outcome, after⟩ <;> rfl

/-- What the evaluation of a tree depends on. -/
structure Evaluator (σ : Type) where
  host : Host σ
  source : Source σ
  /-- Evaluates the formulas that names stand for. -/
  enter : Node → Evaluation σ Float
  /-- The bound on the iterations of a summation. -/
  steps : Nat

/-- The evaluation of a tree. -/
def Evaluator.run (E : Evaluator σ) (node : Node) : Evaluation σ Float :=
  node.evaluateWith E.host E.source E.enter E.steps

/-! ### One lemma for each kind of node -/

/-- The relation is kept by outcomes of operations and by sequencing. -/
structure Threads (R : ∀ α : Type, Evaluation σ α → Evaluation τ α → Prop) : Prop where
  ofExcept : ∀ {α : Type} {outcome : Except Fault α}, Operational outcome →
    R α (Run.ofExcept outcome) (Run.ofExcept outcome)
  bind : ∀ {α β : Type} {x : Evaluation σ α} {y : Evaluation τ α} {f : α → Evaluation σ β}
    {g : α → Evaluation τ β}, R α x y → (∀ a, R β (f a) (g a)) → R β (x >>= f) (y >>= g)

/-- Summations are related if the limits on their lengths and their loops are. -/
theorem Threads.sumOver {R : ∀ α : Type, Evaluation σ α → Evaluation τ α → Prop} (h : Threads R)
    (limit : R Nat (Run.read fun ctx => ctx.limits.iterations)
      (Run.read fun ctx => ctx.limits.iterations))
    (host : Host σ) (host' : Host τ) (steps steps' : Nat) (lower upper : Float)
    (body : Evaluation σ Float) (body' : Evaluation τ Float)
    (loop : R Float (iterate host lower upper body steps 0 0.0)
      (iterate host' lower upper body' steps' 0 0.0)) :
    R Float (sumOver host steps lower upper body)
      (Evaluation.sumOver host' steps' lower upper body') := by
  unfold Evaluation.sumOver
  by_cases hbounds : upper < lower
  · simp only [hbounds, if_true]
    exact h.ofExcept (operational_error rfl)
  · simp only [hbounds, if_false]
    refine h.bind limit ?_
    intro limit
    by_cases hlong : (0 < limit && Float.ofNat limit < summationLength lower upper) = true
    · simp only [hlong, if_true]
      exact h.ofExcept (operational_error rfl)
    · simp only [hlong]
      exact loop

/-- The relation is kept by what the evaluation of a tree is put together from. -/
structure Composes (E : Evaluator σ) (E' : Evaluator τ)
    (R : ∀ α : Type, Evaluation σ α → Evaluation τ α → Prop) : Prop extends Threads R where
  poll : R Unit (poll E.host) (poll E'.host)
  /-- A summation is related to another one if their bodies are, each in its scope. -/
  sumOver : ∀ (lower upper : Float) {body : Evaluation σ Float} {body' : Evaluation τ Float},
    (∀ index, R Float (inScope index body) (inScope index body')) →
    R Float (sumOver E.host E.steps lower upper body)
      (Evaluation.sumOver E'.host E'.steps lower upper body')

namespace Composes

section Nodes

variable {E : Evaluator σ} {E' : Evaluator τ}
  {R : ∀ α : Type, Evaluation σ α → Evaluation τ α → Prop} (h : Composes E E' R)
  {a a' b b' c c' : Node}
include h

theorem unary (op : UnaryOp) (ha : R Float (E.run a) (E'.run a')) :
    R Float (E.run (.unary op a)) (E'.run (.unary op a')) :=
  h.bind h.poll fun _ => h.bind ha fun _ => h.ofExcept (operational_checkFinite _)

theorem binary (op : BinaryOp) (ha : R Float (E.run a) (E'.run a'))
    (hb : R Float (E.run b) (E'.run b')) :
    R Float (E.run (.binary op a b)) (E'.run (.binary op a' b')) :=
  h.bind h.poll fun _ => h.bind ha fun _ => h.bind hb fun _ =>
    h.bind (h.ofExcept (operational_apply _ _ _)) fun _ => h.ofExcept (operational_checkFinite _)

theorem comparison (op : ComparisonOp) (ha : R Float (E.run a) (E'.run a'))
    (hb : R Float (E.run b) (E'.run b')) :
    R Float (E.run (.comparison op a b)) (E'.run (.comparison op a' b')) :=
  h.bind h.poll fun _ => h.bind ha fun _ => h.bind hb fun _ => h.ofExcept (operational_ok _)

theorem logic (op : LogicOp) (ha : R Float (E.run a) (E'.run a'))
    (hb : R Float (E.run b) (E'.run b')) :
    R Float (E.run (.logic op a b)) (E'.run (.logic op a' b')) :=
  h.bind h.poll fun _ => h.bind ha fun _ => h.bind (h.ofExcept (operational_toBool _)) fun _ =>
    h.bind hb fun _ => h.bind (h.ofExcept (operational_toBool _)) fun _ =>
      h.ofExcept (operational_ok _)

theorem choice (ha : R Float (E.run a) (E'.run a')) (hb : R Float (E.run b) (E'.run b'))
    (hc : R Float (E.run c) (E'.run c')) :
    R Float (E.run (.choice a b c)) (E'.run (.choice a' b' c')) := by
  refine h.bind h.poll fun _ => h.bind ha fun _ => h.bind (h.ofExcept (operational_toBool _)) ?_
  intro p
  cases p with
  | true => exact hb
  | false => exact hc

theorem summation (ha : R Float (E.run a) (E'.run a')) (hb : R Float (E.run b) (E'.run b'))
    (hc : ∀ index, R Float (inScope index (E.run c)) (inScope index (E'.run c'))) :
    R Float (E.run (.summation a b c)) (E'.run (.summation a' b' c')) :=
  h.bind h.poll fun _ => h.bind ha fun lower => h.bind hb fun upper => h.sumOver lower upper hc

theorem finite (ha : R Float (E.run a) (E'.run a')) :
    R Float (E.run (.finite a)) (E'.run (.finite a')) :=
  h.bind h.poll fun _ => h.bind ha fun _ => h.ofExcept (operational_checkFinite _)

theorem reference (name : String) (inSummation : Bool)
    (hname : R Float (resolve E.source E.enter name) (resolve E'.source E'.enter name)) :
    R Float (E.run (.reference name inSummation)) (E'.run (.reference name inSummation)) :=
  h.bind h.poll fun _ => hname

end Nodes

/-- A tree is related to itself if its leaves are, where the relation may be another one in the bodies of
summations than outside of them. -/
theorem of_leaves {E : Evaluator σ} {E' : Evaluator τ}
    {R : Bool → ∀ α : Type, Evaluation σ α → Evaluation τ α → Prop}
    (h : ∀ inBody, Composes E E' (R inBody))
    (scope : ∀ inBody index {x : Evaluation σ Float} {y : Evaluation τ Float},
      R true Float x y → R inBody Float (inScope index x) (inScope index y))
    (node : Node) (inBody : Bool)
    (hleaf : ∀ leaf ∈ node.leaves inBody, R leaf.2 Float (E.run leaf.1) (E'.run leaf.1)) :
    R inBody Float (E.run node) (E'.run node) := by
  induction node generalizing inBody with
  | number | constant | random | reference => exact hleaf _ (List.mem_singleton_self _)
  | unary op a ih => exact (h inBody).unary op (ih inBody hleaf)
  | finite a ih => exact (h inBody).finite (ih inBody hleaf)
  | binary op a b iha ihb =>
    obtain ⟨ha, hb⟩ := List.forall_mem_append.mp hleaf
    exact (h inBody).binary op (iha inBody ha) (ihb inBody hb)
  | comparison op a b iha ihb =>
    obtain ⟨ha, hb⟩ := List.forall_mem_append.mp hleaf
    exact (h inBody).comparison op (iha inBody ha) (ihb inBody hb)
  | logic op a b iha ihb =>
    obtain ⟨ha, hb⟩ := List.forall_mem_append.mp hleaf
    exact (h inBody).logic op (iha inBody ha) (ihb inBody hb)
  | choice a b c iha ihb ihc =>
    obtain ⟨hab, hc⟩ := List.forall_mem_append.mp hleaf
    obtain ⟨ha, hb⟩ := List.forall_mem_append.mp hab
    exact (h inBody).choice (iha inBody ha) (ihb inBody hb) (ihc inBody hc)
  | summation a b c iha ihb ihc =>
    obtain ⟨hab, hc⟩ := List.forall_mem_append.mp hleaf
    obtain ⟨ha, hb⟩ := List.forall_mem_append.mp hab
    exact (h inBody).summation (iha inBody ha) (ihb inBody hb)
      fun index => scope inBody index (ihc true hc)

/-- A tree is related to itself under a relation that scopes keep, if random numbers and names are. -/
theorem run {E : Evaluator σ} {E' : Evaluator τ}
    {R : ∀ α : Type, Evaluation σ α → Evaluation τ α → Prop} (h : Composes E E' R)
    (scope : ∀ index {x : Evaluation σ Float} {y : Evaluation τ Float}, R Float x y →
      R Float (inScope index x) (inScope index y))
    (hdraw : R Float (draw E.host) (draw E'.host))
    (hname : ∀ name, R Float (resolve E.source E.enter name) (resolve E'.source E'.enter name))
    (node : Node) : R Float (E.run node) (E'.run node) := by
  refine of_leaves (R := fun _ => R) (fun _ => h) (fun _ => scope) node false fun leaf hl => ?_
  obtain ⟨leaf, inBody⟩ := leaf
  have hleaf := Node.childrenReversed_of_mem_leaves hl
  cases leaf with
  | number | constant => exact h.ofExcept (operational_ok _)
  | reference name inSummation => exact h.reference name inSummation (hname name)
  | random => exact hdraw
  | _ => cases hleaf

end Composes

/-! ### Relations that loops and scopes keep -/

/-- The relation is kept by what loops are built from, apart from the scopes of their iterations; `more`
relates their bounds on iterations. -/
structure Iterates (E : Evaluator σ) (E' : Evaluator τ) (more : Nat → Nat → Prop)
    (R : ∀ α : Type, Evaluation σ α → Evaluation τ α → Prop) : Prop extends Threads R where
  poll : R Unit (poll E.host) (poll E'.host)
  exhausted : ∀ {n : Nat} {y : Evaluation τ Float}, more 0 n → (n = 0 → y = Run.exhausted) →
    R Float Run.exhausted y
  succ : ∀ {m n : Nat}, more (m + 1) n → ∃ k, n = k + 1 ∧ more m k
  steps : more E.steps E'.steps

namespace Iterates

variable {E : Evaluator σ} {E' : Evaluator τ} {more : Nat → Nat → Prop}
  {R : ∀ α : Type, Evaluation σ α → Evaluation τ α → Prop} (h : Iterates E E' more R)
include h

theorem iterate {lower upper : Float} {body : Evaluation σ Float} {body' : Evaluation τ Float}
    (hbody : ∀ index, R Float (Evaluation.inScope index body) (Evaluation.inScope index body'))
    {m n : Nat} (hmore : more m n) (step : Nat) (total : Float) :
    R Float (iterate E.host lower upper body m step total)
      (Evaluation.iterate E'.host lower upper body' n step total) := by
  induction m generalizing n step total with
  | zero =>
    refine h.exhausted hmore ?_
    intro hn
    subst hn
    rfl
  | succ m ih =>
    obtain ⟨k, rfl, hk⟩ := h.succ hmore
    unfold Evaluation.iterate
    by_cases hend : upper < lower + Float.ofNat step
    · simp only [hend, if_true]
      exact h.ofExcept (operational_checkFinite _)
    · simp only [hend, if_false]
      exact h.bind h.poll fun _ => h.bind (hbody _) fun value => ih hk _ _

end Iterates

/-- The limits on the lengths of summations are related too. -/
structure Loops (E : Evaluator σ) (E' : Evaluator τ) (more : Nat → Nat → Prop)
    (R : ∀ α : Type, Evaluation σ α → Evaluation τ α → Prop) : Prop extends Iterates E E' more R where
  limit : R Nat (Run.read fun ctx => ctx.limits.iterations)
    (Run.read fun ctx => ctx.limits.iterations)

theorem Loops.composes {E : Evaluator σ} {E' : Evaluator τ} {more : Nat → Nat → Prop}
    {R : ∀ α : Type, Evaluation σ α → Evaluation τ α → Prop} (h : Loops E E' more R) :
    Composes E E' R where
  ofExcept := h.ofExcept
  bind := h.bind
  poll := h.poll
  sumOver lower upper _ _ hbody :=
    h.toThreads.sumOver h.limit _ _ _ _ lower upper _ _ (h.toIterates.iterate hbody h.steps 0 0.0)

/-- The relation is also kept by the scopes of iterations. -/
structure Lifts (E : Evaluator σ) (E' : Evaluator τ) (more : Nat → Nat → Prop)
    (R : ∀ α : Type, Evaluation σ α → Evaluation τ α → Prop) : Prop extends Loops E E' more R where
  inScope : ∀ (index : Float) {x : Evaluation σ Float} {y : Evaluation τ Float}, R Float x y →
    R Float (inScope index x) (inScope index y)

namespace Lifts

variable {E : Evaluator σ} {E' : Evaluator τ} {more : Nat → Nat → Prop}
  {R : ∀ α : Type, Evaluation σ α → Evaluation τ α → Prop} (h : Lifts E E' more R)
include h

/-- A tree is related to itself if its leaves are. -/
theorem of_leaves {node : Node}
    (hleaf : ∀ leaf ∈ node.leaves false, R Float (E.run leaf.1) (E'.run leaf.1)) :
    R Float (E.run node) (E'.run node) :=
  Composes.of_leaves (R := fun _ => R) (fun _ => h.composes) (fun _ index => h.inScope index) node
    false hleaf

/-- A tree is related to itself, if random numbers and names are. -/
theorem run (hdraw : R Float (draw E.host) (draw E'.host))
    (hname : ∀ name, R Float (resolve E.source E.enter name) (resolve E'.source E'.enter name))
    (node : Node) : R Float (E.run node) (E'.run node) :=
  h.composes.run h.inScope hdraw hname node

/-- A constant tree is related to itself, if its names are. -/
theorem closed (hname : ∀ name, R Float (resolve E.source E.enter name)
    (resolve E'.source E'.enter name)) {node : Node} (hclosed : node.isClosed = true) :
    R Float (E.run node) (E'.run node) := by
  refine h.of_leaves fun leaf hl => ?_
  obtain ⟨leaf, inBody⟩ := leaf
  have hleaf := Node.childrenReversed_of_mem_leaves hl
  have hclosed' := Node.isClosed_of_mem_leaves hclosed hl
  cases leaf with
  | number | constant => exact h.ofExcept (operational_ok _)
  | reference name inSummation => exact h.composes.reference name inSummation (hname name)
  | random => cases hclosed'
  | _ => cases hleaf

end Lifts

end Formulae
