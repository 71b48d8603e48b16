import Formulae.Proofs.Evaluation.Sources
import Formulae.Proofs.Finiteness
import Formulae.Proofs.Folding

/-!
# Proofs.Evaluation.Inlining — a bound formula and a copy of it

A formula that a name is bound to is evaluated where the name stands, in the same context, so a copy of it
between parentheses comes to the same. Only the count of the name differs: the run over the copies counts it
less often, and may go on where the other one is refused.

* `Node.inlined` puts the copies.
* `Drift`: how the counts of the name differ between two runs, and which of them may be refused alone. Both
  directions are cases of it (`Drift.ahead`, `Drift.behind`).
* `KeepsPace`: whatever one run ends in, the other one does, in contexts that differ by the drift only.
* `Expression.evaluateUnder_inlined`: inlining changes no result.
-/

namespace Formulae

open Evaluation

variable {σ : Type}

/-- The tree with a copy between parentheses wherever it refers to the name. -/
@[simp] def Node.inlined (node : Node) (name : String) (copy : Node) : Node :=
  match node with
  | .number value => .number value
  | .constant value label => .constant value label
  | .reference other inSummation =>
    if other = name then .unary .paren copy else .reference other inSummation
  | .random => .random
  | .unary op arg => .unary op (arg.inlined name copy)
  | .binary op left right => .binary op (left.inlined name copy) (right.inlined name copy)
  | .comparison op left right => .comparison op (left.inlined name copy) (right.inlined name copy)
  | .logic op left right => .logic op (left.inlined name copy) (right.inlined name copy)
  | .choice a b c => .choice (a.inlined name copy) (b.inlined name copy) (c.inlined name copy)
  | .summation a b c => .summation (a.inlined name copy) (b.inlined name copy) (c.inlined name copy)
  | .finite inner => .finite (inner.inlined name copy)

/-- A congruence that holds between references to a name and the copy holds between a tree and the tree with
the copies. -/
theorem Node.Congruence.inlined {P : Node → Node → Prop} (h : Node.Congruence P) {name : String}
    {copy : Node} (named : ∀ inSummation, P (.reference name inSummation) (.unary .paren copy))
    (node : Node) : P node (node.inlined name copy) := by
  induction node with
  | number | constant | random => exact h.leaf _ rfl
  | reference other inSummation =>
    unfold Node.inlined
    split
    · rename_i same
      exact same ▸ named inSummation
    · exact h.leaf _ rfl
  | unary op a ih => exact h.unary op ih
  | finite a ih => exact h.finite ih
  | binary op a b iha ihb => exact h.binary op iha ihb
  | comparison op a b iha ihb => exact h.comparison op iha ihb
  | logic op a b iha ihb => exact h.logic op iha ihb
  | choice a b c iha ihb ihc => exact h.choice iha ihb ihc
  | summation a b c iha ihb ihc => exact h.summation iha ihb ihc

/-- A congruence read backwards. -/
theorem Node.Congruence.flip {P : Node → Node → Prop} (h : Node.Congruence P) :
    Node.Congruence fun a b => P b a where
  leaf := h.leaf
  unary op _ _ := h.unary op
  binary op _ _ _ _ := h.binary op
  comparison op _ _ _ _ := h.comparison op
  logic op _ _ _ _ := h.logic op
  choice := h.choice
  summation := h.summation
  finite := h.finite

/-! ### Two runs that count a name differently -/

/-- How the counts of a name in two runs are related, and which of the runs may be refused the name where
the other one is not. -/
structure Drift where
  le : Nat → Nat → Prop
  first : Prop
  second : Prop
  zero : le 0 0
  succ : ∀ {a b}, le a b → le (a + 1) (b + 1)
  refused_first : ∀ {limit a b}, le a b → limit < a → first ∨ limit < b
  refused_second : ∀ {limit a b}, le a b → limit < b → second ∨ limit < a

/-- The first run counts at least as often. -/
def Drift.ahead : Drift where
  le a b := b ≤ a
  first := True
  second := False
  zero := Nat.le_refl 0
  succ := Nat.succ_le_succ
  refused_first _ _ := .inl trivial
  refused_second hle hlt := .inr (Nat.lt_of_lt_of_le hlt hle)

/-- The second run counts at least as often. -/
def Drift.behind : Drift where
  le a b := a ≤ b
  first := False
  second := True
  zero := Nat.le_refl 0
  succ := Nat.succ_le_succ
  refused_first hle hlt := .inr (Nat.lt_of_lt_of_le hlt hle)
  refused_second _ _ := .inl trivial

/-- The contexts have the given limits and agree but for the counts of the name. -/
structure Context.Drifts (d : Drift) (name : String) (limits : Limits) (ctx ctx' : Context σ) : Prop where
  limits_first : ctx.limits = limits
  limits_second : ctx'.limits = limits
  index : ctx'.index = ctx.index
  world : ctx'.world = ctx.world
  others : ∀ other, other ≠ name → ctx'.hits.count other = ctx.hits.count other
  own : d.le (ctx.hits.count name) (ctx'.hits.count name)

/-- The name was resolved more often than the limit allows. -/
def Refused (name : String) (limits : Limits) {α : Type} (outcome : Except Fault α) : Prop :=
  outcome = .error (.domain (.recursiveVariable name limits.substitutions))

/-- Whatever `x` ends in, `y` ends in as well in a context that differs by the drift, and the contexts that
they leave differ by it, unless one of the two is refused the name. -/
def KeepsPace (d : Drift) (name : String) (limits : Limits) (α : Type) (x y : Evaluation σ α) : Prop :=
  ∀ ctx ctx', ctx.Drifts d name limits ctx' → ∀ outcome after, x ctx = some (outcome, after) →
    (d.first ∧ Refused name limits outcome) ∨
    ∃ outcome' after', y ctx' = some (outcome', after') ∧
      ((d.second ∧ Refused name limits outcome') ∨
        outcome' = outcome ∧ after.Drifts d name limits after')

section Drifts

variable {d : Drift} {name : String} {limits : Limits} {ctx ctx' : Context σ}

theorem drifts_fresh (d : Drift) (name : String) (limits : Limits) (world : σ) :
    (Context.fresh limits world).Drifts d name limits (Context.fresh limits world) :=
  ⟨rfl, rfl, rfl, rfl, fun _ _ => rfl, d.zero⟩

namespace Context.Drifts

variable (h : ctx.Drifts d name limits ctx')
include h

theorem boundIndex? (other : String) : ctx'.boundIndex? other = ctx.boundIndex? other := by
  unfold Context.boundIndex?
  rw [h.index]

theorem moved (world : σ) : { ctx with world }.Drifts d name limits { ctx' with world } :=
  { h with world := rfl }

theorem within (index : Float) : (ctx.within index).Drifts d name limits (ctx'.within index) :=
  { h with index := rfl, others := fun _ _ => rfl, own := d.zero }

/-- Both runs count another name, or both count the name. -/
theorem hit (other : String) : (ctx.hit other).Drifts d name limits (ctx'.hit other) where
  limits_first := h.limits_first
  limits_second := h.limits_second
  index := h.index
  world := h.world
  others key hkey := by
    show (ctx'.hits.add other).count key = (ctx.hits.add other).count key
    rw [Tally.count_add, Tally.count_add, h.others key hkey]
  own := by
    show d.le ((ctx.hits.add other).count name) ((ctx'.hits.add other).count name)
    rw [Tally.count_add, Tally.count_add]
    split
    · exact d.succ h.own
    · exact h.own

/-- Where only one of the runs is refused a name, it is the name in question. -/
theorem refused_first {other : String} {limit : Nat} (hlimit : limit < ctx.hits.count other) :
    (d.first ∧ other = name) ∨ limit < ctx'.hits.count other := by
  by_cases hname : other = name
  · subst hname
    exact (d.refused_first h.own hlimit).imp_left fun first => ⟨first, rfl⟩
  · exact .inr (h.others other hname ▸ hlimit)

theorem refused_second {other : String} {limit : Nat} (hlimit : limit < ctx'.hits.count other) :
    (d.second ∧ other = name) ∨ limit < ctx.hits.count other := by
  by_cases hname : other = name
  · subst hname
    exact (d.refused_second h.own hlimit).imp_left fun second => ⟨second, rfl⟩
  · exact .inr (h.others other hname ▸ hlimit)

end Context.Drifts

end Drifts

/-! ### Keeping pace -/

section KeepsPace

variable {d : Drift} {name : String} {limits : Limits} {α β : Type}

/-- Evaluations that end alike keep pace. -/
theorem keepsPace_of_alike {x y : Evaluation σ α} (h : ∀ ctx ctx' : Context σ,
    ctx.Drifts d name limits ctx' → ∃ outcome after after', x ctx = some (outcome, after) ∧
      y ctx' = some (outcome, after') ∧ after.Drifts d name limits after') :
    KeepsPace d name limits α x y := by
  intro ctx ctx' drifts outcome after hx
  obtain ⟨outcome', after', last, hx', hy, hlast⟩ := h ctx ctx' drifts
  obtain ⟨rfl, rfl⟩ := Prod.mk.inj (Option.some.inj (hx'.symm.trans hx))
  exact .inr ⟨_, last, hy, .inr ⟨rfl, hlast⟩⟩

theorem KeepsPace.bind {x y : Evaluation σ α} {f g : α → Evaluation σ β}
    (h : KeepsPace d name limits α x y) (hf : ∀ a, KeepsPace d name limits β (f a) (g a)) :
    KeepsPace d name limits β (x >>= f) (y >>= g) := by
  intro ctx ctx' drifts outcome after hrun
  rw [Run.bind_apply] at hrun
  split at hrun
  · rename_i a mid hx
    rcases h ctx ctx' drifts _ _ hx with ⟨-, hfault⟩ | ⟨outcome', mid', hy, hend⟩
    · cases hfault
    · rcases hend with ⟨second, rfl⟩ | ⟨rfl, hmid⟩
      · exact .inr ⟨_, mid', Run.bind_of_error hy, .inl ⟨second, rfl⟩⟩
      · rw [Run.bind_of_ok hy]
        exact hf a mid mid' hmid outcome after hrun
  · rename_i fault mid hx
    obtain ⟨rfl, rfl⟩ := Prod.mk.inj (Option.some.inj hrun)
    rcases h ctx ctx' drifts _ _ hx with ⟨first, hfault⟩ | ⟨outcome', mid', hy, hend⟩
    · exact .inl ⟨first, congrArg Except.error (Except.error.inj hfault)⟩
    · rcases hend with ⟨second, rfl⟩ | ⟨rfl, hmid⟩
      · exact .inr ⟨_, mid', Run.bind_of_error hy, .inl ⟨second, rfl⟩⟩
      · exact .inr ⟨_, mid', Run.bind_of_error hy, .inr ⟨rfl, hmid⟩⟩
  · cases hrun

theorem keepsPace_inScope (index : Float) {x y : Evaluation σ Float}
    (h : KeepsPace d name limits Float x y) :
    KeepsPace d name limits Float (inScope index x) (inScope index y) := by
  intro ctx ctx' drifts outcome after hrun
  obtain ⟨inner, hx, rfl⟩ := inScope_eq_some hrun
  rcases h _ _ (drifts.within index) _ _ hx with refused | ⟨outcome', inner', hy, hend⟩
  · exact .inl refused
  · refine .inr ⟨outcome', _, inScope_of_some hy, hend.imp_right ?_⟩
    rintro ⟨rfl, hinner⟩
    rw [hinner.world]
    exact ⟨rfl, drifts.moved inner.world⟩

/-- Names are resolved alike, if the formulas that they stand for are evaluated alike. -/
theorem keepsPace_resolve (source : Source σ) {enter enter' : Node → Evaluation σ Float}
    (henter : ∀ root, KeepsPace d name limits Float (enter root) (enter' root)) (other : String) :
    KeepsPace d name limits Float (resolve source enter other) (resolve source enter' other) := by
  intro ctx ctx' drifts outcome after hrun
  have hindex' := drifts.boundIndex? other
  rcases hindex : ctx.boundIndex? other with _ | index
  · rw [hindex] at hindex'
    have hit := drifts.hit other
    have same : ctx'.limits.substitutions = ctx.limits.substitutions := by
      rw [drifts.limits_first, drifts.limits_second]
    by_cases refused : ctx.limits.substitutions < (ctx.hit other).hits.count other
    · rw [resolve_of_refused _ _ hindex refused] at hrun
      obtain ⟨rfl, rfl⟩ := Prod.mk.inj (Option.some.inj hrun)
      rcases hit.refused_first refused with ⟨first, rfl⟩ | refused'
      · exact .inl ⟨first, by rw [drifts.limits_first]; rfl⟩
      · refine .inr ⟨_, _, resolve_of_refused _ _ hindex' (same ▸ refused'), .inr ⟨?_, hit⟩⟩
        rw [same]
    · by_cases refused' : ctx'.limits.substitutions < (ctx'.hit other).hits.count other
      · rcases hit.refused_second refused' with ⟨second, rfl⟩ | hlt
        · refine .inr ⟨_, _, resolve_of_refused _ _ hindex' refused', .inl ⟨second, ?_⟩⟩
          rw [drifts.limits_second]
          rfl
        · exact absurd (same ▸ hlt) refused
      · rcases hfound : source other ctx.world with ⟨found, world⟩
        have hfound' : source other ctx'.world = (found, world) := drifts.world ▸ hfound
        rw [resolve_of_found _ _ hindex refused hfound] at hrun
        rw [resolve_of_found _ _ hindex' refused' hfound']
        cases found with
        | unbound | value =>
          obtain ⟨rfl, rfl⟩ := Prod.mk.inj (Option.some.inj hrun)
          exact .inr ⟨_, _, rfl, .inr ⟨rfl, hit.moved world⟩⟩
        | formula root => exact henter root _ _ (hit.moved world) outcome after hrun
  · rw [hindex] at hindex'
    rw [resolve_of_index _ _ hindex] at hrun
    obtain ⟨rfl, rfl⟩ := Prod.mk.inj (Option.some.inj hrun)
    exact .inr ⟨_, _, resolve_of_index _ _ hindex', .inr ⟨rfl, drifts⟩⟩

theorem lifts_keepsPace {E E' : Evaluator σ} (quiet : E.host.Quiet) (same : E'.host = E.host)
    (steps : E.steps ≤ E'.steps) : Lifts E E' (· ≤ ·) (KeepsPace d name limits) where
  ofExcept _ := keepsPace_of_alike fun ctx ctx' drifts => ⟨_, ctx, ctx', rfl, rfl, drifts⟩
  bind := KeepsPace.bind
  limit := keepsPace_of_alike fun ctx ctx' drifts => by
    have same : ctx'.limits = ctx.limits := drifts.limits_second.trans drifts.limits_first.symm
    exact ⟨_, ctx, ctx', rfl, by rw [Run.read_apply, same], drifts⟩
  poll := by
    rw [same]
    exact keepsPace_of_alike fun ctx ctx' drifts =>
      ⟨_, ctx, ctx', poll_of_quiet quiet ctx, poll_of_quiet quiet ctx', drifts⟩
  inScope := keepsPace_inScope
  exhausted _ _ := by
    intro ctx ctx' _ outcome after hrun
    cases hrun
  succ {m n} h := ⟨n - 1, by omega, by omega⟩
  steps := steps

theorem keepsPace_draw (host : Host σ) : KeepsPace d name limits Float (draw host) (draw host) := by
  refine keepsPace_of_alike fun ctx ctx' drifts => ?_
  refine ⟨_, _, { ctx' with world := (host.random ctx.world).2 }, rfl, ?_, drifts.moved _⟩
  unfold draw
  rw [drifts.world]

end KeepsPace

/-! ### Trees and the formulas that names stand for -/

/-- The evaluator of trees whose formulas are nested at most `steps` deep. -/
def Evaluator.nested (host : Host σ) (source : Source σ) (steps : Nat) : Evaluator σ :=
  ⟨host, source, evaluate host source steps, steps⟩

section Trees

variable {host : Host σ} (quiet : host.Quiet) {source : Source σ} {d : Drift} {name : String}
  {limits : Limits} {m n : Nat}
include quiet

/-- What passes the relation from subtrees to trees, once formulas keep pace. -/
theorem congruence_keepsPace (hmn : m ≤ n) (henter : ∀ root, KeepsPace d name limits Float
    (evaluate host source m root) (evaluate host source n root)) :
    Node.Congruence fun a b => KeepsPace d name limits Float ((Evaluator.nested host source m).run a)
      ((Evaluator.nested host source n).run b) := by
  have lifts : Lifts (Evaluator.nested host source m) (Evaluator.nested host source n) (· ≤ ·)
      (KeepsPace d name limits) := lifts_keepsPace quiet rfl hmn
  exact lifts.congruence (keepsPace_draw host) (keepsPace_resolve source henter)

/-- With at least as many steps, every tree keeps pace with itself. -/
theorem keepsPace_evaluate (hmn : m ≤ n) (node : Node) :
    KeepsPace d name limits Float (evaluate host source m node) (evaluate host source n node) := by
  induction m generalizing n node with
  | zero =>
    intro ctx ctx' _ outcome after hrun
    cases hrun
  | succ m ih =>
    obtain ⟨n, rfl⟩ : ∃ k, n = k + 1 := ⟨n - 1, by omega⟩
    have hle : m ≤ n := by omega
    exact (congruence_keepsPace quiet hle fun root => ih hle root).refl node

theorem congruence_nested (hmn : m ≤ n) :
    Node.Congruence fun a b => KeepsPace d name limits Float ((Evaluator.nested host source m).run a)
      ((Evaluator.nested host source n).run b) :=
  congruence_keepsPace quiet hmn fun root => keepsPace_evaluate quiet hmn root

end Trees

/-! ### A name and its copy -/

section Copy

variable {name : String} {limits : Limits} {ctx ctx' : Context σ}

theorem boundIndex?_of_ne (h : name ≠ summationIndex) : ctx.boundIndex? name = none :=
  if_neg h

/-- The first run counts the name once more. -/
theorem Context.Drifts.hit_ahead (h : ctx.Drifts .ahead name limits ctx') :
    (ctx.hit name).Drifts .ahead name limits ctx' where
  limits_first := h.limits_first
  limits_second := h.limits_second
  index := h.index
  world := h.world
  others key hkey := by
    show ctx'.hits.count key = (ctx.hits.add name).count key
    rw [Tally.count_add, if_neg hkey.symm]
    exact h.others key hkey
  own := by
    show ctx'.hits.count name ≤ (ctx.hits.add name).count name
    rw [Tally.count_add, if_pos rfl]
    exact Nat.le_succ_of_le h.own

/-- The second run counts the name once more. -/
theorem Context.Drifts.hit_behind (h : ctx.Drifts .behind name limits ctx') :
    ctx.Drifts .behind name limits (ctx'.hit name) where
  limits_first := h.limits_first
  limits_second := h.limits_second
  index := h.index
  world := h.world
  others key hkey := by
    show (ctx'.hits.add name).count key = ctx.hits.count key
    rw [Tally.count_add, if_neg hkey.symm]
    exact h.others key hkey
  own := by
    show ctx.hits.count name ≤ (ctx'.hits.add name).count name
    rw [Tally.count_add, if_pos rfl]
    exact Nat.le_succ_of_le h.own

/-- The copy is the tree of a formula, with its outermost node or without it. -/
def IsCopy (root copy : Node) : Prop :=
  copy = root ∨ root = .finite copy

/-- Between parentheses a copy comes to what the formula comes to. -/
theorem Evaluator.run_copy {E : Evaluator σ} (quiet : E.host.Quiet) {inner copy : Node}
    (h : IsCopy (.finite inner) copy) : E.run (.unary .paren copy) = E.run (.finite inner) := by
  rcases h with rfl | h
  · exact E.run_paren quiet (E.checked_finite inner)
  · obtain rfl := Node.finite.inj h
    rfl

end Copy

section Inlining

variable {host : Host σ} (quiet : host.Quiet) {source : Source σ} {name : String} {limits : Limits}
  {m n : Nat} {inner copy : Node} (other : name ≠ summationIndex)
  (bound : ∀ world, source name world = (.formula (.finite inner), world))
  (isCopy : IsCopy (.finite inner) copy)
include quiet

/-- A reference comes to what its name is resolved to. -/
theorem run_reference (inSummation : Bool) (ctx : Context σ) :
    (Evaluator.nested host source n).run (.reference name inSummation) ctx =
      resolve source (evaluate host source n) name ctx :=
  Run.bind_of_ok (poll_of_quiet quiet ctx)

include other bound isCopy

/-- Whatever the name comes to, the copy does; the name is counted once more. -/
theorem keepsPace_copy (hmn : m ≤ n) (inSummation : Bool) :
    KeepsPace .ahead name limits Float
      ((Evaluator.nested host source m).run (.reference name inSummation))
      ((Evaluator.nested host source n).run (.unary .paren copy)) := by
  intro ctx ctx' drifts outcome after hrun
  have hindex : ctx.boundIndex? name = none := boundIndex?_of_ne other
  have hcopy := Evaluator.run_copy (E := .nested host source n) quiet isCopy
  rw [run_reference quiet] at hrun
  rw [hcopy]
  by_cases refused : ctx.limits.substitutions < (ctx.hit name).hits.count name
  · rw [resolve_of_refused _ _ hindex refused] at hrun
    obtain ⟨rfl, rfl⟩ := Prod.mk.inj (Option.some.inj hrun)
    exact .inl ⟨trivial, by rw [drifts.limits_first]; rfl⟩
  · rw [resolve_of_found _ _ hindex refused (bound ctx.world)] at hrun
    cases m with
    | zero => cases hrun
    | succ m =>
      have pace : KeepsPace .ahead name limits Float
          ((Evaluator.nested host source m).run (.finite inner))
          ((Evaluator.nested host source n).run (.finite inner)) :=
        (congruence_nested quiet (Nat.le_of_succ_le hmn)).refl _
      exact pace (ctx.hit name) ctx' drifts.hit_ahead outcome after hrun

/-- Whatever the copy comes to, the name does, unless it is refused. -/
theorem keepsPace_name (hmn : m < n) (inSummation : Bool) :
    KeepsPace .behind name limits Float
      ((Evaluator.nested host source m).run (.unary .paren copy))
      ((Evaluator.nested host source n).run (.reference name inSummation)) := by
  intro ctx ctx' drifts outcome after hrun
  have hindex : ctx'.boundIndex? name = none := boundIndex?_of_ne other
  have hcopy := Evaluator.run_copy (E := .nested host source m) quiet isCopy
  rw [hcopy] at hrun
  rw [run_reference quiet]
  by_cases refused : ctx'.limits.substitutions < (ctx'.hit name).hits.count name
  · refine .inr ⟨_, _, resolve_of_refused _ _ hindex refused, .inl ⟨trivial, ?_⟩⟩
    rw [drifts.limits_second]
    rfl
  · obtain ⟨n, rfl⟩ : ∃ k, n = k + 1 := ⟨n - 1, by omega⟩
    rw [resolve_of_found _ _ hindex refused (bound ctx'.world)]
    have pace : KeepsPace .behind name limits Float
        ((Evaluator.nested host source m).run (.finite inner))
        ((Evaluator.nested host source n).run (.finite inner)) :=
      (congruence_nested quiet (Nat.le_of_lt_succ hmn)).refl _
    exact pace ctx (ctx'.hit name) drifts.hit_behind outcome after hrun

/-- A tree that comes to a result comes to it with the copies, unless it is refused the name. -/
theorem evaluate_inlined {steps : Nat} {node : Node} {world : σ} {outcome : Except Fault Float}
    {after : Context σ}
    (h : evaluate host source steps node (Context.fresh limits world) = some (outcome, after)) :
    Refused name limits outcome ∨ ∃ after',
      evaluate host source steps (node.inlined name copy) (Context.fresh limits world) =
        some (outcome, after') ∧ after'.world = after.world := by
  cases steps with
  | zero => cases h
  | succ m =>
    have pace : KeepsPace .ahead name limits Float ((Evaluator.nested host source m).run node)
        ((Evaluator.nested host source m).run (node.inlined name copy)) :=
      (congruence_nested quiet (Nat.le_refl m)).inlined
        (keepsPace_copy quiet other bound isCopy (Nat.le_refl m)) node
    rcases pace _ _ (drifts_fresh .ahead name limits world) _ _ h with
      ⟨-, refused⟩ | ⟨outcome', after', hrun, ⟨⟨⟩, -⟩ | ⟨rfl, drifts⟩⟩
    · exact .inl refused
    · exact .inr ⟨after', hrun, drifts.world⟩

/-- What a tree comes to with the copies it comes to without them, given one step more, unless it is refused
the name. -/
theorem evaluate_of_inlined {steps : Nat} {node : Node} {world : σ} {outcome : Except Fault Float}
    {after : Context σ} (h : evaluate host source steps (node.inlined name copy)
      (Context.fresh limits world) = some (outcome, after)) :
    ∃ outcome' after', evaluate host source (steps + 1) node (Context.fresh limits world) =
        some (outcome', after') ∧
      (Refused name limits outcome' ∨ outcome' = outcome ∧ after'.world = after.world) := by
  cases steps with
  | zero => cases h
  | succ m =>
    have pace : KeepsPace .behind name limits Float
        ((Evaluator.nested host source m).run (node.inlined name copy))
        ((Evaluator.nested host source (m + 1)).run node) :=
      (congruence_nested quiet (Nat.le_succ m)).flip.inlined
        (keepsPace_name quiet other bound isCopy (Nat.lt_succ_self m)) node
    rcases pace _ _ (drifts_fresh .behind name limits world) _ _ h with
      ⟨⟨⟩, -⟩ | ⟨outcome', after', hrun, ⟨-, refused⟩ | ⟨rfl, drifts⟩⟩
    · exact ⟨outcome', after', hrun, .inl refused⟩
    · exact ⟨outcome', after', hrun, .inr ⟨rfl, drifts.world⟩⟩

end Inlining

/-! ### Expressions -/

/-- The expression with a copy between parentheses wherever it refers to the name. -/
def Expression.inlined (e : Expression) (name : String) (copy : Node) : Expression :=
  { e with root := e.root.inlined name copy }

/-- Binding a formula is the same as inlining it: unless the expression is refused the name, it comes to a
result exactly if the expression with copies of the formula does, with the same values supplied in the same
order. -/
theorem Expression.evaluateUnder_inlined {host : Host σ} (quiet : host.Quiet) {v : Bindings σ}
    {name : String} (other : name ≠ summationIndex) {bound : Expression}
    (hbound : v.get? name = some (.formula bound)) (read : bound.IsRead) {copy : Node}
    (isCopy : IsCopy bound.root copy) (e : Expression) (limits : Limits) (world : σ)
    (unrefused : ∀ steps outcome after,
      e.evaluateUnder limits host v.source steps world = some (outcome, after) →
        ¬ Refused name limits outcome)
    (result : Except Fault Float × σ) :
    (∃ steps, e.evaluateUnder limits host v.source steps world = some result) ↔
      ∃ steps, (e.inlined name copy).evaluateUnder limits host v.source steps world =
        some result := by
  obtain ⟨inner, hinner⟩ := read.exists_inner
  rw [hinner] at isCopy
  have hsource : ∀ world, v.source name world = (.formula (.finite inner), world) := by
    intro world
    unfold Bindings.source
    rw [hbound, ← hinner]
    rfl
  constructor
  · rintro ⟨steps, h⟩
    have hfresh := h
    unfold Expression.evaluateUnder at hfresh ⊢
    rw [evaluateFresh_eq_map, Option.map_eq_some_iff] at hfresh
    obtain ⟨⟨outcome, after⟩, hrun, rfl⟩ := hfresh
    rcases evaluate_inlined quiet other hsource isCopy hrun with refused | ⟨after', hrun', hworld⟩
    · exact absurd refused (unrefused _ _ _ h)
    · refine ⟨steps, ?_⟩
      rw [evaluateFresh_eq_map]
      show (Formulae.evaluate host v.source steps (e.root.inlined name copy) _).map _ = _
      rw [hrun', Option.map_some, hworld]
  · rintro ⟨steps, h⟩
    unfold Expression.evaluateUnder at h
    rw [evaluateFresh_eq_map, Option.map_eq_some_iff] at h
    obtain ⟨⟨outcome, after⟩, hrun, rfl⟩ := h
    obtain ⟨outcome', after', hrun', hend⟩ := evaluate_of_inlined quiet other hsource isCopy hrun
    have h' : e.evaluateUnder limits host v.source (steps + 1) world =
        some (outcome', after'.world) := by
      unfold Expression.evaluateUnder
      rw [evaluateFresh_eq_map, hrun']
      rfl
    rcases hend with refused | ⟨rfl, hworld⟩
    · exact absurd refused (unrefused _ _ _ h')
    · exact ⟨steps + 1, by rw [h', hworld]⟩

/-- A supplier that is asked anew each time, and a formula of the index and of what it supplies. -/
def counting (bound : Expression) : Bindings World :=
  ⟨[("x", .formula bound), ("y", .supplier fun world => (.ok 3.0, { world with seed := world.seed + 1 }))]⟩

/-- A formula of the index, bound outside of the sum in which it is evaluated. -/
theorem Expression.evaluateUnder_inlined_sum :
    ∃ e bound : Expression,
      Expression.read (Deadline.host ⟨1000, none⟩) ⟨false, true, {}⟩ 3 "sum(1, 2, x)"
        (World.start 0) = some (.ok e, World.start 0) ∧
      bound.root = .finite (.binary .mul (.reference "n" false) (.reference "y" false)) ∧
      bound.IsRead ∧
      e.evaluateUnder {} (Deadline.host ⟨1000, none⟩) (counting bound).source 9 (World.start 0) =
        some (.ok 9.0, World.start 2) ∧
      ∃ steps, (e.inlined "x" bound.root).evaluateUnder {} (Deadline.host ⟨1000, none⟩)
        (counting bound).source steps (World.start 0) = some (.ok 9.0, World.start 2) := by
  have quiet := Deadline.quiet_host 1000 (by decide)
  have hroot : readNode (Deadline.host ⟨1000, none⟩) ⟨false, true, {}⟩ 3 "sum(1, 2, x)"
      (World.start 0) = some (.ok (.finite (.summation (.number 1) (.number 2)
        (.reference "x" true))), World.start 0) := by
    decide +kernel
  have hbound : readNode (Deadline.host ⟨1000, none⟩) ⟨false, true, {}⟩ 3 "n y" (World.start 0) =
      some (.ok (.finite (.binary .mul (.reference "n" false) (.reference "y" false))),
        World.start 0) := by
    decide +kernel
  have read : Expression.IsRead ⟨"n y", .finite (.binary .mul (.reference "n" false)
      (.reference "y" false)), {}⟩ :=
    ⟨World, _, _, _, _, _, _, Expression.read_of_readNode hbound⟩
  have hvalue : Expression.evaluateUnder ⟨"sum(1, 2, x)", .finite (.summation (.number 1) (.number 2)
      (.reference "x" true)), {}⟩ {} (Deadline.host ⟨1000, none⟩) (counting ⟨"n y", .finite
        (.binary .mul (.reference "n" false) (.reference "y" false)), {}⟩).source 9 (World.start 0) =
        some (.ok 9.0, World.start 2) := by
    decide +kernel
  refine ⟨_, _, Expression.read_of_readNode hroot, rfl, read, hvalue, ?_⟩
  refine (Expression.evaluateUnder_inlined quiet (by decide) rfl read (.inl rfl) _ {} _ ?_ _).mp
    ⟨9, hvalue⟩
  intro steps outcome after h refused
  obtain ⟨rfl, -⟩ := Prod.mk.inj (evaluateFresh_unique quiet h hvalue)
  cases refused

end Formulae
