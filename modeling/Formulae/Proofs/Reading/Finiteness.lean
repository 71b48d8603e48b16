import Formulae.Proofs.Evaluation.Finiteness
import Formulae.Proofs.Reading.Congruence

/-!
# Proofs.Reading.Finiteness — the trees that are read have finite numbers only

Numerals beyond the range of doubles are refused, the named constants are finite, and a constant subtree
that is folded comes to a finite number, whatever the host does: it draws no random numbers.

* `isFinite_of_evaluateFresh_constant`: what a constant subtree comes to.
* `readNode_numbers`: what holds of all numbers that a reading makes holds of those in the tree.
* `readNode_allFinite`: they are finite.
-/

namespace Formulae

open Number Evaluation

variable {σ : Type}

/-! ### Constant subtrees -/

/-- Without bindings a constant tree comes to the same under hosts that poll in the same way. -/
theorem evaluate_eq_of_poll {host host' : Host σ} (hpoll : host'.poll = host.poll) (steps : Nat)
    {node : Node} (hclosed : node.isClosed = true) :
    evaluate host' Source.none steps node = evaluate host Source.none steps node := by
  have hpolls : poll host' = poll host := by
    unfold poll
    rw [hpoll]
  cases steps with
  | zero => rfl
  | succ steps =>
    have hlifts : Lifts ⟨host', Source.none, evaluate host' Source.none steps, steps⟩
        ⟨host, Source.none, evaluate host Source.none steps, steps⟩ Eq (fun _ x y => x = y) := by
      refine ⟨⟨⟨⟨fun _ => rfl, ?_⟩, hpolls, ?_, ?_, rfl⟩, rfl⟩, ?_⟩
      · intro α β x y f g hxy hfg
        rw [hxy, funext hfg]
      · exact fun hn hy => (hy hn.symm).symm
      · exact fun hn => ⟨_, hn.symm, rfl⟩
      · exact fun index x y hxy => congrArg (inScope index) hxy
    refine hlifts.closed (fun name => ?_) hclosed
    funext ctx
    rcases hindex : ctx.boundIndex? name with _ | index
    · rw [resolve_none_of_unindexed _ hindex, resolve_none_of_unindexed _ hindex]
    · rw [resolve_of_index _ _ hindex, resolve_of_index _ _ hindex]

/-- What a constant subtree comes to is finite. -/
theorem isFinite_of_evaluateFresh_constant {host : Host σ} {steps : Nat} {limits : Limits}
    {node : Node} (h : node.AllFinite) (hconstant : node.isConstant = true) {world after : σ} {x : Float}
    (hx : evaluateFresh host Source.none steps limits node world = some (.ok x, after)) :
    x.isFinite = true := by
  have hunit : (0.0 : Float) ≤ 0.0 ∧ (0.0 : Float) < 1.0 := by decide +kernel
  have huniform : Host.Uniform { host with random := fun world => (0.0, world) } := fun _ => hunit
  have hsource : (Source.none : Source σ).Finite := fun _ _ => trivial
  have hpoll : ({ host with random := fun world => (0.0, world) } : Host σ).poll = host.poll := rfl
  have hclosed : node.isClosed = true := node.isConstant_eq_isClosed ▸ hconstant
  rw [evaluateFresh_eq_map, Option.map_eq_some_iff] at hx
  obtain ⟨⟨outcome, ctx⟩, hrun, heq⟩ := hx
  obtain rfl : outcome = .ok x := (Prod.mk.inj heq).1
  rw [← evaluate_eq_of_poll hpoll steps hclosed] at hrun
  exact (isFinite_of_evaluate huniform hsource h (finiteIndex_fresh limits world) hrun).1

namespace Reading

open Grammar

/-! ### The numbers of what is read -/

/-- Whatever numbers a reading puts into a tree satisfy `P`. -/
structure Makes (P : Float → Prop) (host : Host σ) (options : ReadingOptions) (steps : Nat) : Prop where
  numeral : ∀ {text value}, Numeral.value? text = some value → P value
  named : ∀ {name value}, (name, value) ∈ namedValues → P value
  folded : ∀ {node : Node} {world after : σ} {x : Float}, options.foldConstants = true →
    node.Numbers P → node.isConstant = true →
    evaluateFresh host Source.none steps options.limits node world = some (.ok x, after) → P x

theorem makes_any (g : Setting σ) : Makes (fun _ => True) g.host g.options g.steps :=
  ⟨fun _ => trivial, fun _ => trivial, fun _ _ _ _ => trivial⟩

/-- A subtree that was read: its numbers satisfy `P`, and the flag tells whether it is constant. -/
structure Sound (P : Float → Prop) (p : Parsed) : Prop where
  numbers : p.node.Numbers P
  constant : p.constant = p.node.isConstant

/-- The reading yields what is related to something. -/
def YieldsOnly {α β : Type} (rel : α → β → Prop) (x : Reading σ α) (_ : Reading σ β) : Prop :=
  ∀ r, Run.Meets x r (fun a _ => ∃ b, rel a b) fun _ => True

theorem yieldsOnly_eq {α : Type} (x : Reading σ α) : YieldsOnly Eq x x := by
  intro r
  unfold Run.Meets
  rcases x r with _ | ⟨_ | a, t⟩
  · trivial
  · trivial
  · exact ⟨a, rfl⟩

theorem YieldsOnly.of_ok {α β : Type} {rel : α → β → Prop} {x : Reading σ α} {y : Reading σ β}
    (h : YieldsOnly rel x y) {r t : Reader σ} {a : α} (hrun : x r = some (.ok a, t)) : ∃ b, rel a b := by
  have hmeets := h r
  unfold Run.Meets at hmeets
  rwa [hrun] at hmeets

theorem carries_yieldsOnly (host : Host σ) : Carries host host YieldsOnly where
  pure hab := fun _ => ⟨_, hab⟩
  bind hx hf := fun r => (hx r).bind fun a t ⟨b, hab⟩ => hf a b hab t
  exhausted _ := fun _ => trivial
  cursor := yieldsOnly_eq _
  fail _ _ := fun _ => trivial
  moveTo _ := yieldsOnly_eq _
  advance := yieldsOnly_eq _

section Sound

variable {P : Float → Prop}

theorem Sound.joined {join : Node → Node → Node} (joins : Joins join) {p q : Parsed}
    (hp : Sound P p) (hq : Sound P q) :
    Sound P ⟨join p.node q.node, p.constant && q.constant⟩ := by
  refine ⟨joins.numbers.mpr ⟨hp.numbers, hq.numbers⟩, ?_⟩
  rw [joins.isConstant, hp.constant, hq.constant]

theorem Sound.unary (op : UnaryOp) {p : Parsed} (h : Sound P p) :
    Sound P ⟨.unary op p.node, p.constant⟩ :=
  ⟨h.numbers, h.constant.trans (Node.isConstant_unary op p.node).symm⟩

/-- The numbers of a call are those of its arguments. -/
theorem numbers_of_calls {name : String} {args : List Node} {node : Node} (h : Calls name args node)
    (hargs : ∀ arg ∈ args, arg.Numbers P) : node.Numbers P := by
  cases h with
  | random => trivial
  | unary => simpa using hargs
  | binary => simpa using hargs
  | choice => simpa using hargs
  | summation => simpa using hargs

/-- A call of sound arguments is sound. -/
theorem Sound.call {name : String} {ps : List Parsed} {node : Node}
    (hnode : callNode? name (ps.map Parsed.node) = some node) (hps : ∀ p ∈ ps, Sound P p) :
    Sound P ⟨node, !ps.isEmpty && ps.all Parsed.constant⟩ := by
  have hcalls := callNode?_eq_some_iff.mp hnode
  have hall : ps.all Parsed.constant = (ps.map Parsed.node).all Node.isConstant := by
    rw [Bool.eq_iff_iff, List.all_eq_true, List.all_eq_true, List.forall_mem_map]
    exact forall₂_congr fun p hp => by rw [(hps p hp).constant]
  refine ⟨numbers_of_calls hcalls ?_, ?_⟩
  · exact List.forall_mem_map.mpr fun p hp => (hps p hp).numbers
  · rw [hcalls.isConstant, List.isEmpty_map, hall]

variable {g : Setting σ} (h : Makes P g.host g.options g.steps)
include h

theorem yieldsOnly_finish {node : Node} {constant : Bool} (hs : Sound P ⟨node, constant⟩) :
    YieldsOnly (fun p _ => Sound P p) (finish g node constant) (finish g node constant) := by
  have hfold : constant = true → g.options.foldConstants = true → ∀ r,
      Run.Meets (fold g.host g.steps g.options.limits node) r
        (fun node' _ => Sound P ⟨node', constant⟩) fun _ => True := by
    intro hconstant hfolds r
    have hnode : node.isConstant = true := hs.constant.symm.trans hconstant
    unfold Run.Meets fold
    cases node.isLiteral with
    | true => exact hs
    | false =>
      simp only [Bool.false_eq_true, if_false]
      rcases hrun : evaluateFresh g.host Source.none g.steps g.options.limits node r.world with
        _ | ⟨fault | value, world⟩
      · trivial
      · cases fault with
        | interrupted cancelled => trivial
        | _ => exact hs
      · have hvalue := h.folded hfolds hs.numbers hnode hrun
        exact ⟨hvalue, hconstant.trans (Node.isConstant_constant _ _).symm⟩
  intro r
  unfold finish
  rcases hboth : constant && g.options.foldConstants
  · exact ⟨⟨node, constant⟩, hs⟩
  · obtain ⟨hconstant, hfolds⟩ := (Bool.and_eq_true _ _).mp hboth
    exact (hfold hconstant hfolds r).bind fun node' _ hs' => ⟨⟨node', constant⟩, hs'⟩

theorem sound_reference (name : String) (inside : Bool) : Sound P (reference name inside) := by
  refine ⟨?_, reference_constant name inside⟩
  have hstands : StandsFor inside name (reference name inside).node := standsFor_iff.mpr rfl
  generalize (reference name inside).node = node at hstands
  cases hstands with
  | constant mem => exact h.named mem
  | reference free => trivial

theorem yieldsOnly_call (name : String) (start : Nat) {ps : List Parsed}
    (hps : ∀ p ∈ ps, Sound P p) :
    YieldsOnly (fun p _ => Sound P p) (call g name ps start) (call g name ps start) := by
  unfold call
  rcases hnode : callNode? name (ps.map Parsed.node) with _ | node
  · exact (carries_yieldsOnly g.host).failAt _ _
  · exact yieldsOnly_finish h (.call hnode hps)

/-- What is read is sound, if what is nested deeper is. -/
theorem relates_yieldsOnly (hdescend : ∀ entry inside,
    YieldsOnly (fun p _ => Sound P p) (g.descend entry inside) (g.descend entry inside)) :
    Relates (fun p _ => Sound P p) g g YieldsOnly where
  toCarries := carries_yieldsOnly g.host
  rounds := .inl rfl
  descend := hdescend
  number hvalue := ⟨h.numeral hvalue, (Node.isConstant_number _).symm⟩
  reference := sound_reference h
  call name start ps qs hargs := by
    refine yieldsOnly_call h name start ?_
    induction hargs with
    | nil => exact nofun
    | cons hp _ ih => exact List.forall_mem_cons.mpr ⟨hp, ih⟩
  paren hp := yieldsOnly_finish h (hp.unary .paren)
  neg hp := yieldsOnly_finish h (hp.unary .neg)
  joined joins hp hq := yieldsOnly_finish h (hp.joined joins hq)

end Sound

/-- What holds of all trees that whole texts yield holds of a tree that was read. -/
theorem of_readNode {P : Node → Prop} {host : Host σ} {options : ReadingOptions} {steps : Nat}
    {source : String} {world after : σ} {root : Node}
    (hwhole : YieldsOnly (fun node _ => P node) (whole host options steps (depthBound source))
      (whole host options steps (depthBound source)))
    (hread : readNode host options steps source world = some (.ok root, after)) : P root := by
  rw [readNode_eq_map, Option.map_eq_some_iff] at hread
  obtain ⟨⟨outcome, r⟩, hrun, heq⟩ := hread
  obtain rfl : outcome = .ok root := (Prod.mk.inj heq).1
  exact (hwhole.of_ok hrun).choose_spec

/-- What is nested is sound. -/
theorem yieldsOnly_nested {P : Float → Prop} {host : Host σ} {options : ReadingOptions} {steps : Nat}
    (h : Makes P host options steps) (depth : Nat) (entry : Entry) (inside : Bool) :
    YieldsOnly (fun p _ => Sound P p) (nested host options steps depth entry inside)
      (nested host options steps depth entry inside) :=
  nested_related (carries_yieldsOnly host).toSequences
    (fun _ hdescend => (relates_yieldsOnly h hdescend).chains) depth entry inside

/-- The numbers of a tree that was read are those that readings make. -/
theorem readNode_numbers {P : Float → Prop} {host : Host σ} {options : ReadingOptions} {steps : Nat}
    (h : Makes P host options steps) {source : String} {world after : σ} {root : Node}
    (hread : readNode host options steps source world = some (.ok root, after)) :
    root.Numbers P := by
  have hwhole : YieldsOnly (fun node _ => node.Numbers P)
      (whole host options steps (depthBound source)) (whole host options steps (depthBound source)) :=
    whole_related (carries_yieldsOnly host) rfl (yieldsOnly_nested h _ _ _) fun hp => hp.numbers
  exact of_readNode hwhole hread

/-- The outermost node of every tree that is read lets only finite values pass. -/
theorem exists_inner_of_readNode {host : Host σ} {options : ReadingOptions} {steps : Nat}
    {source : String} {world after : σ} {root : Node}
    (h : readNode host options steps source world = some (.ok root, after)) :
    ∃ inner, root = .finite inner := by
  have hnested : YieldsOnly (fun _ _ => True)
      (nested host options steps (depthBound source) .formula options.insideSummation)
      (nested host options steps (depthBound source) .formula options.insideSummation) :=
    fun r => (yieldsOnly_eq _ r).mono fun a _ _ => ⟨a, trivial⟩
  have hwhole : YieldsOnly (fun node _ => ∃ inner, node = .finite inner)
      (whole host options steps (depthBound source)) (whole host options steps (depthBound source)) :=
    whole_related (carries_yieldsOnly host) rfl hnested fun {p _} _ => ⟨p.node, rfl⟩
  exact of_readNode hwhole h

/-! ### Finite numbers -/

theorem isFinite_of_namedValues {name : String} {value : Float} (h : (name, value) ∈ namedValues) :
    value.isFinite = true := by
  have hall : ∀ value ∈ namedValues.map Prod.snd, value.isFinite = true := by decide +kernel
  exact hall value (List.mem_map_of_mem h)

/-- Every tree that is read has finite numbers only. -/
theorem readNode_allFinite (host : Host σ) (options : ReadingOptions) (steps : Nat) (source : String)
    {world after : σ} {root : Node}
    (h : readNode host options steps source world = some (.ok root, after)) : root.AllFinite := by
  have hmakes : Makes (fun x => x.isFinite = true) host options steps :=
    { numeral := fun h => (Option.filter_eq_some_iff.mp h).2
      named := isFinite_of_namedValues
      folded := fun _ hnode hconstant hx =>
        isFinite_of_evaluateFresh_constant hnode hconstant hx }
  exact readNode_numbers hmakes h

end Reading

end Formulae
