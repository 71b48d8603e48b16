import Formulae.Proofs.Reading.Finiteness
import Formulae.Proofs.Rendering
import Formulae.Proofs.Restating

/-!
# Proofs.NormalForm — what folding leaves of a formula

With folding, every value in the tree is labelled with a formula that comes to it, and no constant subtree
that comes to a value is left standing.

* `Node.Occurs inside node sub place`: `sub` stands in the tree, at a place among the arguments of a
  summation or not. What stands in a settled tree was settled there (`exists_origin`).
* `Grammar.Derives.occurs`: what stands in a tree of the grammar is a tree of the grammar, so its plain text
  is read as it.
* `Expression.read_normal`: folding reaches the normal form.
-/

namespace Formulae

open Evaluation Number

namespace Node

/-- Whether what stands right below the node is among the arguments of a summation. -/
def placeBelow (inside : Bool) : Node → Bool
  | .summation _ _ _ => true
  | _ => inside

/-- The subtree is the tree itself or stands somewhere below it; its place tells whether it is among the
arguments of a summation. -/
inductive Occurs (inside : Bool) (node : Node) : Node → Bool → Prop where
  | root : Occurs inside node node inside
  | child {parent child : Node} {place : Bool} (above : Occurs inside node parent place)
      (mem : child ∈ parent.childrenReversed) : Occurs inside node child (parent.placeBelow place)

section Occurs

variable {inside place : Bool} {node child sub out : Node}

theorem IsFolded.childrenReversed (h : node.IsFolded) : node.childrenReversed = [] := by
  obtain ⟨value, label, rfl⟩ := h
  rfl

theorem Numbers.of_mem {P : Float → Prop} (h : node.Numbers P) (mem : child ∈ node.childrenReversed) :
    child.Numbers P := by
  cases node with
  | number | constant | reference | random => cases mem
  | unary | finite =>
    obtain rfl := List.mem_singleton.mp mem
    exact h
  | binary | comparison | logic =>
    obtain ⟨ha, hb⟩ := h
    rcases List.mem_pair.mp mem with rfl | rfl
    · exact hb
    · exact ha
  | choice | summation =>
    obtain ⟨ha, hb, hc⟩ := h
    rcases List.mem_cons.mp mem with rfl | mem
    · exact hc
    · rcases List.mem_pair.mp mem with rfl | rfl
      · exact hb
      · exact ha

theorem Numbers.of_occurs {P : Float → Prop} (h : node.Numbers P) (hsub : node.Occurs inside sub place) :
    sub.Numbers P := by
  induction hsub with
  | root => exact h
  | child _ mem ih => exact ih.of_mem mem

/-! ### Where the subtrees of a settled tree come from -/

/-- The subtree was settled from one right below the other tree, at the same place. -/
def SettledBelow (settle : Node → Option Node) (node out child : Node) : Prop :=
  (∃ origin ∈ node.childrenReversed, origin.refold settle = some child) ∧
    ∀ inside, out.placeBelow inside = node.placeBelow inside

variable {settle : Node → Option Node} (steady : Steady settle)
include steady

/-- The subtrees right below a settled node were settled from those of the node before, at the same place. -/
structure SettledChildren (settle : Node → Option Node) (node out : Node) : Prop where
  children : List.Forall₂ (fun origin child => origin.refold settle = some child) node.childrenReversed
    out.childrenReversed
  placeBelow : ∀ inside, out.placeBelow inside = node.placeBelow inside

/-- A settled node stays, or it is folded and nothing stands below it. -/
theorem settledChildren_of_settle {mid : Node} (hs : settle mid = some out)
    (stays : SettledChildren settle node mid) :
    out.childrenReversed = [] ∨ SettledChildren settle node out := by
  rcases steady.shape hs with rfl | folded
  · exact .inr stays
  · exact .inl folded.childrenReversed

theorem settledChildren_of_refold (hn : node.refold settle = some out) :
    out.childrenReversed = [] ∨ SettledChildren settle node out := by
  cases node with
  | number | constant | reference =>
    obtain rfl := Option.some.inj hn
    exact .inl rfl
  | random => exact settledChildren_of_settle steady hn ⟨.nil, fun _ => rfl⟩
  | finite a =>
    obtain ⟨a', ha, hs⟩ := Option.bind_eq_some_iff.mp hn
    obtain rfl := Option.some.inj hs
    exact .inr ⟨.cons ha .nil, fun _ => rfl⟩
  | unary op a =>
    obtain ⟨a', ha, hs⟩ := Option.bind_eq_some_iff.mp hn
    exact settledChildren_of_settle steady hs ⟨.cons ha .nil, fun _ => rfl⟩
  | binary op a b | comparison op a b | logic op a b =>
    obtain ⟨a', ha, hn⟩ := Option.bind_eq_some_iff.mp hn
    obtain ⟨b', hb, hs⟩ := Option.bind_eq_some_iff.mp hn
    exact settledChildren_of_settle steady hs ⟨.cons hb (.cons ha .nil), fun _ => rfl⟩
  | choice a b c | summation a b c =>
    obtain ⟨a', ha, hn⟩ := Option.bind_eq_some_iff.mp hn
    obtain ⟨b', hb, hn⟩ := Option.bind_eq_some_iff.mp hn
    obtain ⟨c', hc, hs⟩ := Option.bind_eq_some_iff.mp hn
    exact settledChildren_of_settle steady hs ⟨.cons hc (.cons hb (.cons ha .nil)), fun _ => rfl⟩

omit steady in
theorem exists_origin_of_mem {origins children : List Node}
    (h : List.Forall₂ (fun origin child => origin.refold settle = some child) origins children)
    (mem : child ∈ children) : ∃ origin ∈ origins, origin.refold settle = some child := by
  induction h with
  | nil => cases mem
  | cons hchild _ ih =>
    rcases List.mem_cons.mp mem with rfl | mem
    · exact ⟨_, List.mem_cons_self, hchild⟩
    · obtain ⟨origin, horigin, hrefold⟩ := ih mem
      exact ⟨origin, List.mem_cons_of_mem _ horigin, hrefold⟩

theorem settledBelow_of_refold (hn : node.refold settle = some out)
    (mem : child ∈ out.childrenReversed) : SettledBelow settle node out child := by
  rcases settledChildren_of_refold steady hn with hleaf | ⟨hchildren, hplace⟩
  · rw [hleaf] at mem
    cases mem
  · exact ⟨exists_origin_of_mem hchildren mem, hplace⟩

/-- Every subtree of a settled tree was settled from one of the tree before, at the same place. -/
theorem exists_origin (hn : node.refold settle = some out) (hsub : out.Occurs inside sub place) :
    ∃ origin, node.Occurs inside origin place ∧ origin.refold settle = some sub := by
  induction hsub with
  | root => exact ⟨node, .root, hn⟩
  | child _ mem ih =>
    obtain ⟨above, habove, hrefold⟩ := ih
    obtain ⟨⟨origin, horigin, hchild⟩, hplace⟩ := settledBelow_of_refold steady hrefold mem
    rw [hplace]
    exact ⟨origin, .child habove horigin, hchild⟩

end Occurs

end Node

namespace Grammar

/-! ### The subtrees of a tree of the grammar -/

theorem Joins.mem_of_child {join : Node → Node → Node} (joins : Joins join) {left right child : Node}
    (mem : child ∈ (join left right).childrenReversed) : child = right ∨ child = left := by
  cases joins <;> exact List.mem_pair.mp mem

theorem Joins.placeBelow {join : Node → Node → Node} (joins : Joins join) (left right : Node)
    (inside : Bool) : (join left right).placeBelow inside = inside := by
  cases joins <;> rfl

theorem Joins.ne_finite {join : Node → Node → Node} (joins : Joins join) (left right inner : Node) :
    join left right ≠ .finite inner := by
  cases joins <;> exact nofun

section Calls

variable {name : String} {args : List Node} {node : Node}

theorem Calls.mem_of_child (h : Calls name args node) {child : Node}
    (mem : child ∈ node.childrenReversed) : child ∈ args := by
  cases h with
  | random => cases mem
  | unary => exact mem
  | binary => exact List.mem_reverse.mp mem
  | choice | summation => exact List.mem_reverse.mp mem

theorem Calls.placeBelow (h : Calls name args node) (inside : Bool) :
    node.placeBelow inside = (inside || decide (name ∈ summationNames)) := by
  have hall : ∀ name ∈ "if" :: (randomNames ++ unaryFunctions.map Prod.fst ++
      binaryFunctions.map Prod.fst), name ∉ summationNames := by decide
  have other (mem : name ∈ "if" :: (randomNames ++ unaryFunctions.map Prod.fst ++
      binaryFunctions.map Prod.fst)) : inside = (inside || decide (name ∈ summationNames)) := by
    rw [decide_eq_false (hall name mem), Bool.or_false]
  cases h with
  | random mem => exact other (by simp [mem])
  | unary mem => exact other (by simp [List.mem_map_of_mem (f := Prod.fst) mem])
  | binary mem => exact other (by simp [List.mem_map_of_mem (f := Prod.fst) mem])
  | choice => exact other List.mem_cons_self
  | summation mem => simp [Node.placeBelow, mem]

theorem Calls.ne_finite (h : Calls name args node) (inner : Node) : node ≠ .finite inner := by
  cases h <;> exact nofun

end Calls

/-- Whatever stands right below the node is rendered as a whole formula, and the node is not the outermost
one of a formula. -/
structure SpelledOut (inside : Bool) (node : Node) : Prop where
  children : ∀ child ∈ node.childrenReversed,
    Rendered (node.placeBelow inside) (.formula .disjunction child)
  inner : ∀ below, node ≠ .finite below

/-- The phrase is put together from whole formulas. The first operands of a chain are part of it if whatever
goes on from them is a chain. -/
def Composed (inside : Bool) : Phrase → Prop
  | .formula _ node => SpelledOut inside node
  | .more l left node =>
    (∀ last, Rendered inside (.more l left last) → Rendered inside (.formula l last)) →
      SpelledOut inside left → SpelledOut inside node
  | .arguments args => ∀ arg ∈ args, Rendered inside (.formula .disjunction arg)

section Rules

variable {inside : Bool} {l : Level} {sign : String} {join : Node → Node → Node}
  {left right node : Node}

theorem spelledOut_leaf (leaf : node.childrenReversed = []) (inner : ∀ below, node ≠ .finite below) :
    SpelledOut inside node where
  children child mem := by
    rw [leaf] at mem
    cases mem
  inner := inner

theorem spelledOut_joined (joins : Joins join) (hl : Rendered inside (.formula .disjunction left))
    (hr : Rendered inside (.formula .disjunction right)) : SpelledOut inside (join left right) where
  children child mem := by
    rw [joins.placeBelow]
    rcases joins.mem_of_child mem with rfl | rfl
    · exact hr
    · exact hl
  inner := joins.ne_finite left right

theorem spelledOut_unary (op : UnaryOp) (h : Rendered inside (.formula .disjunction node)) :
    SpelledOut inside (.unary op node) where
  children child mem := by
    obtain rfl := List.mem_singleton.mp mem
    exact h
  inner := nofun

theorem spelledOut_call {name : String} {args : List Node} (calls : Calls name args node)
    (h : ∀ arg ∈ args, Rendered (inside || decide (name ∈ summationNames)) (.formula .disjunction arg)) :
    SpelledOut inside node where
  children child mem := by
    rw [calls.placeBelow]
    exact h child (calls.mem_of_child mem)
  inner := calls.ne_finite

/-- A chain that goes on with an operand. -/
theorem composed_operator (mem : (sign, join) ∈ l.operators)
    (operand : Rendered inside (.formula l.tighter right))
    (others : Composed inside (.more l (join left right) node)) :
    Composed inside (.more l left node) := by
  intro continues _
  have first : Rendered inside (.formula l left) := continues left rendered_done
  refine others (fun last more => continues last (rendered_operator mem operand more)) ?_
  exact spelledOut_joined (joins_of_mem mem) (rendered_whole first) (rendered_whole operand)

end Rules

/-- Every rule composes its phrase; the induction is on the derivation. -/
theorem Derives.composed {inside : Bool} {phrase : Phrase} {text rest : List Char}
    (h : Derives inside phrase text rest) : Composed inside phrase := by
  induction h with
  | chain isChain operand _ ih ih' =>
    exact ih' (fun last more => rendered_chain isChain operand.rendered more) ih
  | done => exact fun _ first => first
  | operator mem _ operand _ _ ih' => exact composed_operator mem operand.rendered ih'
  | juxtaposed operand _ _ ih' =>
    have mem : ("*", Node.binary .mul) ∈ Level.term.operators := by simp [Level.operators]
    exact composed_operator mem (rendered_unsigned operand.rendered) ih'
  | negative _ operand => exact spelledOut_unary .neg (rendered_whole operand.rendered)
  | positive _ _ ih | unsigned _ ih | base _ ih => exact ih
  | raised operand _ power =>
    exact spelledOut_joined (.binary .pow) (rendered_whole operand.rendered)
      (rendered_whole power.rendered)
  | group _ content => exact spelledOut_unary .paren content.rendered
  | numeral => exact spelledOut_leaf rfl fun _ h => by cases h
  | name _ stands => cases stands <;> exact spelledOut_leaf rfl fun _ h => by cases h
  | emptyCall _ _ calls => exact spelledOut_call calls fun _ mem => absurd mem List.not_mem_nil
  | call _ _ calls ih => exact spelledOut_call calls ih
  | lastArgument content => exact List.forall_mem_singleton.mpr content.rendered
  | argument content _ _ _ ih => exact List.forall_mem_cons.mpr ⟨content.rendered, ih⟩

/-- A tree that is rendered as a whole formula is spelled out below its root. -/
theorem Rendered.spelledOut {inside : Bool} {node : Node}
    (h : Rendered inside (.formula .disjunction node)) : SpelledOut inside node := by
  obtain ⟨rest, hderives, -⟩ := h.formula
  exact hderives.composed

/-- What stands in a tree of the grammar is a tree of the grammar. -/
theorem Formula.occurs {inside place : Bool} {text : List Char} {node sub : Node}
    (h : Formula inside text node) (hsub : node.Occurs inside sub place) :
    Rendered place (.formula .disjunction sub) := by
  obtain ⟨rest, hderives, -⟩ := h
  induction hsub with
  | root => exact hderives.rendered
  | child _ mem ih => exact ih.spelledOut.children _ mem

end Grammar

/-! ### Values are labelled with formulas that come to them -/

section Folding

variable {limits : Limits} {steps : Nat} {place : Bool} {origin sub : Node}

theorem alike_empty {τ : Type} (limits : Limits) : Bindings.Alike limits (Bindings.empty : Bindings τ)
    Bindings.empty :=
  fun _ => .none

/-- The label of a value is read, without folding, as the tree that was folded, which comes to the value. -/
theorem read_label {value : Float} {label : String} (finite : value.isFinite = true)
    (hrendered : Grammar.Rendered place (.formula .disjunction origin))
    (hrefold : origin.refold (settle steps limits) = some (.constant value label))
    {σ : Type} {host : Host σ} (quiet : host.Quiet) (steps' : Nat) (world : σ) :
    ∃ e, Expression.read host ⟨place, false, limits⟩ steps' label world = some (.ok e, world) ∧
      ∃ enough, e.evaluate host Source.none enough world = some (.ok value, world) := by
  have hlabel : label.toList = Grammar.plain origin :=
    congrArg String.toList (render_of_refold hrefold)
  have hread : readNode host ⟨place, false, limits⟩ steps' label world =
      some (.ok (.finite origin), world) := by
    refine readNode_of_formula quiet (Reading.settles_some rfl) ?_ origin.refold_some world
    rw [hlabel]
    exact hrendered.formula
  have hsame := (Interchangeable.congruence limits).finite (interchangeable_of_refold hrefold)
  -- the value by itself comes to itself in one step
  have hvalue : Expression.evaluate ⟨label, .finite (.constant value label), limits⟩ host
      Source.none 1 world = some (.ok value, world) := by
    unfold Expression.evaluate Expression.evaluateUnder
    rw [evaluateFresh_eq_map]
    have hrun : evaluate host Source.none 1 (.finite (.constant value label))
        (Context.fresh limits world) = some (checkFinite value, Context.fresh limits world) :=
      Run.bind_of_ok (poll_of_quiet quiet _)
    rw [hrun, checkFinite_of_isFinite finite]
    rfl
  exact ⟨_, Expression.read_of_readNode hread,
    Expression.evaluate_of_alike quiet (alike_empty limits) rfl rfl hsame.symm ⟨1, hvalue⟩⟩

/-! ### Nothing is left to fold -/

/-- A name has no value of its own. -/
theorem evaluateFresh_reference {τ : Type} {host : Host τ} (quiet : host.Quiet) {name : String}
    {inSummation : Bool} {enough : Nat} {value : Float} {world after : τ} :
    evaluateFresh host Source.none enough limits (.reference name inSummation) world ≠
      some (.ok value, after) := by
  intro h
  rw [evaluateFresh_eq_map, Option.map_eq_some_iff] at h
  obtain ⟨⟨outcome, ctx⟩, hrun, heq⟩ := h
  obtain rfl : outcome = .ok value := (Prod.mk.inj heq).1
  cases enough with
  | zero => cases hrun
  | succ enough =>
    have hresolve : resolve Source.none (evaluate host Source.none enough) name
        (Context.fresh limits world) = some (.ok value, ctx) :=
      (Run.bind_of_ok (poll_of_quiet quiet _)).symm.trans hrun
    have hindex : (Context.fresh limits world).boundIndex? name = none := boundIndex?_of_unscoped rfl
    rw [resolve_none_of_unindexed _ hindex] at hresolve
    cases hresolve

/-- What comes to a value somewhere, without bindings, comes to no fault. -/
theorem evaluate_ne_error {τ : Type} {host : Host τ} (quiet : host.Quiet) {enough : Nat} {value : Float}
    {world after : τ} (hconstant : sub.isConstant = true)
    (hvalue : evaluateFresh host Source.none enough limits sub world = some (.ok value, after))
    {fault : Fault} {ctx : Context Unit} :
    evaluate Host.idle Source.none steps sub (Context.fresh limits ()) ≠ some (.error fault, ctx) := by
  intro hfault
  have hmirror := mirrors_evaluate quiet steps hconstant (Context.fresh limits ()) world
  rw [hfault] at hmirror
  rw [evaluateFresh_eq_map, Option.map_eq_some_iff] at hvalue
  obtain ⟨⟨outcome, last⟩, hrun, heq⟩ := hvalue
  obtain rfl : outcome = .ok value := (Prod.mk.inj heq).1
  cases evaluate_unique quiet hrun hmirror.2

/-- A constant node that comes to a value is a literal once it is settled. -/
theorem isLiteral_of_settle {mid : Node} (hs : settle steps limits mid = some sub)
    (hconstant : sub.isConstant = true)
    (faultless : ∀ fault ctx, evaluate Host.idle Source.none steps sub (Context.fresh limits ()) ≠
      some (.error fault, ctx)) : sub.isLiteral = true := by
  have hmid : mid.isConstant = true := (isConstant_of_settle hs).symm.trans hconstant
  unfold settle at hs
  split at hs
  · split at hs
    · obtain rfl := Option.some.inj hs
      rfl
    · rename_i fault ctx hfault
      obtain rfl := Option.some.inj hs
      exact absurd hfault (faultless fault ctx)
    · cases hs
  · rename_i hcond
    obtain rfl := Option.some.inj hs
    simpa [hmid] using hcond

/-- The same for a tree that is settled from its leaves up. -/
theorem isLiteral_of_refold (hrefold : origin.refold (settle steps limits) = some sub)
    (inner : ∀ below, origin ≠ .finite below) (hconstant : sub.isConstant = true)
    {τ : Type} {host : Host τ} (quiet : host.Quiet) {enough : Nat} {value : Float} {world after : τ}
    (hvalue : evaluateFresh host Source.none enough limits sub world = some (.ok value, after)) :
    sub.isLiteral = true := by
  have settled : ∀ {mid}, settle steps limits mid = some sub → sub.isLiteral = true := fun hs =>
    isLiteral_of_settle hs hconstant fun _ _ => evaluate_ne_error quiet hconstant hvalue
  cases origin with
  | number | constant =>
    obtain rfl := Option.some.inj hrefold
    rfl
  | reference name inSummation =>
    obtain rfl := Option.some.inj hrefold
    exact absurd hvalue (evaluateFresh_reference quiet)
  | random => exact settled hrefold
  | unary op a =>
    obtain ⟨a', -, hs⟩ := Option.bind_eq_some_iff.mp hrefold
    exact settled hs
  | binary op a b | comparison op a b | logic op a b =>
    obtain ⟨a', -, hrefold⟩ := Option.bind_eq_some_iff.mp hrefold
    obtain ⟨b', -, hs⟩ := Option.bind_eq_some_iff.mp hrefold
    exact settled hs
  | choice a b c | summation a b c =>
    obtain ⟨a', -, hrefold⟩ := Option.bind_eq_some_iff.mp hrefold
    obtain ⟨b', -, hrefold⟩ := Option.bind_eq_some_iff.mp hrefold
    obtain ⟨c', -, hs⟩ := Option.bind_eq_some_iff.mp hrefold
    exact settled hs
  | finite a => exact absurd rfl (inner a)

end Folding

/-! ### Reading -/

section Reading

variable {σ : Type}

/-- With folding, every value below the outermost node is labelled with a formula that, read without folding
at the same place, comes to it without bindings, and every constant subtree that comes to a value without
bindings is a literal. -/
theorem Expression.read_normal {host : Host σ} (quiet : host.Quiet) {options : ReadingOptions}
    (folded : options.foldConstants = true) {steps : Nat} {source : String} {world after : σ}
    {e : Expression} (h : Expression.read host options steps source world = some (.ok e, after)) :
    ∃ inner, e.root = .finite inner ∧
      (∀ value label place,
        inner.Occurs options.insideSummation (.constant value label) place →
        ∀ {τ : Type} (host' : Host τ), host'.Quiet → ∀ (steps' : Nat) (world' : τ), ∃ e',
          Expression.read host' ⟨place, false, options.limits⟩ steps' label world' =
            some (.ok e', world') ∧
          ∃ enough, e'.evaluate host' Source.none enough world' = some (.ok value, world')) ∧
      ∀ sub place, inner.Occurs options.insideSummation sub place → sub.isConstant = true →
        ∀ {τ : Type} (host' : Host τ), host'.Quiet → ∀ (enough : Nat) (value : Float) (world' after' : τ),
          evaluateFresh host' Source.none enough options.limits sub world' =
            some (.ok value, after') → sub.isLiteral = true := by
  obtain ⟨hroot, -⟩ := Expression.read_eq_some h
  obtain ⟨node, inner, hinner, hformula, hrefold, -, -⟩ := settled_of_readNode quiet hroot
  rw [Reading.settling_of_folded folded] at hrefold
  have steady := steady_settle steps options.limits
  have hfinite : inner.AllFinite := by
    have hall := Reading.readNode_allFinite host options steps source hroot
    rw [hinner] at hall
    exact hall
  refine ⟨inner, hinner, ?_, ?_⟩
  · intro value label place hoccurs τ host' quiet' steps' world'
    obtain ⟨origin, horigin, hvalue⟩ := Node.exists_origin steady hrefold hoccurs
    have finite : value.isFinite = true := hfinite.of_occurs hoccurs
    exact read_label finite (hformula.occurs horigin) hvalue quiet' steps' world'
  · intro sub place hoccurs hconstant τ host' quiet' enough value world' after' hvalue
    obtain ⟨origin, horigin, hsub⟩ := Node.exists_origin steady hrefold hoccurs
    have spelled := (hformula.occurs horigin).spelledOut
    exact isLiteral_of_refold hsub spelled.inner hconstant quiet' hvalue

/-- A sum whose body has a value that was folded in two steps, beside a division that is left as it is. -/
def partlyFolded : Node :=
  .summation (.number 1) (.constant 2.0 "1 + 1") (.binary .mul
    (.constant 6.0 "if(1, (1 + 1) * 3, n)") (.unary .paren (.binary .div (.number 1) (.number 0))))

/-- The value is labelled with its formula, which is read among the arguments of a summation. -/
theorem Expression.read_normal_nested :
    ∃ e e' : Expression, e.root = .finite partlyFolded ∧
      Expression.read (Deadline.host ⟨1000, none⟩) ⟨false, true, {}⟩ 3
        "sum(1, 1+1, if(1, (1+1)*3, n) (1/0))" (World.start 0) = some (.ok e, World.start 0) ∧
      partlyFolded.Occurs false (.constant 6.0 "if(1, (1 + 1) * 3, n)") true ∧
      Expression.read (Deadline.host ⟨1000, none⟩) ⟨true, false, {}⟩ 0 "if(1, (1 + 1) * 3, n)"
        (World.start 0) = some (.ok e', World.start 0) ∧
      ∃ enough, e'.evaluate (Deadline.host ⟨1000, none⟩) Source.none enough (World.start 0) =
        some (.ok 6.0, World.start 0) := by
  have quiet := Deadline.quiet_host 1000 (by decide)
  have hroot : readNode (Deadline.host ⟨1000, none⟩) ⟨false, true, {}⟩ 3
      "sum(1, 1+1, if(1, (1+1)*3, n) (1/0))" (World.start 0) =
        some (.ok (.finite partlyFolded), World.start 0) := by
    decide +kernel
  have body : partlyFolded.Occurs false (.binary .mul (.constant 6.0 "if(1, (1 + 1) * 3, n)")
      (.unary .paren (.binary .div (.number 1) (.number 0)))) true :=
    .child .root List.mem_cons_self
  have factor : partlyFolded.Occurs false (.constant 6.0 "if(1, (1 + 1) * 3, n)") true :=
    .child body (List.mem_cons_of_mem _ List.mem_cons_self)
  have hread := Expression.read_of_readNode hroot
  obtain ⟨inner, hinner, hlabels, -⟩ := Expression.read_normal quiet rfl hread
  obtain rfl := Node.finite.inj hinner
  obtain ⟨e', hread', hvalue⟩ := hlabels _ _ _ factor _ quiet 0 (World.start 0)
  exact ⟨_, e', rfl, hread, factor, hread', hvalue⟩

end Reading

end Formulae
