import Formulae.Proofs.Reading.Finiteness
import Formulae.Proofs.Restating

/-!
# Proofs.ReducedRendering — what is rendered with its values is read again

The reduced text of an expression that was read is read as the same tree, up to the texts of its values,
unless minus zero is folded into the base of a power: it is written without parentheses, and the power is
taken before the minus.

* `Reduced settle inside phrase`: whatever the phrase is settled as, the tree that its reduced text spells
  out can be derived as such a phrase. It passes through every rule of the grammar (`Derives.reduced`).
* `readNode_render_reduced`: the reduced text of a tree that was read.
-/

namespace Formulae

open Number

namespace Node

/-- The node is a folded minus zero. -/
def IsNegativeZero : Node → Prop
  | .constant value _ => value = -0.0
  | _ => False

theorem IsNegativeZero.isFolded {node : Node} (h : node.IsNegativeZero) : node.IsFolded := by
  cases node with
  | constant value label => exact ⟨value, label, rfl⟩
  | _ => cases h

/-- No power in the tree has a folded minus zero as its base. -/
@[simp] def NoNegativeZeroBase : Node → Prop
  | .number _ | .constant _ _ | .reference _ _ | .random => True
  | .unary _ arg | .finite arg => arg.NoNegativeZeroBase
  | .binary op left right =>
    (op = .pow → ¬ left.IsNegativeZero) ∧ left.NoNegativeZeroBase ∧ right.NoNegativeZeroBase
  | .comparison _ left right | .logic _ left right =>
    left.NoNegativeZeroBase ∧ right.NoNegativeZeroBase
  | .choice a b c | .summation a b c =>
    a.NoNegativeZeroBase ∧ b.NoNegativeZeroBase ∧ c.NoNegativeZeroBase

/-- A tree that keeps its shape in its reduced text. -/
structure KeepsShape (node : Node) : Prop where
  finite : node.AllFinite
  base : node.NoNegativeZeroBase

theorem KeepsShape.arg {op : UnaryOp} {a : Node} (h : (Node.unary op a).KeepsShape) : a.KeepsShape :=
  ⟨h.finite, h.base⟩

end Node

namespace Grammar

theorem Joins.keepsShape {join : Node → Node → Node} (joins : Joins join) {a b : Node}
    (h : (join a b).KeepsShape) : a.KeepsShape ∧ b.KeepsShape := by
  obtain ⟨hfinite, hbase⟩ := h
  cases joins with
  | binary op => exact ⟨⟨hfinite.1, hbase.2.1⟩, ⟨hfinite.2, hbase.2.2⟩⟩
  | comparison op => exact ⟨⟨hfinite.1, hbase.1⟩, ⟨hfinite.2, hbase.2⟩⟩
  | logic op => exact ⟨⟨hfinite.1, hbase.1⟩, ⟨hfinite.2, hbase.2⟩⟩

section Calls

variable {name : String} {args : List Node} {node : Node}

theorem Calls.keepsShape (h : Calls name args node) (hnode : node.KeepsShape) :
    ∀ arg ∈ args, arg.KeepsShape := by
  obtain ⟨hfinite, hbase⟩ := hnode
  cases h with
  | random mem => exact nofun
  | unary mem => exact List.forall_mem_singleton.mpr ⟨hfinite, hbase⟩
  | binary mem =>
    obtain ⟨hleft, hright⟩ := (Joins.binary _).keepsShape ⟨hfinite, hbase⟩
    exact List.forall_mem_cons.mpr ⟨hleft, List.forall_mem_singleton.mpr hright⟩
  | choice | summation mem =>
    exact List.forall_mem_cons.mpr ⟨⟨hfinite.1, hbase.1⟩, List.forall_mem_cons.mpr
      ⟨⟨hfinite.2.1, hbase.2.1⟩, List.forall_mem_singleton.mpr ⟨hfinite.2.2, hbase.2.2⟩⟩⟩

/-- A call spells out the call of what its arguments spell out. -/
theorem Calls.restate (h : Calls name args node) :
    Calls name (args.map Node.restate) node.restate := by
  cases h with
  | random mem => exact .random mem
  | unary mem => exact .unary mem
  | binary mem => exact .binary mem
  | choice => exact .choice
  | summation mem => exact .summation mem

end Calls

/-! ### Values -/

section Values

variable {inside : Bool} {node : Node}

theorem rendered_unsignedNumber {x : Float} (h : x.isFinite = true) (unsigned : ¬ Signed x) :
    Rendered inside (.formula .primary (.number x)) :=
  rendered_number (readsBack h (Nat.lt_of_not_le unsigned))

theorem rendered_ofNumber {x : Float} (h : x.isFinite = true) :
    Rendered inside (.formula .signed (.ofNumber x)) := by
  unfold Node.ofNumber
  split
  · rename_i signed
    have hneg : Rendered inside (.formula .primary (.number (-x))) :=
      rendered_unsignedNumber (isFinite_neg h) (not_signed_neg h signed)
    exact rendered_negative (rendered_of_primary hneg .signed)
  · exact rendered_of_primary (rendered_unsignedNumber h ‹_›) .signed

/-- A folded number is an operand wherever it is written, but minus zero is not one of a power. -/
theorem rendered_ofFolded {x : Float} (h : x.isFinite = true) {l : Level}
    (hl : x = -0.0 → l ≠ .power ∧ l ≠ .primary) : Rendered inside (.formula l (.ofFolded x)) := by
  unfold Node.ofFolded
  split
  · have hinner : Rendered inside (.formula .disjunction (.ofNumber x)) :=
      rendered_of_signed (rendered_ofNumber h) (by decide)
    exact rendered_of_primary (rendered_group hinner) l
  · rename_i nonneg
    by_cases signed : Signed x
    · exact rendered_of_signed (rendered_ofNumber h) (hl (eq_negativeZero h signed nonneg))
    · unfold Node.ofNumber
      rw [if_neg signed]
      exact rendered_of_primary (rendered_unsignedNumber h signed) l

end Values

/-! ### Every rule of the grammar passes to reduced texts -/

/-- The node may stand at the level: minus zero is not written as an operand of a power. -/
def Fits (l : Level) (node : Node) : Prop :=
  node.IsNegativeZero → l ≠ .power ∧ l ≠ .primary

/-- Whatever the phrase is settled as, the tree that its reduced text spells out is rendered as such a
phrase. A chain may begin with a folded value in place of its first operands. -/
def Reduced (settle : Node → Option Node) (inside : Bool) : Phrase → Prop
  | .formula l node => ∀ out, node.refold settle = some out → out.KeepsShape → Fits l out →
    Rendered inside (.formula l out.restate)
  | .more l left node => ∀ out, node.refold settle = some out → out.KeepsShape →
    ∃ first, (left.refold settle = some first ∨ first.IsFolded) ∧ first.KeepsShape ∧
      Rendered inside (.more l first.restate out.restate)
  | .arguments args => ∀ outs, args.mapM (Node.refold settle) = some outs →
    (∀ out ∈ outs, out.KeepsShape) → Rendered inside (.arguments (outs.map Node.restate))

section Rules

variable {settle : Node → Option Node} {inside : Bool} {l : Level} {sign : String}
  {join : Node → Node → Node} {first left right node out : Node}

theorem fits_of_isChain (isChain : l.isChain = true) (node : Node) : Fits l.tighter node := by
  intro _
  cases l with
  | signed | power | primary => cases isChain
  | _ => exact ⟨nofun, nofun⟩

theorem fits_of_not_isFolded (h : ¬ node.IsFolded) : Fits l node :=
  fun zero => absurd zero.isFolded h

theorem rendered_isFolded (folded : out.IsFolded) (shape : out.KeepsShape) (fits : Fits l out) :
    Rendered inside (.formula l out.restate) := by
  obtain ⟨x, label, rfl⟩ := folded
  exact rendered_ofFolded shape.finite fits

/-- The first operand of a chain. -/
theorem reduced_first (isChain : l.isChain = true) (ih : Reduced settle inside (.formula l.tighter first))
    (others : Reduced settle inside (.more l first node)) : Reduced settle inside (.formula l node) := by
  intro out hn shape _
  obtain ⟨start, hstart, hshape, hmore⟩ := others out hn shape
  have fits := fits_of_isChain isChain start
  refine rendered_chain isChain ?_ hmore
  rcases hstart with hstart | folded
  · exact ih start hstart hshape fits
  · exact rendered_isFolded folded hshape fits

variable (steady : Steady settle)
include steady

/-- A chain that goes on with an operand either starts with a folded value behind that operand or goes on
with what the operand spells out. -/
theorem reduced_operator (mem : (sign, join) ∈ l.operators)
    (operand : ∀ out, right.refold settle = some out → out.KeepsShape →
      Rendered inside (.formula l.tighter out.restate))
    (others : Reduced settle inside (.more l (join left right) node)) :
    Reduced settle inside (.more l left node) := by
  intro out hn shape
  have joins := joins_of_mem mem
  obtain ⟨start, hstart, hshape, hmore⟩ := others out hn shape
  rcases hstart with hstart | folded
  · obtain ⟨left', right', hleft, hright, hs⟩ := joins.of_refold hstart
    rcases steady.shape hs with rfl | folded
    · obtain ⟨hl, hr⟩ := joins.keepsShape hshape
      rw [joins.restate] at hmore
      exact ⟨left', .inl hleft, hl, rendered_operator mem (operand right' hright hr) hmore⟩
    · exact ⟨start, .inr folded, hshape, hmore⟩
  · exact ⟨start, .inr folded, hshape, hmore⟩

theorem reduced_negative (ih : Reduced settle inside (.formula .signed node)) :
    Reduced settle inside (.formula .signed (.unary .neg node)) := by
  intro out hn shape fits
  obtain ⟨arg, harg, hs⟩ := Option.bind_eq_some_iff.mp hn
  rcases steady.shape hs with rfl | folded
  · exact rendered_negative (ih arg harg shape.arg fun _ => by decide)
  · exact rendered_isFolded folded shape fits

theorem reduced_raised (base : Reduced settle inside (.formula .primary left))
    (exponent : Reduced settle inside (.formula .signed right)) :
    Reduced settle inside (.formula .power (.binary .pow left right)) := by
  intro out hn shape fits
  obtain ⟨left', right', hleft, hright, hs⟩ := (Joins.binary .pow).of_refold hn
  rcases steady.shape hs with rfl | folded
  · obtain ⟨hl, hr⟩ := (Joins.binary .pow).keepsShape shape
    have hbase : Fits .primary left' := fun zero => absurd zero (shape.base.1 rfl)
    exact rendered_raised (base left' hleft hl hbase) (exponent right' hright hr fun _ => by decide)
  · exact rendered_isFolded folded shape fits

theorem reduced_group (inner : Reduced settle inside (.formula .disjunction node)) :
    Reduced settle inside (.formula .primary (.unary .paren node)) := by
  intro out hn shape fits
  obtain ⟨arg, harg, hs⟩ := Option.bind_eq_some_iff.mp hn
  rcases steady.shape hs with rfl | folded
  · exact rendered_group (inner arg harg shape.arg fun _ => by decide)
  · exact rendered_isFolded folded shape fits

theorem reduced_call {name : String} {args : List Node} (calls : Calls name args node)
    (content : ∀ mid outs, args.mapM (Node.refold settle) = some outs → Calls name outs mid →
      (∀ out ∈ outs, out.KeepsShape) → Rendered inside (.formula .primary mid.restate)) :
    Reduced settle inside (.formula .primary node) := by
  intro out hn shape fits
  obtain ⟨outs, mid, houts, hcalls, hs⟩ := calls.refold hn
  rcases steady.shape hs with rfl | folded
  · exact content _ outs houts hcalls (hcalls.keepsShape shape)
  · exact rendered_isFolded folded shape fits

/-- Every rule passes to the reduced texts; the induction is on the derivation. -/
theorem Derives.reduced {phrase : Phrase} {text rest : List Char}
    (h : Derives inside phrase text rest) : Reduced settle inside phrase := by
  induction h with
  | chain isChain _ _ ih ih' => exact reduced_first isChain ih ih'
  | done => exact fun out hn shape => ⟨out, .inl hn, shape, rendered_done⟩
  | operator mem _ _ _ ih ih' =>
    refine reduced_operator steady mem (fun out hout shape => ?_) ih'
    exact ih out hout shape (fits_of_isChain (isChain_of_mem mem) out)
  | juxtaposed _ _ ih ih' =>
    have hmem : ("*", Node.binary .mul) ∈ Level.term.operators := by simp [Level.operators]
    refine reduced_operator steady hmem (fun out hout shape => ?_) ih'
    -- minus zero may stand behind the operator that is written, but not at the level of a power
    rcases out.isFolded_or with folded | hfolded
    · exact rendered_isFolded folded shape fun _ => by decide
    · exact rendered_unsigned (ih out hout shape (fits_of_not_isFolded hfolded))
  | negative _ _ ih => exact reduced_negative steady ih
  | positive _ _ ih => exact ih
  | unsigned _ ih =>
    intro out hout shape fits
    rcases out.isFolded_or with folded | hfolded
    · exact rendered_isFolded folded shape fits
    · exact rendered_unsigned (ih out hout shape (fits_of_not_isFolded hfolded))
  | base _ ih =>
    exact fun out hout shape fits =>
      rendered_base (ih out hout shape fun zero => absurd rfl (fits zero).1)
  | raised _ _ _ ih ih' => exact reduced_raised steady ih ih'
  | group _ _ _ ih => exact reduced_group steady ih
  | numeral next =>
    intro out hout _ _
    obtain rfl := Option.some.inj hout
    obtain ⟨spelling, -, -, hvalue⟩ := next
    exact rendered_number (Numeral.readsBack_value? hvalue)
  | name next stands =>
    intro out hout shape fits
    rw [stands.refold] at hout
    obtain rfl := Option.some.inj hout
    cases stands with
    | constant mem => exact rendered_isFolded ⟨_, _, rfl⟩ shape fits
    | reference free => exact rendered_name next (.reference free)
  | emptyCall _ _ calls =>
    refine reduced_call steady calls fun mid outs houts hcalls _ => ?_
    obtain rfl := Option.some.inj houts
    exact rendered_emptyCall hcalls.restate
  | call _ _ calls ih =>
    exact reduced_call steady calls fun mid outs houts hcalls shapes =>
      rendered_call hcalls.restate (ih outs houts shapes)
  | lastArgument _ _ ih =>
    intro outs houts shapes
    rw [List.mapM_cons] at houts
    obtain ⟨out, hout, houts⟩ := Option.bind_eq_some_iff.mp houts
    obtain rfl := Option.some.inj houts
    have shape := shapes out List.mem_cons_self
    exact rendered_lastArgument (ih out hout shape fun _ => by decide)
  | argument _ _ _ ih ih' =>
    intro outs houts shapes
    rw [List.mapM_cons] at houts
    obtain ⟨out, hout, houts⟩ := Option.bind_eq_some_iff.mp houts
    obtain ⟨others, hothers, houts⟩ := Option.bind_eq_some_iff.mp houts
    obtain rfl := Option.some.inj houts
    obtain ⟨shape, shapes⟩ := List.forall_mem_cons.mp shapes
    exact rendered_argument (ih out hout shape fun _ => by decide) (ih' others hothers shapes)

end Rules

end Grammar

/-! ### Reading -/

section Reading

variable {options : ReadingOptions} {steps : Nat}

/-- What numbers of trees that are read are like: only folding makes one with a sign. -/
structure SignedByFolding (options : ReadingOptions) (steps : Nat) (x : Float) : Prop where
  finite : x.isFinite = true
  folded : Signed x → options.foldConstants = true ∧ 0 < steps

theorem not_signed_of_namedValues {name : String} {value : Float}
    (h : (name, value) ∈ Grammar.namedValues) : ¬ Signed value := by
  have hall : ∀ value ∈ Grammar.namedValues.map Prod.snd, ¬ Signed value := by decide +kernel
  exact hall value (List.mem_map_of_mem h)

theorem makes_signedByFolding {σ : Type} (host : Host σ) (options : ReadingOptions) (steps : Nat) :
    Reading.Makes (SignedByFolding options steps) host options steps where
  numeral h :=
    { finite := (Option.filter_eq_some_iff.mp h).2
      folded := fun signed => absurd signed (Nat.not_le_of_lt (Numeral.unsigned_of_value? h)) }
  named h :=
    { finite := Reading.isFinite_of_namedValues h
      folded := fun signed => absurd signed (not_signed_of_namedValues h) }
  folded folds hnode hconstant hx :=
    { finite := isFinite_of_evaluateFresh_constant (hnode.mono fun _ h => h.finite) hconstant hx
      folded := fun _ => ⟨folds, Nat.pos_of_ne_zero fun hzero => by subst hzero; cases hx⟩ }

theorem steady_settling (options : ReadingOptions) (steps : Nat) :
    Steady (Reading.settling options steps) := by
  cases folds : options.foldConstants with
  | true => exact Reading.settling_of_folded folds steps ▸ steady_settle steps options.limits
  | false => exact Reading.settling_of_unfolded folds steps ▸ steady_some

theorem SignedByFolding.regains {x : Float} (h : SignedByFolding options steps x) :
    Regains (Reading.settling options steps) x := by
  cases folds : options.foldConstants with
  | true =>
    rw [Reading.settling_of_folded folds]
    exact regains_settle options.limits h.finite fun signed => (h.folded signed).2
  | false =>
    have unsigned : ¬ Signed x := fun signed =>
      Bool.false_ne_true (folds.symm.trans (h.folded signed).1)
    exact ⟨h.finite, fun signed => absurd signed unsigned, fun signed => absurd signed unsigned⟩

variable {σ : Type}

open Grammar in
/-- The reduced text of a tree that was read is read as the same tree, up to the texts of its values. -/
theorem readNode_render_reduced {host : Host σ} (quiet : host.Quiet) {source : String}
    {world after : σ} {tree : Node}
    (h : readNode host options steps source world = some (.ok tree, after))
    (base : tree.NoNegativeZeroBase) (world' : σ) :
    ∃ tree', readNode host options steps (tree.render true) world' = some (.ok tree', world') ∧
      tree'.unlabelled = tree.unlabelled := by
  have steady := steady_settling options steps
  have hnumbers := Reading.readNode_numbers (makes_signedByFolding host options steps) h
  obtain ⟨node, node', rfl, hformula, hn, -, -⟩ := settled_of_readNode quiet h
  have shape : node'.KeepsShape := ⟨hnumbers.mono fun _ h => h.finite, base⟩
  obtain ⟨rest, hderives, -⟩ := hformula
  have hroot : (Node.finite node).refold (Reading.settling options steps) = some (.finite node') := by
    rw [Node.refold, hn]
    rfl
  obtain ⟨out, hout, hunlabelled⟩ := refold_restate steady hroot (hnumbers.mono fun _ h => h.regains)
  obtain ⟨written, hwritten, hrendered⟩ : ∃ written, (Node.finite node').restate = .finite written ∧
      Rendered options.insideSummation (.formula .disjunction written) := by
    rcases node'.isFolded_or with ⟨x, label, rfl⟩ | hfolded
    · exact ⟨_, rfl, rendered_of_signed (rendered_ofNumber shape.finite) (by decide)⟩
    · exact ⟨_, Node.restate_finite hfolded,
        hderives.reduced steady node' hn shape (fits_of_not_isFolded hfolded)⟩
  have htext : (Node.finite node').render true = written.render false := by
    have hfinite : (Node.finite node').AllFinite := shape.finite
    have hrestate := Node.render_restate hfinite
    rw [← hrestate, hwritten, render_finite]
  rw [hwritten] at hout
  obtain ⟨out', hout', heq⟩ := Option.bind_eq_some_iff.mp hout
  obtain rfl := Option.some.inj heq
  have hread : Formula options.insideSummation (written.render false).toList written :=
    Rendered.formula hrendered
  rw [htext]
  exact ⟨_, readNode_of_formula quiet (Reading.settles_settling quiet options steps) hread hout' world',
    hunlabelled⟩

/-- The reduced text of an expression that was read is read as an expression of the same tree, up to the
texts of its values, which comes to the same by itself and under bindings, unless minus zero was folded into
the base of a power. -/
theorem Expression.read_render_reduced {host : Host σ} (quiet : host.Quiet) {source : String}
    {world after : σ} {e : Expression}
    (h : Expression.read host options steps source world = some (.ok e, after))
    (base : e.root.NoNegativeZeroBase) (world' : σ) :
    ∃ e', Expression.read host options steps (e.render true) world' = some (.ok e', world') ∧
      e'.root.unlabelled = e.root.unlabelled ∧ e'.limits = e.limits ∧
      ∀ {τ : Type} (host' : Host τ) (bindings : Bindings τ) (source' : Source τ) (limits : Limits)
        (steps' : Nat),
        e'.evaluateUnder limits host' source' steps' = e.evaluateUnder limits host' source' steps' ∧
        (Equation.mk e' bindings).evaluate host' steps' =
          (Equation.mk e bindings).evaluate host' steps' := by
  obtain ⟨hroot, he⟩ := Expression.read_eq_some h
  have hlimits : e.limits = options.limits := by rw [he]
  obtain ⟨tree', hread, hunlabelled⟩ := readNode_render_reduced quiet hroot base world'
  have hsame : ∀ {τ : Type} (host' : Host τ) (source' : Source τ) (limits : Limits) (steps' : Nat),
      evaluateFresh host' source' steps' limits tree' =
        evaluateFresh host' source' steps' limits e.root := by
    intro τ host' source' limits steps'
    unfold evaluateFresh
    rw [evaluate_of_unlabelled_eq hunlabelled]
  refine ⟨⟨e.render true, tree', options.limits⟩, Expression.read_of_readNode hread, hunlabelled,
    hlimits.symm, fun host' bindings source' limits steps' => ⟨hsame host' source' limits steps', ?_⟩⟩
  unfold Equation.evaluate Expression.evaluate Expression.evaluateUnder
  simp only [hsame, hlimits]
  rfl

/-- A folded base and a folded operand that are less than zero. -/
theorem Expression.read_render_reduced_negative :
    ∃ e e' : Expression,
      Expression.read (Deadline.host ⟨1000, none⟩) ⟨false, true, {}⟩ 3 "(2 - 5)^x - -4"
        (World.start 0) = some (.ok e, World.start 0) ∧
      Expression.read (Deadline.host ⟨1000, none⟩) ⟨false, true, {}⟩ 3 "(-3) ^ x - (-4)"
        (World.start 0) = some (.ok e', World.start 0) ∧
      e'.root.unlabelled = e.root.unlabelled := by
  have hroot : readNode (Deadline.host ⟨1000, none⟩) ⟨false, true, {}⟩ 3 "(2 - 5)^x - -4"
      (World.start 0) = some (.ok (.finite (.binary .sub
        (.binary .pow (.constant (-3.0) "(2 - 5)") (.reference "x" false))
        (.constant (-4.0) "-4"))), World.start 0) := by
    decide +kernel
  have hread := Expression.read_of_readNode hroot
  have hne : (-3.0 : Float) ≠ -0.0 := by decide +kernel
  obtain ⟨e', hread', hroot', -⟩ :=
    Expression.read_render_reduced (Deadline.quiet_host 1000 (by decide)) hread
      ⟨nofun, ⟨fun _ => hne, trivial, trivial⟩, trivial⟩ (World.start 0)
  have htext : "(-3) ^ x - (-4)" = (Node.finite (.binary .sub
      (.binary .pow (.constant (-3.0) "(2 - 5)") (.reference "x" false))
      (.constant (-4.0) "-4"))).render true := by
    decide +kernel
  exact ⟨_, e', hread, htext ▸ hread', hroot'⟩

/-- Minus zero in the base of a power: if zero to the power of zero is one, with a sign or without, the
formula comes to one and its reduced text to minus one. -/
theorem Expression.read_render_reduced_minusZero :
    ∃ e e' : Expression, e.render true = "-0 ^ x" ∧
      Expression.read (Deadline.host ⟨1000, none⟩) ⟨false, true, {}⟩ 3 "(-0)^x" (World.start 0) =
        some (.ok e, World.start 0) ∧
      Expression.read (Deadline.host ⟨1000, none⟩) ⟨false, true, {}⟩ 3 "-0 ^ x" (World.start 0) =
        some (.ok e', World.start 0) ∧
      (Float.pow (-0.0) 0.0 = 1.0 ∧ Float.pow 0.0 0.0 = 1.0 →
        e.evaluate (Deadline.host ⟨1000, none⟩) (Bindings.source ⟨[("x", .value 0.0)]⟩) 3
          (World.start 0) = some (.ok 1.0, World.start 0) ∧
        e'.evaluate (Deadline.host ⟨1000, none⟩) (Bindings.source ⟨[("x", .value 0.0)]⟩) 3
          (World.start 0) = some (.ok (-1.0), World.start 0)) := by
  have hroot : readNode (Deadline.host ⟨1000, none⟩) ⟨false, true, {}⟩ 3 "(-0)^x" (World.start 0) =
      some (.ok (.finite (.binary .pow (.constant (-0.0) "(-0)") (.reference "x" false))),
        World.start 0) := by
    decide +kernel
  have hroot' : readNode (Deadline.host ⟨1000, none⟩) ⟨false, true, {}⟩ 3 "-0 ^ x" (World.start 0) =
      some (.ok (.finite (.unary .neg (.binary .pow (.number 0.0) (.reference "x" false)))),
        World.start 0) := by
    decide +kernel
  have htext : (Node.finite (.binary .pow (.constant (-0.0) "(-0)") (.reference "x" false))).render
      true = "-0 ^ x" := by
    decide +kernel
  have hx : ∀ enter, Evaluation.resolve (Bindings.source ⟨[("x", .value 0.0)]⟩) enter "x"
      (Context.fresh {} (World.start 0)) =
        some (.ok 0.0, (Context.fresh {} (World.start 0)).hit "x") := fun _ => rfl
  have hpoll := Evaluation.poll_of_quiet (Deadline.quiet_host 1000 (by decide))
  have hone : checkFinite 1.0 = .ok 1.0 := checkFinite_of_isFinite (by decide +kernel)
  have hminus : checkFinite (-1.0) = .ok (-1.0) := checkFinite_of_isFinite (by decide +kernel)
  refine ⟨_, _, by exact htext, Expression.read_of_readNode hroot,
    Expression.read_of_readNode hroot', ?_⟩
  rintro ⟨hbase, hbase'⟩
  constructor
  · simp [Expression.evaluate, Expression.evaluateUnder, evaluateFresh, Formulae.evaluate,
      Node.evaluateWith, Run.bind_apply, Run.ofExcept, hpoll, hx, BinaryOp.apply, hbase, hone]
    rfl
  · simp [Expression.evaluate, Expression.evaluateUnder, evaluateFresh, Formulae.evaluate,
      Node.evaluateWith, Run.bind_apply, Run.ofExcept, hpoll, hx, BinaryOp.apply, UnaryOp.apply, hbase', hone, hminus]
    rfl

end Reading

end Formulae
