import Formulae.Proofs.Evaluation.Finiteness
import Formulae.Proofs.Number.Negation
import Formulae.Proofs.Rendering

/-!
# Proofs.Restating — the tree that a reduced text spells out

The reduced text of a tree is the plain text of another one, in which every named or folded value is a
numeral, behind a minus if it has a sign and between parentheses if it is less than zero.

* `Node.restate` is that tree (`render_restate`).
* `Steady settle`: what folding makes of a node is the node or a value, and does not depend on the texts of
  values.
* `refold_restate`: when the restated tree is settled it is the tree again, up to the texts of its values.
-/

namespace Formulae

open Number Evaluation

namespace Node

/-- A number as a numeral, behind a minus if it has a sign. -/
def ofNumber (x : Float) : Node :=
  if Signed x then .unary .neg (.number (-x)) else .number x

/-- A folded number as an operand. -/
def ofFolded (x : Float) : Node :=
  if x < 0.0 then .unary .paren (ofNumber x) else ofNumber x

/-- The tree that the reduced text spells out. -/
def restate : Node → Node
  | .number value => .number value
  | .constant value _ => ofFolded value
  | .reference name inSummation => .reference name inSummation
  | .random => .random
  | .unary op arg => .unary op arg.restate
  | .binary op left right => .binary op left.restate right.restate
  | .comparison op left right => .comparison op left.restate right.restate
  | .logic op left right => .logic op left.restate right.restate
  | .choice a b c => .choice a.restate b.restate c.restate
  | .summation a b c => .summation a.restate b.restate c.restate
  | .finite (.constant value _) => .finite (ofNumber value)
  | .finite inner => .finite inner.restate

/-- The node is a named or folded value. -/
def IsFolded (node : Node) : Prop :=
  ∃ value label, node = .constant value label

theorem restate_finite {node : Node} (h : ¬ node.IsFolded) :
    (Node.finite node).restate = .finite node.restate := by
  cases node with
  | constant value label => exact absurd ⟨value, label, rfl⟩ h
  | _ => rfl

theorem isFolded_or (node : Node) : node.IsFolded ∨ ¬ node.IsFolded :=
  Classical.em _

/-! ### The text -/

theorem render_ofNumber {x : Float} (h : x.isFinite = true) :
    (ofNumber x).render false = display x := by
  unfold ofNumber
  split
  · exact (display_of_signed h ‹_›).symm
  · rfl

theorem render_ofFolded {x : Float} (h : x.isFinite = true) (label : String) :
    (ofFolded x).render false = constantText true x label := by
  unfold ofFolded constantText
  rw [if_pos rfl]
  split
  · show "(" ++ (ofNumber x).render false ++ ")" = _
    rw [render_ofNumber h]
  · exact render_ofNumber h

/-- The plain text of the restated tree is the reduced text of the tree. -/
theorem render_restate {node : Node} (h : node.AllFinite) :
    node.restate.render false = node.render true := by
  induction node with
  | number | reference | random => rfl
  | constant value label => exact render_ofFolded h label
  | unary op a ih =>
    show unaryText op (a.restate.render false) = _
    rw [ih h]
    rfl
  | binary op a b iha ihb =>
    show binaryText op (a.restate.render false) (b.restate.render false) = _
    rw [iha h.1, ihb h.2]
    rfl
  | comparison op a b iha ihb =>
    show infixText (a.restate.render false) op.sign (b.restate.render false) = _
    rw [iha h.1, ihb h.2]
    rfl
  | logic op a b iha ihb =>
    show infixText (a.restate.render false) op.sign (b.restate.render false) = _
    rw [iha h.1, ihb h.2]
    rfl
  | choice a b c iha ihb ihc =>
    show callText "if" [a.restate.render false, b.restate.render false, c.restate.render false] = _
    rw [iha h.1, ihb h.2.1, ihc h.2.2]
    rfl
  | summation a b c iha ihb ihc =>
    show callText "sum" [a.restate.render false, b.restate.render false, c.restate.render false] = _
    rw [iha h.1, ihb h.2.1, ihc h.2.2]
    rfl
  | finite inner ih =>
    rcases inner.isFolded_or with ⟨value, label, rfl⟩ | hfolded
    · exact (render_finite _).trans (render_ofNumber h)
    · rw [restate_finite hfolded, render_finite, ih h]
      cases inner with
      | constant value label => exact absurd ⟨value, label, rfl⟩ hfolded
      | _ => rfl

end Node

theorem Grammar.Joins.restate {join : Node → Node → Node} (joins : Joins join) (a b : Node) :
    (join a b).restate = join a.restate b.restate := by
  cases joins <;> rfl

/-! ### Settling the restated tree -/

/-- What becomes of a node that was just built is the node or a value, the same one whatever the texts of
values are. -/
structure Steady (settle : Node → Option Node) : Prop where
  shape : ∀ {node out}, settle node = some out → out = node ∨ out.IsFolded
  unlabelled : ∀ {a b out}, a.unlabelled = b.unlabelled → settle a = some out →
    ∃ out', settle b = some out' ∧ out'.unlabelled = out.unlabelled

/-- A number is itself again when its numeral is settled behind a minus and between parentheses. -/
structure Regains (settle : Node → Option Node) (x : Float) : Prop where
  finite : x.isFinite = true
  neg : Signed x → ∃ label, settle (.unary .neg (.number (-x))) = some (.constant x label)
  paren : Signed x → ∀ label, ∃ label',
    settle (.unary .paren (.constant x label)) = some (.constant x label')

/-- When the restated tree is settled it is the tree again. -/
def Node.Restates (settle : Node → Option Node) (node : Node) : Prop :=
  ∃ out, node.restate.refold settle = some out ∧ out.unlabelled = node.unlabelled

section Refold

variable {settle : Node → Option Node}

theorem refold_ofNumber_signed {x : Float} (h : Regains settle x) (signed : Signed x) :
    ∃ label, (Node.ofNumber x).refold settle = some (.constant x label) := by
  unfold Node.ofNumber
  rw [if_pos signed]
  exact h.neg signed

theorem refold_ofNumber_unsigned {x : Float} (unsigned : ¬ Signed x) :
    (Node.ofNumber x).refold settle = some (.number x) := by
  unfold Node.ofNumber
  rw [if_neg unsigned]
  rfl

/-- A number is itself again, as a whole text. -/
theorem refold_ofNumber {x : Float} (h : Regains settle x) :
    ∃ out, (Node.ofNumber x).refold settle = some out ∧ out.unlabelled = .number x := by
  by_cases signed : Signed x
  · obtain ⟨label, hout⟩ := refold_ofNumber_signed h signed
    exact ⟨_, hout, rfl⟩
  · exact ⟨_, refold_ofNumber_unsigned signed, rfl⟩

/-- A number is itself again, as an operand. -/
theorem restates_constant {x : Float} (h : Regains settle x) (label : String) :
    (Node.constant x label).Restates settle := by
  unfold Node.Restates Node.restate Node.ofFolded
  split
  · rename_i hlt
    have signed := signed_of_lt_zero h.finite hlt
    obtain ⟨label', hout⟩ := refold_ofNumber_signed h signed
    obtain ⟨label'', hparen⟩ := h.paren signed label'
    refine ⟨.constant x label'', ?_, rfl⟩
    rw [Node.refold, hout]
    exact hparen
  · exact refold_ofNumber h

variable (steady : Steady settle)
include steady

/-- What becomes of a node restates itself, if the node does when it stays. -/
theorem restates_of_settle {mid out : Node} (hs : settle mid = some out)
    (hout : out.Numbers (Regains settle))
    (hmid : mid.Numbers (Regains settle) →
      ∃ again, mid.restate.refold settle = settle again ∧ mid.unlabelled = again.unlabelled) :
    out.Restates settle := by
  rcases steady.shape hs with rfl | ⟨x, label, rfl⟩
  · obtain ⟨again, hrefold, heq⟩ := hmid hout
    obtain ⟨out', hs', heq'⟩ := steady.unlabelled heq hs
    exact ⟨out', hrefold.trans hs', heq'⟩
  · exact restates_constant hout label

theorem restates_joined {join : Node → Node → Node} (joins : Grammar.Joins join) {a b out : Node}
    (hn : (join a b).refold settle = some out) (hout : out.Numbers (Regains settle))
    (iha : ∀ {out}, a.refold settle = some out → out.Numbers (Regains settle) → out.Restates settle)
    (ihb : ∀ {out}, b.refold settle = some out → out.Numbers (Regains settle) →
      out.Restates settle) : out.Restates settle := by
  obtain ⟨a', b', ha, hb, hs⟩ := joins.of_refold hn
  refine restates_of_settle steady hs hout fun hnumbers => ?_
  obtain ⟨hleft, hright⟩ := joins.numbers.mp hnumbers
  obtain ⟨r, hr, heq⟩ := iha ha hleft
  obtain ⟨r', hr', heq'⟩ := ihb hb hright
  refine ⟨join r r', ?_, by rw [joins.unlabelled, joins.unlabelled, heq, heq']⟩
  rw [joins.restate, joins.refold, hr, hr']
  rfl

/-- The tree that was settled restates itself; the induction is on the tree as it was before. -/
theorem refold_restate {node out : Node} (hn : node.refold settle = some out)
    (hout : out.Numbers (Regains settle)) : out.Restates settle := by
  induction node generalizing out with
  | number value =>
    obtain rfl := Option.some.inj hn
    exact ⟨_, rfl, rfl⟩
  | constant value label =>
    obtain rfl := Option.some.inj hn
    exact restates_constant hout label
  | reference name inSummation =>
    obtain rfl := Option.some.inj hn
    exact ⟨_, rfl, rfl⟩
  | random => exact restates_of_settle steady hn hout fun _ => ⟨.random, rfl, rfl⟩
  | unary op a ih =>
    obtain ⟨a', ha, hs⟩ := Option.bind_eq_some_iff.mp hn
    refine restates_of_settle steady hs hout fun hnumbers => ?_
    obtain ⟨r, hr, heq⟩ := ih ha hnumbers
    refine ⟨.unary op r, ?_, by rw [Node.unlabelled, Node.unlabelled, heq]⟩
    rw [Node.restate, Node.refold, hr]
    rfl
  | binary op a b iha ihb => exact restates_joined steady (.binary op) hn hout iha ihb
  | comparison op a b iha ihb => exact restates_joined steady (.comparison op) hn hout iha ihb
  | logic op a b iha ihb => exact restates_joined steady (.logic op) hn hout iha ihb
  | choice a b c iha ihb ihc =>
    obtain ⟨a', ha, hn⟩ := Option.bind_eq_some_iff.mp hn
    obtain ⟨b', hb, hn⟩ := Option.bind_eq_some_iff.mp hn
    obtain ⟨c', hc, hs⟩ := Option.bind_eq_some_iff.mp hn
    refine restates_of_settle steady hs hout fun hnumbers => ?_
    obtain ⟨ra, hra, heqa⟩ := iha ha hnumbers.1
    obtain ⟨rb, hrb, heqb⟩ := ihb hb hnumbers.2.1
    obtain ⟨rc, hrc, heqc⟩ := ihc hc hnumbers.2.2
    refine ⟨.choice ra rb rc, ?_, by rw [Node.unlabelled, Node.unlabelled, heqa, heqb, heqc]⟩
    rw [Node.restate, Node.refold, hra, hrb, hrc]
    rfl
  | summation a b c iha ihb ihc =>
    obtain ⟨a', ha, hn⟩ := Option.bind_eq_some_iff.mp hn
    obtain ⟨b', hb, hn⟩ := Option.bind_eq_some_iff.mp hn
    obtain ⟨c', hc, hs⟩ := Option.bind_eq_some_iff.mp hn
    refine restates_of_settle steady hs hout fun hnumbers => ?_
    obtain ⟨ra, hra, heqa⟩ := iha ha hnumbers.1
    obtain ⟨rb, hrb, heqb⟩ := ihb hb hnumbers.2.1
    obtain ⟨rc, hrc, heqc⟩ := ihc hc hnumbers.2.2
    refine ⟨.summation ra rb rc, ?_, by rw [Node.unlabelled, Node.unlabelled, heqa, heqb, heqc]⟩
    rw [Node.restate, Node.refold, hra, hrb, hrc]
    rfl
  | finite a ih =>
    obtain ⟨a', ha, hs⟩ := Option.bind_eq_some_iff.mp hn
    obtain rfl := Option.some.inj hs
    rcases a'.isFolded_or with ⟨value, label, rfl⟩ | hfolded
    · obtain ⟨r, hr, heq⟩ := refold_ofNumber hout
      refine ⟨.finite r, ?_, congrArg Node.finite heq⟩
      rw [Node.restate, Node.refold, hr]
      rfl
    · obtain ⟨r, hr, heq⟩ := ih ha hout
      refine ⟨.finite r, ?_, congrArg Node.finite heq⟩
      rw [Node.restate_finite hfolded, Node.refold, hr]
      rfl

end Refold

/-! ### What folding makes of a node -/

theorem steady_some : Steady some :=
  ⟨fun h => .inl (Option.some.inj h).symm, fun h hs => ⟨_, rfl, (Option.some.inj hs) ▸ h.symm⟩⟩

theorem steady_settle (steps : Nat) (limits : Limits) : Steady (settle steps limits) where
  shape {node out} h := by
    unfold settle at h
    split at h
    · split at h
      · obtain rfl := Option.some.inj h
        exact .inr ⟨_, _, rfl⟩
      · exact .inl (Option.some.inj h).symm
      · cases h
    · exact .inl (Option.some.inj h).symm
  unlabelled {a b out} heq h := by
    have hconstant : b.isConstant = a.isConstant := by
      rw [← a.isConstant_unlabelled, ← b.isConstant_unlabelled, heq]
    have hliteral : b.isLiteral = a.isLiteral := by
      rw [← a.isLiteral_unlabelled, ← b.isLiteral_unlabelled, heq]
    unfold settle at h ⊢
    rw [hconstant, hliteral, ← evaluate_of_unlabelled_eq heq]
    split at h
    · rename_i hcond
      rw [if_pos hcond]
      split at h
      · rename_i value _ _
        obtain rfl := Option.some.inj h
        exact ⟨.constant value (b.render false), rfl, rfl⟩
      · obtain rfl := Option.some.inj h
        exact ⟨b, rfl, heq.symm⟩
      · cases h
    · rename_i hcond
      rw [if_neg hcond]
      obtain rfl := Option.some.inj h
      exact ⟨b, rfl, heq.symm⟩

/-- A sign or a pair of parentheses around a value, where the result is finite. -/
theorem settle_unary {steps : Nat} (pos : 0 < steps) (limits : Limits) (op : UnaryOp) {node : Node}
    {x : Float} (literal : node.unlabelled = .number x) (finite : (op.apply x).isFinite = true) :
    ∃ label, settle steps limits (.unary op node) = some (.constant (op.apply x) label) := by
  obtain ⟨k, rfl⟩ : ∃ k, steps = k + 1 := ⟨steps - 1, by omega⟩
  have hconstant : (Node.unary op node).isConstant = true := by
    rw [Node.isConstant_unary, ← node.isConstant_unlabelled, literal, Node.isConstant_number]
  have hrun : evaluate Host.idle Source.none (k + 1) (.unary op node) (Context.fresh limits ()) =
      some (.ok (op.apply x), Context.fresh limits ()) := by
    have heq : (Node.unary op node).unlabelled = (Node.unary op (.number x)).unlabelled := by
      rw [Node.unlabelled, literal, Node.unlabelled, Node.unlabelled]
    rw [evaluate_of_unlabelled_eq heq]
    show some (checkFinite (op.apply x), _) = _
    rw [checkFinite_of_isFinite finite]
  unfold settle
  rw [hconstant, hrun]
  exact ⟨_, rfl⟩

/-- With folding, and some steps for it, every finite number regains its sign. -/
theorem regains_settle {steps : Nat} (limits : Limits) {x : Float} (finite : x.isFinite = true)
    (pos : Signed x → 0 < steps) : Regains (settle steps limits) x where
  finite := finite
  neg signed := by
    have hneg : UnaryOp.neg.apply (-x) = x := neg_neg_of_isFinite finite
    have literal : (Node.number (-x)).unlabelled = .number (-x) := rfl
    have hsettle := settle_unary (pos signed) limits .neg literal (hneg.symm ▸ finite)
    rwa [hneg] at hsettle
  paren signed label := settle_unary (pos signed) limits .paren rfl finite

end Formulae
