import Formulae.Proofs.Equation.Agreement
import Formulae.Proofs.Evaluation.Substitution
import Formulae.Proofs.Evaluation.Truth
import Formulae.Proofs.Folding

/-!
# Proofs.Truth — formulas of booleans

An operand of logic that is no boolean is a mistake in the formula, and it shows in the tree: no evaluation
fails for it if every operand and every condition is a boolean tree, in the formula and in all formulas that
it may enter.

* `Bindings.Truths`: names that are bound to boolean formulas. They may refer to each other, in circles too.
* `Bindings.Enters`: the trees that an evaluation may enter.
* `Expression.ReadFrom.keepsSorts`: folding a text keeps its operands boolean.
* `Expression.never_notBoolean`: no evaluation of an expression or an equation fails for such an operand.
-/

namespace Formulae

open Number Evaluation Grammar

variable {σ : Type} {names : String → Prop}

/-- These names are bound to boolean formulas, as far as these names are. -/
def Bindings.Truths (v : Bindings σ) (names : String → Prop) : Prop :=
  ∀ name, names name → ∃ e, v.get? name = some (.formula e) ∧ e.root.IsBoolean names

/-- An evaluation of the tree `root` may get to another tree through the formulas that names are bound to, in
the body of a summation or not. The index of a summation leads nowhere from its body. -/
inductive Bindings.Enters (v : Bindings σ) (root : Node) : Bool → Node → Prop where
  | root : Enters v root false root
  | formula {inBody within inSummation : Bool} {node : Node} {name : String} {e : Expression}
      (before : Enters v root inBody node)
      (stands : (.reference name inSummation, within) ∈ node.leaves inBody)
      (resolved : ¬ (within = true ∧ name = summationIndex))
      (bound : v.get? name = some (.formula e)) : Enters v root within e.root

/-- Suppliers do not complain about operands of logic. -/
def Bindings.Honest (v : Bindings σ) : Prop :=
  ∀ name ask world x, v.get? name = some (.supplier ask) → (ask world).1 ≠ .error (.notBoolean x)

/-! ### Folding -/

/-- Boolean trees stay boolean, and sorted ones stay sorted. -/
structure Node.KeepsSorts (names : String → Prop) (node out : Node) : Prop where
  boolean : node.IsBoolean names → out.IsBoolean names
  sorted : node.Sorted names → out.Sorted names

theorem Node.KeepsSorts.congruence (names : String → Prop) :
    Node.Congruence (Node.KeepsSorts names) where
  leaf _ _ := ⟨id, id⟩
  unary _ _ _ h := by
    refine ⟨fun hboolean => ?_, h.sorted⟩
    cases hboolean with
    | group inner => exact .group (h.boolean inner)
  binary _ _ _ _ _ ha hb := ⟨nofun, fun ⟨sa, sb⟩ => ⟨ha.sorted sa, hb.sorted sb⟩⟩
  comparison op _ _ _ _ ha hb :=
    ⟨fun _ => .comparison op _ _, fun ⟨sa, sb⟩ => ⟨ha.sorted sa, hb.sorted sb⟩⟩
  logic op _ _ _ _ ha hb :=
    ⟨fun _ => .logic op _ _, fun ⟨⟨ta, tb⟩, sa, sb⟩ =>
      ⟨⟨ha.boolean ta, hb.boolean tb⟩, ha.sorted sa, hb.sorted sb⟩⟩
  choice ha hb hc := by
    refine ⟨fun hboolean => ?_,
      fun ⟨ta, sa, sb, sc⟩ => ⟨ha.boolean ta, ha.sorted sa, hb.sorted sb, hc.sorted sc⟩⟩
    cases hboolean with
    | choice _ first second => exact .choice _ (hb.boolean first) (hc.boolean second)
  summation ha hb hc := ⟨nofun, fun ⟨sa, sb, sc⟩ => ⟨ha.sorted sa, hb.sorted sb, hc.sorted sc⟩⟩
  finite h := by
    refine ⟨fun hboolean => ?_, h.sorted⟩
    cases hboolean with
    | finite inner => exact .finite (h.boolean inner)

theorem keepsSorts_of_settling {options : ReadingOptions} {steps : Nat} {node out : Node}
    (hs : Reading.settling options steps node = some out) : node.KeepsSorts names out := by
  rcases Reading.settling_cases hs with rfl | ⟨value, after, rfl, hconstant, hsettle, -⟩
  · exact ⟨id, id⟩
  · have hfold := Reading.fold_of_quiet Host.quiet_idle steps options.limits hconstant
      ⟨Cursor.start "", ()⟩
    rw [hsettle] at hfold
    exact ⟨fun h => .folded h hfold, fun _ => trivial⟩

theorem Node.KeepsSorts.refold {options : ReadingOptions} {steps : Nat} {node out : Node}
    (h : node.refold (Reading.settling options steps) = some out) : node.KeepsSorts names out := by
  refine (KeepsSorts.congruence names).refold (fun {_ _ _} hmid hs => ?_) h
  have hout : KeepsSorts names _ _ := keepsSorts_of_settling hs
  exact ⟨fun hb => hout.boolean (hmid.boolean hb), fun hsorted => hout.sorted (hmid.sorted hsorted)⟩

/-- If the operands of logic in a text are booleans, so are those of the expression that is read, folded or
not, and if the text is boolean, so is the expression. -/
theorem Expression.ReadFrom.keepsSorts {limits : Limits} {inside : Bool} {source : String}
    {e : Expression} (h : e.ReadFrom limits inside source) {node : Node}
    (hformula : Formula inside source.toList node) : (Node.finite node).KeepsSorts names e.root := by
  obtain ⟨folds, steps, node', out, hout, hformula', hrefold, -⟩ := h.settled
  obtain rfl := hformula.unique hformula'
  rw [hout]
  exact (Node.KeepsSorts.congruence names).finite (.refold hrefold)

/-! ### Bindings -/

/-- What an evaluation gets to through sorted bindings is sorted. -/
theorem Bindings.sorted_source {v : Bindings σ} (truths : v.Truths names) (honest : v.Honest)
    {root : Node} (sorted : ∀ inBody node, v.Enters root inBody node → node.Sorted names) :
    v.source.Sorted names (v.Enters root) where
  truth name world bound _ := by
    obtain ⟨e, he, hboolean⟩ := truths name bound
    unfold Bindings.source
    rw [he]
    exact hboolean
  honest name world x hfound := by
    unfold Bindings.source at hfound
    rcases hb : v.get? name with _ | b
    · rw [hb] at hfound
      cases hfound
    · rw [hb] at hfound
      cases b with
      | formula e => cases hfound
      | value y =>
        have hy : checkFinite y = .error (.notBoolean x) := Lookup.value.inj hfound
        cases sensible_checkFinite y _ hy
      | supplier ask =>
        have hask : (ask world).1.bind checkFinite = .error (.notBoolean x) := Lookup.value.inj hfound
        rcases hs : (ask world).1 with fault | y
        · rw [hs] at hask
          exact honest name ask world x hb (hs.trans hask)
        · rw [hs] at hask
          cases sensible_checkFinite y _ hask
  sorted := sorted
  closed before stands resolved hroot := by
    obtain ⟨e, he, rfl, -⟩ := Bindings.source_eq_formula (Prod.ext hroot rfl)
    exact .formula before stands resolved he

/-- The run of a sorted tree does not fail for an operand of logic. -/
theorem Source.Sorted.evaluateFresh_ne {host : Host σ} {source : Source σ} {reached : Bool → Node → Prop}
    (h : source.Sorted names reached) {root : Node} (hroot : reached false root) (limits : Limits)
    (steps : Nat) (world : σ) (x : Float) (after : σ) :
    evaluateFresh host source steps limits root world ≠ some (.error (.notBoolean x), after) := by
  intro hrun
  rw [evaluateFresh_eq_map, Option.map_eq_some_iff] at hrun
  obtain ⟨⟨outcome, ctx⟩, hrun, heq⟩ := hrun
  obtain rfl : outcome = .error (.notBoolean x) := (Prod.mk.inj heq).1
  have hsound := sound_evaluate host h steps hroot (Context.fresh limits world) nofun
  unfold Run.Meets at hsound
  rw [hrun] at hsound
  cases hsound

/-- The value of a boolean tree is that of a boolean. -/
theorem Source.Sorted.isTruth {host : Host σ} {source : Source σ} {reached : Bool → Node → Prop}
    (h : source.Sorted names reached) {root : Node} (hroot : root.IsBoolean names) {limits : Limits}
    {steps : Nat} {world : σ} {y : Float} {after : σ}
    (hrun : evaluateFresh host source steps limits root world = some (.ok y, after)) :
    y = ofBool true ∨ y = ofBool false := by
  rw [evaluateFresh_eq_map, Option.map_eq_some_iff] at hrun
  obtain ⟨⟨outcome, ctx⟩, hrun, heq⟩ := hrun
  obtain rfl : outcome = .ok y := (Prod.mk.inj heq).1
  obtain ⟨b, rfl⟩ := yields_evaluate h.truth steps hroot _ _ _ hrun
  cases b with
  | true => exact .inl rfl
  | false => exact .inr rfl

/-- No evaluation of an expression under bindings, whatever the host and the limits are, and none of an
equation fails for an operand of logic that is no boolean, if the operands of logic and the conditions are
boolean trees, in the expression and in all formulas that the evaluation may enter. A boolean expression comes
to one or zero exactly, if it comes to a value. -/
theorem Expression.never_notBoolean (host : Host σ) {e : Expression} {v : Bindings σ}
    (truths : v.Truths names) (sorted : ∀ inBody node, v.Enters e.root inBody node → node.Sorted names)
    (honest : v.Honest) (limits : Limits) (steps : Nat) (world : σ) :
    (∀ x after, e.evaluateUnder limits host v.source steps world ≠
      some (.error (.notBoolean x), after)) ∧
    (∀ x after, (Equation.mk e v).evaluate host steps world ≠ some (.error (.notBoolean x), after)) ∧
    (e.root.IsBoolean names → ∀ y after,
      (e.evaluateUnder limits host v.source steps world = some (.ok y, after) ∨
        (Equation.mk e v).evaluate host steps world = some (.ok y, after)) →
      y = ofBool true ∨ y = ofBool false) := by
  have hsource := v.sorted_source truths honest sorted
  have hcounted := hsource.counted Equation.resolutionLimit fun name => (v.get? name).isSome
  refine ⟨fun x after => hsource.evaluateFresh_ne .root limits steps world x after,
    fun x after hrun => ?_, fun hboolean y after hrun => ?_⟩
  · rw [Equation.evaluate_eq_map, Option.map_eq_some_iff] at hrun
    obtain ⟨⟨outcome, w⟩, hrun, heq⟩ := hrun
    obtain rfl : outcome = .error (.notBoolean x) := (Prod.mk.inj heq).1
    exact hcounted.evaluateFresh_ne .root e.limits steps _ x w hrun
  · rcases hrun with hrun | hrun
    · exact hsource.isTruth hboolean hrun
    · rw [Equation.evaluate_eq_map, Option.map_eq_some_iff] at hrun
      obtain ⟨⟨outcome, w⟩, hrun, heq⟩ := hrun
      obtain rfl : outcome = .ok y := (Prod.mk.inj heq).1
      exact hcounted.isTruth hboolean hrun

/-- A condition over a folded constant, a comparison and a name that is bound to a folded formula. -/
theorem Expression.never_notBoolean_folded :
    ∃ (e b : Expression) (v : Bindings World),
      e.ReadFrom {} false "if(b & (x > 0 | 1 <> 1), 1, 0)" ∧ b.ReadFrom {} false "(2 < 3)" ∧
      b.root = .finite (.constant 1.0 "(2 < 3)") ∧
      v = ⟨[("b", .formula b), ("x", .supplier fun world => (.ok 2.0, world))]⟩ ∧
      v.Truths (· = "b") ∧ (∀ inBody node, v.Enters e.root inBody node → node.Sorted (· = "b")) ∧
      v.Honest ∧
      ∀ x after, e.evaluateUnder {} (Deadline.host ⟨1000, none⟩) v.source 4 (World.start 0) ≠
        some (.error (.notBoolean x), after) := by
  let e : Expression := ⟨"if(b & (x > 0 | 1 <> 1), 1, 0)", .finite (.choice (.logic .and
    (.reference "b" false) (.unary .paren (.logic .or (.comparison .gt (.reference "x" false) (.number 0.0))
      (.constant 0.0 "1 <> 1")))) (.number 1.0) (.number 0.0)), {}⟩
  let b : Expression := ⟨"(2 < 3)", .finite (.constant 1.0 "(2 < 3)"), {}⟩
  let v : Bindings World := ⟨[("b", .formula b), ("x", .supplier fun world => (.ok 2.0, world))]⟩
  let host := Deadline.host ⟨1000, none⟩
  have quiet : host.Quiet := Deadline.quiet_host 1000 (by decide)
  -- what the texts are read as, folded and not
  have hfolded : readNode host ⟨false, true, {}⟩ 3 e.source (World.start 0) =
      some (.ok e.root, World.start 0) := by
    decide +kernel
  have hplain : readNode host ⟨false, false, {}⟩ 3 e.source (World.start 0) =
      some (.ok (.finite (.choice (.logic .and (.reference "b" false) (.unary .paren (.logic .or
        (.comparison .gt (.reference "x" false) (.number 0.0))
        (.comparison .ltGt (.number 1.0) (.number 1.0))))) (.number 1.0) (.number 0.0))),
        World.start 0) := by
    decide +kernel
  have hfolded' : readNode host ⟨false, true, {}⟩ 3 b.source (World.start 0) =
      some (.ok b.root, World.start 0) := by
    decide +kernel
  have hplain' : readNode host ⟨false, false, {}⟩ 3 b.source (World.start 0) =
      some (.ok (.finite (.unary .paren (.comparison .lt (.number 2.0) (.number 3.0)))),
        World.start 0) := by
    decide +kernel
  have hread : e.ReadFrom {} false e.source :=
    ⟨World, _, true, _, _, _, quiet, Expression.read_of_readNode hfolded⟩
  have hread' : b.ReadFrom {} false b.source :=
    ⟨World, _, true, _, _, _, quiet, Expression.read_of_readNode hfolded'⟩
  obtain ⟨tree, htree, hformula⟩ := formula_of_readNode quiet rfl hplain
  obtain ⟨tree', htree', hformula'⟩ := formula_of_readNode quiet rfl hplain'
  cases htree
  cases htree'
  have keeps : (Node.finite _).KeepsSorts (· = "b") e.root := hread.keepsSorts hformula
  have keeps' : (Node.finite _).KeepsSorts (· = "b") b.root := hread'.keepsSorts hformula'
  have sorted : e.root.Sorted (· = "b") := keeps.sorted
    ⟨.logic .and _ _, ⟨⟨.name (by decide) rfl, .group (.logic .or _ _)⟩, trivial,
      ⟨.comparison .gt _ _, .comparison .ltGt _ _⟩, ⟨trivial, trivial⟩, trivial, trivial⟩, trivial, trivial⟩
  have sorted' : b.root.Sorted (· = "b") := keeps'.sorted ⟨trivial, trivial⟩
  have truths : v.Truths (· = "b") := by
    rintro _ rfl
    exact ⟨b, rfl, keeps'.boolean (.finite (.group (.comparison .lt _ _)))⟩
  have honest : v.Honest := by
    intro name ask world x hb
    unfold Bindings.get? Bindings.getIn Bindings.getIn at hb
    split at hb
    · cases hb
    · split at hb
      · obtain rfl := Binding.supplier.inj (Option.some.inj hb)
        intro hfails
        cases hfails
      · cases hb
  have entered : ∀ inBody node, v.Enters e.root inBody node → node.Sorted (· = "b") := by
    rintro inBody node (_ | ⟨_, _, _, bound⟩)
    · exact sorted
    · unfold Bindings.get? Bindings.getIn Bindings.getIn at bound
      split at bound
      · obtain rfl := Binding.formula.inj (Option.some.inj bound)
        exact sorted'
      · split at bound
        · cases bound
        · cases bound
  refine ⟨e, b, v, hread, hread', rfl, rfl, truths, entered, honest, fun x after => ?_⟩
  exact (Expression.never_notBoolean host truths entered honest {} 4 (World.start 0)).1 x after

end Formulae
