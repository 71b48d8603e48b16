import Formulae.Proofs.Evaluation.Traversal
import Formulae.Proofs.Folding

/-!
# Proofs.Occurrences — names are resolved as they occur in the text

A formula without choices and summations is evaluated as it is written: its names are resolved one after the
other, each as often as it occurs, until there is a value or a fault.

* `Expression.ReadFrom.references`: what is read from a text, folded or not, refers to its variables from left
  to right.
* `Expression.resolves_occurrences`: so does every evaluation, as far as it gets.
-/

namespace Formulae

open Evaluation Grammar

variable {σ : Type}

/-! ### Folding -/

/-- Straight trees stay straight, with the same references. -/
def Node.KeepsReferences (node out : Node) : Prop :=
  node.Straight → out.Straight ∧ out.references = node.references

theorem Node.KeepsReferences.congruence : Node.Congruence Node.KeepsReferences where
  leaf _ _ straight := ⟨straight, rfl⟩
  unary _ _ _ h straight := h straight
  binary _ _ _ _ _ ha hb := fun ⟨sa, sb⟩ =>
    ⟨⟨(ha sa).1, (hb sb).1⟩, congrArg₂ _ (ha sa).2 (hb sb).2⟩
  comparison _ _ _ _ _ ha hb := fun ⟨sa, sb⟩ =>
    ⟨⟨(ha sa).1, (hb sb).1⟩, congrArg₂ _ (ha sa).2 (hb sb).2⟩
  logic _ _ _ _ _ ha hb := fun ⟨sa, sb⟩ =>
    ⟨⟨(ha sa).1, (hb sb).1⟩, congrArg₂ _ (ha sa).2 (hb sb).2⟩
  choice _ _ _ straight := straight.elim
  summation _ _ _ straight := straight.elim
  finite h straight := h straight

/-- A subtree that is folded has a value without bindings, so it has no references. -/
theorem keepsReferences_of_settling {options : ReadingOptions} {steps : Nat} {node out : Node}
    (hs : Reading.settling options steps node = some out) : node.KeepsReferences out := by
  intro straight
  rcases Reading.settling_cases hs with rfl | ⟨value, after, rfl, -, -, hrun⟩
  · exact ⟨straight, rfl⟩
  · exact ⟨trivial, (references_eq_nil_of_ok straight rfl hrun).symm⟩

theorem Node.KeepsReferences.refold {options : ReadingOptions} {steps : Nat} {node out : Node}
    (h : node.refold (Reading.settling options steps) = some out) : node.KeepsReferences out := by
  refine KeepsReferences.congruence.refold (fun {_ _ _} hmid hs straight => ?_) h
  obtain ⟨smid, rmid⟩ := hmid straight
  obtain ⟨sout, rout⟩ := keepsReferences_of_settling hs smid
  exact ⟨sout, rout.trans rmid⟩

/-- What is read from a text without choices and summations refers to the variables of the text, in their
order. -/
theorem Expression.ReadFrom.references {limits : Limits} {inside : Bool} {source : String} {e : Expression}
    (h : e.ReadFrom limits inside source) (straight : CallsStraight (mentions source.toList)) :
    e.root.Straight ∧ e.root.references = occurrences source.toList := by
  obtain ⟨folds, steps, node, out, hout, hformula, hrefold, -⟩ := h.settled
  obtain ⟨sout, rout⟩ := Node.KeepsReferences.refold hrefold (straight_of_formula hformula straight)
  rw [hout]
  exact ⟨sout, rout.trans (references_of_formula hformula)⟩

/-! ### Evaluation -/

/-- An evaluation of a text without choices and summations, whose variables do not stand for formulas, has an
end, whatever the host, the bindings and the limits are. It resolves the variables in the order in which they
occur in the text, the first ones if it fails and all of them if it has a value, and it asks the bindings once
for each of them. A variable is refused just when it is resolved once more than the limit allows, or when a
supplier that is asked says so. -/
theorem Expression.resolves_occurrences {limits : Limits} {inside : Bool} {source : String} {e : Expression}
    (h : e.ReadFrom limits inside source) (straight : CallsStraight (mentions source.toList)) (host : Host σ)
    (cancelled : σ → Bool) {v : Bindings σ}
    (hformula : ∀ name ∈ occurrences source.toList, ∀ b, v.get? name ≠ some (.formula b))
    (limits' : Limits) (steps : Nat) (world : σ) :
    ∃ outcome course after,
      e.evaluateNoted limits' host cancelled v (steps + 1) world = some (outcome, course, after) ∧
      e.evaluateUnder limits' host v.source (steps + 1) world = some (outcome, after) ∧
      course.resolved <+: occurrences source.toList ∧
      (course.asked = course.resolved ∨ ∃ name, course.resolved = course.asked ++ [name] ∧
        outcome = .error (.domain (.recursiveVariable name limits'.substitutions))) ∧
      (∀ x, outcome = .ok x → course.resolved = occurrences source.toList) ∧
      ∀ name limit, outcome = .error (.domain (.recursiveVariable name limit)) ↔
        (limit = limits'.substitutions ∧ limit < course.resolved.count name) ∨
        ∃ other c, .read other (.value (.error (.domain (.recursiveVariable name limit)))) c ∈ course := by
  obtain ⟨hstraight, hreferences⟩ := h.references straight
  rw [← hreferences] at hformula ⊢
  obtain ⟨outcome, after, new, hrun, hnew⟩ :=
    traversed_evaluateNoting host cancelled hstraight hformula steps
      (Context.fresh limits' ([], world)) rfl fun _ => Nat.zero_le _
  have hcourse : after.world.1 = new := hnew.course.trans (List.append_nil new)
  have hcounts : ∀ name, after.hits.count name = after.world.1.resolved.count name := fun name => by
    rw [hnew.counts, hcourse]
    exact Nat.zero_add _
  have hnoted : e.evaluateNoted limits' host cancelled v (steps + 1) world =
      some (outcome, after.world.1, after.world.2) := by
    rw [evaluateNoted, hrun]
    rfl
  rw [← hcourse] at hnew
  refine ⟨outcome, after.world.1, after.world.2, hnoted, ?_, hnew.resolved, hnew.asked,
    fun x hx => (hnew.complete x hx).1, fun name limit => ⟨fun hfault => ?_, ?_⟩⟩
  · rw [e.evaluateNoted_eq, hnoted]
    rfl
  · rw [← hcounts]
    exact hnew.refused name limit hfault
  · rintro (⟨rfl, hcount⟩ | ⟨other, c, hread⟩)
    · rw [← hcounts] at hcount
      exact hnew.exceeded name hcount
    · exact hnew.failed other _ c hread

/-- A name that occurs three times may be resolved twice: it is refused in the function call, and the names behind it
are not resolved any more. -/
theorem Expression.resolves_occurrences_refused :
    ∃ (e : Expression) (v : Bindings World) (course : Course) (after : World),
      e.ReadFrom {} false "2x*-y + (1 + 2) x - floor(x^z, y)" ∧
      CallsStraight (mentions "2x*-y + (1 + 2) x - floor(x^z, y)".toList) ∧
      occurrences "2x*-y + (1 + 2) x - floor(x^z, y)".toList = ["x", "y", "x", "x", "z", "y"] ∧
      v = ⟨[("x", .supplier fun world => (.ok 4.0, world)), ("y", .value 0.5), ("z", .value 1.0)]⟩ ∧
      (∀ name ∈ ["x", "y", "x", "x", "z", "y"], ∀ b, v.get? name ≠ some (.formula b)) ∧
      e.evaluateNoted ⟨2, 100⟩ (Deadline.host ⟨1000, none⟩) (fun _ => false) v 1 (World.start 0) =
        some (.error (.domain (.recursiveVariable "x" 2)), course, after) ∧
      e.evaluateUnder ⟨2, 100⟩ (Deadline.host ⟨1000, none⟩) v.source 1 (World.start 0) =
        some (.error (.domain (.recursiveVariable "x" 2)), after) ∧
      course.resolved = ["x", "y", "x", "x"] ∧ course.asked = ["x", "y", "x"] ∧
      2 < course.resolved.count "x" := by
  let source := "2x*-y + (1 + 2) x - floor(x^z, y)"
  let e : Expression := ⟨source, .finite (.binary .sub (.binary .add (.binary .mul (.binary .mul (.number 2.0)
    (.reference "x" false)) (.unary .neg (.reference "y" false)))
    (.binary .mul (.constant 3.0 "(1 + 2)") (.reference "x" false)))
    (.binary .floorPlaces (.binary .pow (.reference "x" false) (.reference "z" false))
      (.reference "y" false))), {}⟩
  let v : Bindings World :=
    ⟨[("x", .supplier fun world => (.ok 4.0, world)), ("y", .value 0.5), ("z", .value 1.0)]⟩
  let host := Deadline.host ⟨1000, none⟩
  have hfolded : readNode host ⟨false, true, {}⟩ 3 source (World.start 0) =
      some (.ok e.root, World.start 0) := by
    decide +kernel
  have hread : e.ReadFrom {} false source :=
    ⟨World, host, true, _, _, _, Deadline.quiet_host 1000 (by decide), Expression.read_of_readNode hfolded⟩
  have straight : CallsStraight (mentions source.toList) := by decide
  have hoccurrences : occurrences source.toList = ["x", "y", "x", "x", "z", "y"] := by decide
  have hformula : ∀ name ∈ ["x", "y", "x", "x", "z", "y"], ∀ b, v.get? name ≠ some (.formula b) := by
    simp [v, Bindings.get?, Bindings.getIn]
  have hcourse : (e.evaluateNoted ⟨2, 100⟩ host (fun _ => false) v 1 (World.start 0)).map
      (fun r => (r.1, r.2.1.resolved, r.2.1.asked)) =
      some (.error (.domain (.recursiveVariable "x" 2)), ["x", "y", "x", "x"], ["x", "y", "x"]) := by
    decide +kernel
  obtain ⟨outcome, course, after, hnoted, hrun, -⟩ :=
    Expression.resolves_occurrences hread straight host (fun _ => false) (hoccurrences ▸ hformula) ⟨2, 100⟩ 0
      (World.start 0)
  rw [hnoted] at hcourse
  obtain ⟨rfl, hcourse⟩ := Prod.mk.inj (Option.some.inj hcourse)
  obtain ⟨hresolved, hasked⟩ := Prod.mk.inj hcourse
  have hcount : 2 < course.resolved.count "x" := by
    rw [hresolved]
    decide
  exact ⟨e, v, course, after, hread, straight, hoccurrences, rfl, hformula, hnoted, hrun, hresolved, hasked,
    hcount⟩

end Formulae
