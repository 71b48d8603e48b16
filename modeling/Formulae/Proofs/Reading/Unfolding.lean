import Formulae.Proofs.Evaluation.Interchange
import Formulae.Proofs.Reading.Congruence
import Formulae.Proofs.Reading.Cursor

/-!
# Proofs.Reading.Unfolding — reading with folding follows reading without

Whatever a reading with folding ends in, the same reading without folding ends in as well: in the same
fault, or in a tree that comes to the folded one when its subtrees are settled from the leaves up.
-/

namespace Formulae.Reading

open Text Number Grammar

variable {σ : Type}

theorem carries_follows (host : Host σ) : Carries host host Run.Follows where
  pure := Run.follows_pure
  bind := Run.Follows.bind
  exhausted _ := Run.follows_exhausted
  cursor := Run.follows_refl _
  fail _ fault := Run.follows_fail fault
  moveTo _ := Run.follows_refl _
  advance := Run.follows_refl _

/-- The first subtree is what the second one becomes when it is settled. -/
structure Refolds (settle : Node → Option Node) (p q : Parsed) : Prop where
  node : q.node.refold settle = some p.node
  constant : p.constant = q.constant
  isConstant : q.constant = q.node.isConstant
  isConstant' : p.constant = p.node.isConstant

/-- A setting with folding and the same setting without. -/
structure Unfolds (settle : Node → Option Node) (g g' : Setting σ) : Prop where
  host : g'.host = g.host
  rounds : g'.rounds = g.rounds
  finish : ∀ node constant, constant = node.isConstant → ∀ r, finish g node constant r =
    (settle node).map fun out => (.ok ⟨out, constant⟩, r)
  isConstant : ∀ node out, settle node = some out → out.isConstant = node.isConstant
  unfolded : g'.options.foldConstants = false
  descend : ∀ entry inside,
    Run.Follows (Refolds settle) (g.descend entry inside) (g'.descend entry inside)

namespace Unfolds

variable {settle : Node → Option Node} {g g' : Setting σ} (h : Unfolds settle g g')
include h

/-- A node that was just built is settled; without folding it stays. -/
theorem finish_follows {node node' : Node} {constant : Bool}
    (hn : ∀ out, settle node = some out → node'.refold settle = some out)
    (hc : constant = node.isConstant) (hc' : constant = node'.isConstant) :
    Run.Follows (Refolds settle) (Reading.finish g node constant)
      (Reading.finish g' node' constant) := by
  intro r
  have hplain : Reading.finish g' node' constant r = some (.ok ⟨node', constant⟩, r) := by
    simp [Reading.finish, h.unfolded, Run.pure_apply]
  rw [h.finish node constant hc, hplain]
  rcases hs : settle node with _ | out
  · trivial
  · exact ⟨_, rfl, hn out hs, rfl, hc', hc.trans (h.isConstant node out hs).symm⟩

theorem unary_follows (op : UnaryOp) {p q : Parsed} (hpq : Refolds settle p q) :
    Run.Follows (Refolds settle) (Reading.finish g (.unary op p.node) p.constant)
      (Reading.finish g' (.unary op q.node) q.constant) := by
  rw [← hpq.constant]
  refine h.finish_follows (fun out hs => ?_) ?_ ?_
  · rw [Node.refold, hpq.node]
    exact hs
  · rw [Node.isConstant_unary, hpq.isConstant']
  · rw [Node.isConstant_unary, hpq.constant, hpq.isConstant]

theorem finishJoined_follows {join : Node → Node → Node} (joins : Joins join) {p q p' q' : Parsed}
    (hp : Refolds settle p p') (hq : Refolds settle q q') :
    Run.Follows (Refolds settle) (finishJoined g join p q) (finishJoined g' join p' q') := by
  have hfinish : Run.Follows (Refolds settle)
      (Reading.finish g (join p.node q.node) (p.constant && q.constant))
      (Reading.finish g' (join p'.node q'.node) (p.constant && q.constant)) := by
    refine h.finish_follows (fun out hs => ?_) ?_ ?_
    · rw [joins.refold, hp.node, Option.bind_some, hq.node, Option.bind_some, hs]
    · rw [joins.isConstant, hp.isConstant', hq.isConstant']
    · rw [joins.isConstant, hp.constant, hq.constant, hp.isConstant, hq.isConstant]
  unfold finishJoined
  rw [← hp.constant, ← hq.constant]
  exact hfinish

end Unfolds

/-- The flags of arguments say the same of their trees, settled and without folding. -/
theorem all_constant_eq {settle : Node → Option Node} {ps qs : List Parsed}
    (hargs : List.Forall₂ (Refolds settle) ps qs) :
    ps.all Parsed.constant = qs.all Parsed.constant ∧
      (ps.map Parsed.node).all Node.isConstant = ps.all Parsed.constant ∧
      (qs.map Parsed.node).all Node.isConstant = qs.all Parsed.constant := by
  induction hargs with
  | nil => exact ⟨rfl, rfl, rfl⟩
  | cons hp _ ih =>
    obtain ⟨ihall, ihp, ihq⟩ := ih
    simp only [List.map_cons, List.all_cons]
    exact ⟨by rw [hp.constant, ihall], by rw [hp.isConstant', ihp], by rw [hp.isConstant, ihq]⟩

theorem refolds_reference {settle : Node → Option Node} (name : String) (inside : Bool) :
    Refolds settle (reference name inside) (reference name inside) := by
  have hconstant := reference_constant name inside
  refine ⟨?_, rfl, hconstant, hconstant⟩
  have hstands := standsFor_iff.mpr (rfl : (reference name inside).node = _)
  exact hstands.refold settle

namespace Unfolds

variable {settle : Node → Option Node} {g g' : Setting σ} (h : Unfolds settle g g')
include h

theorem call_follows (name : String) (start : Nat) {ps qs : List Parsed}
    (hargs : List.Forall₂ (Refolds settle) ps qs) :
    Run.Follows (Refolds settle) (call g name ps start) (call g' name qs start) := by
  obtain ⟨hall, hallp, hallq⟩ := all_constant_eq hargs
  have hempty : ps.isEmpty = qs.isEmpty := by cases hargs <;> rfl
  have hlen : (ps.map Parsed.node).length = (qs.map Parsed.node).length := by
    rw [List.length_map, List.length_map, hargs.length_eq]
  unfold call
  rcases hp : callNode? name (ps.map Parsed.node) with _ | node
  · rw [callNode?_eq_none hp hlen, hargs.length_eq]
    exact (carries_follows g.host).failAt _ _
  · have hcalls := callNode?_eq_some_iff.mp hp
    have hsettled : List.Forall₂ (fun arg arg' => Node.refold settle arg' = some arg)
        (ps.map Parsed.node) (qs.map Parsed.node) :=
      List.forall₂_map_left_iff.mpr (List.forall₂_map_right_iff.mpr
        (hargs.imp fun _ _ hpq => hpq.node))
    obtain ⟨node', hcalls', hrefold⟩ := hcalls.settled hsettled
    rw [callNode?_eq_some_iff.mpr hcalls', hempty, hall]
    refine h.finish_follows (fun out hs => hrefold.trans hs) ?_ ?_
    · rw [hcalls.isConstant, List.isEmpty_map, hallp, hempty, hall]
    · rw [hcalls'.isConstant, List.isEmpty_map, hallq]

/-- Whatever is built by a reading with folding follows what is built without. -/
theorem relates : Relates (Refolds settle) g g' Run.Follows where
  toCarries := h.host ▸ carries_follows g.host
  rounds := .inl h.rounds.symm
  descend := h.descend
  number _ := ⟨rfl, rfl, (Node.isConstant_number _).symm, (Node.isConstant_number _).symm⟩
  reference := refolds_reference
  call name start _ _ := h.call_follows name start
  paren hpq := h.unary_follows .paren hpq
  neg hpq := h.unary_follows .neg hpq
  joined joins hpq hpq' := h.finishJoined_follows joins hpq hpq'

end Unfolds

/-! ### The whole text -/

section Whole

variable {host : Host σ} (quiet : host.Quiet) (on off : ReadingOptions)
  (folded : on.foldConstants = true) (unfolded : off.foldConstants = false)
  (inside : off.insideSummation = on.insideSummation) (steps steps' : Nat)
include quiet folded

/-- With folding, a node that was just built is settled and the world stays as it is. -/
theorem finish_of_folded {g : Setting σ} (hhost : g.host = host) (hoptions : g.options = on)
    (node : Node) (r : Reader σ) :
    finish g node node.isConstant r = (settle g.steps on.limits node).map fun out =>
      (.ok ⟨out, node.isConstant⟩, r) := by
  unfold finish
  rw [hhost, hoptions, folded, Bool.and_true]
  by_cases hc : node.isConstant = true
  · rw [hc, if_pos rfl, Run.bind_apply, fold_of_quiet quiet _ _ hc]
    rcases settle g.steps on.limits node with _ | out <;> rfl
  · rw [Bool.not_eq_true] at hc
    have hs : settle g.steps on.limits node = some node := by simp [settle, hc]
    rw [hs, hc]
    rfl

include unfolded

theorem nested_follows (depth : Nat) (entry : Entry) (inside : Bool) :
    Run.Follows (Refolds (settle steps on.limits)) (nested host on steps depth entry inside)
      (nested host off steps' depth entry inside) := by
  refine nested_related (carries_follows host).toSequences (fun depth hdescend => ?_) depth entry inside
  have h : Unfolds (settle steps on.limits) ⟨host, on, steps, depth, nested host on steps depth⟩
      ⟨host, off, steps', depth, nested host off steps' depth⟩ := by
    refine ⟨rfl, rfl, ?_, fun node out => isConstant_of_settle, unfolded, hdescend⟩
    rintro node constant rfl r
    exact finish_of_folded quiet on folded rfl rfl node r
  exact h.relates.chains

include inside

theorem whole_follows (depth : Nat) :
    Run.Follows (fun tree tree' => tree'.refold (settle steps on.limits) = some tree)
      (whole host on steps depth) (whole host off steps' depth) := by
  refine whole_related (carries_follows host) inside
    (nested_follows quiet on off folded unfolded steps steps' depth _ _) ?_
  intro p q hpq
  rw [Node.refold, hpq.node]
  rfl

/-- Reading with folding follows reading without: it ends in the same fault, or in what the other tree
becomes when it is settled from the leaves up. -/
theorem readNode_follows (source : String) :
    Run.Follows (fun tree tree' => tree'.refold (settle steps on.limits) = some tree)
      (readNode host on steps source) (readNode host off steps' source) := by
  intro world
  have h := whole_follows quiet on off folded unfolded inside steps steps' (depthBound source)
    ⟨Cursor.start source, world⟩
  unfold readNode
  rcases hx : whole host on steps (depthBound source) ⟨Cursor.start source, world⟩ with
    _ | ⟨fault | tree, t⟩
  · trivial
  · rw [hx] at h
    simp only [h]
  · rw [hx] at h
    obtain ⟨tree', hy, hrel⟩ := h
    exact ⟨tree', by simp only [hy], hrel⟩

end Whole

end Formulae.Reading
