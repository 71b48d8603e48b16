import Formulae.Proofs.Evaluation.Sources
import Formulae.Proofs.Names
import Formulae.Proofs.Reading.Exactness
import Formulae.Proofs.Reading.Unfolding

/-!
# Proofs.Folding — folding keeps the meaning of a formula

Reading with folding and without it ends in the same fault or in two expressions that have the same text,
are constant together and come to the same under all bindings, with the same values read in the same order.

* `Expression.ReadFrom.settled`: an expression is the tree of its text with every subtree settled.
* `Expression.SameText`: both were read from one text under the same limits, each folded or not.
* `Bindings.Alike`: the same bindings, up to such expressions.
-/

namespace Formulae

open Grammar

variable {σ τ : Type} {limits : Limits}

/-- Whatever one of the runs comes to with enough steps, the other one does as well. -/
def Run.SameResults {α : Type} (x y : Nat → Run σ α) : Prop :=
  ∀ world result, (∃ steps, x steps world = some result) ↔ ∃ steps, y steps world = some result

/-- The expression was read from the text under the limits, folded or not, by a run that is not stopped. -/
def Expression.ReadFrom (limits : Limits) (inside : Bool) (source : String) (e : Expression) : Prop :=
  ∃ (σ : Type) (host : Host σ) (folds : Bool) (steps : Nat) (world after : σ), host.Quiet ∧
    Expression.read host ⟨inside, folds, limits⟩ steps source world = some (.ok e, after)

/-- Both expressions were read from one text under the same limits, each folded or not. -/
def Expression.SameText (limits : Limits) (e e' : Expression) : Prop :=
  ∃ inside source, e.ReadFrom limits inside source ∧ e'.ReadFrom limits inside source

/-- The same bindings, or expressions of one text under the same limits. -/
inductive Binding.Alike (limits : Limits) : Binding τ → Binding τ → Prop where
  | refl (b : Binding τ) : Alike limits b b
  | formula {e e' : Expression} (h : e.SameText limits e') : Alike limits (.formula e) (.formula e')

/-- The same names are bound, and each of them alike. -/
def Bindings.Alike (limits : Limits) (v v' : Bindings τ) : Prop :=
  ∀ name, Option.Rel (Binding.Alike limits) (v.get? name) (v'.get? name)

/-! ### Expressions of one text are interchangeable -/

theorem Expression.read_eq_some {host : Host σ} {options : ReadingOptions} {steps : Nat}
    {source : String} {world after : σ} {e : Expression}
    (h : Expression.read host options steps source world = some (.ok e, after)) :
    readNode host options steps source world = some (.ok e.root, after) ∧
      e = ⟨source, e.root, options.limits⟩ := by
  unfold Expression.read at h
  rw [Run.bind_apply] at h
  split at h
  · rename_i root t hroot
    obtain ⟨he, rfl⟩ := Prod.mk.inj (Option.some.inj h)
    obtain rfl := Except.ok.inj he
    exact ⟨hroot, rfl⟩
  · cases h
  · cases h

/-- Without folding, the tree that is read is the one that the grammar derives. -/
theorem formula_of_readNode {host : Host σ} (quiet : host.Quiet) {options : ReadingOptions}
    (unfolded : options.foldConstants = false) {steps : Nat} {source : String} {world after : σ}
    {tree : Node} (h : readNode host options steps source world = some (.ok tree, after)) :
    ∃ node, tree = .finite node ∧ Formula options.insideSummation source.toList node :=
  ((Run.ends_iff_of_ok h).mp (readNode_ends quiet unfolded steps source world)).1

/-- With folding, a text of the grammar is read with every subtree settled. -/
theorem Reading.settles_folded {host : Host σ} (quiet : host.Quiet) (options : ReadingOptions)
    (folded : options.foldConstants = true) (steps : Nat) :
    Reading.Settles host options steps (settle steps options.limits) := by
  intro depth node node' r hs
  rw [Reading.finish_of_folded (g := Reading.setting host options steps depth) quiet options folded
    rfl rfl]
  show (settle steps options.limits node).map _ = _
  rw [hs, Reading.parsed, isConstant_of_settle hs]
  rfl

/-- What reading makes of a node that was just built. -/
def Reading.settling (options : ReadingOptions) (steps : Nat) : Node → Option Node :=
  if options.foldConstants then settle steps options.limits else some

theorem Reading.settling_of_folded {options : ReadingOptions} (folded : options.foldConstants = true)
    (steps : Nat) : Reading.settling options steps = settle steps options.limits :=
  if_pos folded

theorem Reading.settling_of_unfolded {options : ReadingOptions}
    (unfolded : options.foldConstants = false) (steps : Nat) : Reading.settling options steps = some :=
  if_neg (Bool.eq_false_iff.mp unfolded)

theorem Reading.settles_settling {host : Host σ} (quiet : host.Quiet) (options : ReadingOptions)
    (steps : Nat) : Reading.Settles host options steps (Reading.settling options steps) := by
  cases folds : options.foldConstants with
  | true =>
    rw [Reading.settling_of_folded folds]
    exact Reading.settles_folded quiet options folds steps
  | false =>
    rw [Reading.settling_of_unfolded folds]
    exact Reading.settles_some folds

/-- A subtree stays as it is, or it is constant and its value takes its place. -/
theorem Reading.settling_cases {options : ReadingOptions} {steps : Nat} {node out : Node}
    (h : Reading.settling options steps node = some out) :
    out = node ∨ ∃ value after, out = .constant value (node.render false) ∧ node.isConstant = true ∧
      settle steps options.limits node = some out ∧
      evaluate Host.idle Source.none steps node (Context.fresh options.limits ()) =
        some (.ok value, after) := by
  cases folds : options.foldConstants with
  | false =>
    rw [Reading.settling_of_unfolded folds] at h
    exact .inl (Option.some.inj h).symm
  | true =>
    rw [Reading.settling_of_folded folds] at h
    rcases eq_or_constant_of_settle h with hout | ⟨value, after, hout, hconstant, hrun⟩
    · exact .inl hout
    · exact .inr ⟨value, after, hout, hconstant, h, hrun⟩

/-- What is read is a tree of the grammar with every subtree settled; the two trees have the same plain text
and are interchangeable. -/
theorem settled_of_readNode {host : Host σ} (quiet : host.Quiet) {options : ReadingOptions}
    {steps : Nat} {source : String} {world after : σ} {tree : Node}
    (h : readNode host options steps source world = some (.ok tree, after)) :
    ∃ node node', tree = .finite node' ∧ Formula options.insideSummation source.toList node ∧
      node.refold (Reading.settling options steps) = some node' ∧
      node'.render false = node.render false ∧
      Interchangeable options.limits (.finite node) tree := by
  cases folds : options.foldConstants with
  | true =>
    obtain ⟨tree', htree, hrefold⟩ := (Reading.readNode_follows quiet options
      { options with foldConstants := false } folds rfl rfl steps 0 source).ok h
    obtain ⟨node, rfl, hformula⟩ := formula_of_readNode quiet rfl htree
    obtain ⟨node', hn, htree⟩ := Option.bind_eq_some_iff.mp hrefold
    obtain rfl := Option.some.inj htree
    rw [Reading.settling_of_folded folds]
    exact ⟨node, node', rfl, hformula, hn, render_of_refold hn, interchangeable_of_refold hrefold⟩
  | false =>
    obtain ⟨node, rfl, hformula⟩ := formula_of_readNode quiet folds h
    rw [Reading.settling_of_unfolded folds]
    exact ⟨node, node, rfl, hformula, node.refold_some, rfl, .refl options.limits _⟩

/-- An expression is the tree that the grammar derives from its text, with every subtree settled, and
interchangeable with it. -/
theorem Expression.ReadFrom.settled {inside : Bool} {source : String} {e : Expression}
    (h : e.ReadFrom limits inside source) :
    ∃ folds steps node out, e.root = .finite out ∧ Formula inside source.toList node ∧
      node.refold (Reading.settling ⟨inside, folds, limits⟩ steps) = some out ∧
      Interchangeable limits (.finite node) e.root := by
  obtain ⟨σ, host, folds, steps, world, after, quiet, hread⟩ := h
  obtain ⟨hroot, -⟩ := Expression.read_eq_some hread
  obtain ⟨node, out, hout, hformula, hrefold, -, hinter⟩ := settled_of_readNode quiet hroot
  exact ⟨folds, steps, node, out, hout, hformula, hrefold, hinter⟩

theorem Expression.SameText.interchangeable {e e' : Expression} (h : e.SameText limits e') :
    Interchangeable limits e.root e'.root := by
  obtain ⟨inside, source, h, h'⟩ := h
  obtain ⟨-, -, node, -, -, hformula, -, hnode⟩ := h.settled
  obtain ⟨-, -, node', -, -, hformula', -, hnode'⟩ := h'.settled
  obtain rfl := hformula.unique hformula'
  exact hnode.symm.trans hnode'

/-! ### Bindings that are alike -/

theorem rel_cases {α β : Type} {R : α → β → Prop} {x : Option α} {y : Option β}
    (h : Option.Rel R x y) : (x = none ∧ y = none) ∨ ∃ a b, x = some a ∧ y = some b ∧ R a b := by
  cases h with
  | some h => exact .inr ⟨_, _, rfl, rfl, h⟩
  | none => exact .inl ⟨rfl, rfl⟩

/-- In every world, the second binding supplies what the first one does, up to formulas that simulate
those of the first one. -/
def Binding.Simulates (limits : Limits) (k : Nat) (b b' : Binding τ) : Prop :=
  ∀ world, (b'.look world).2 = (b.look world).2 ∧
    Lookup.Simulates limits k (b.look world).1 (b'.look world).1

theorem Binding.Alike.symm {b b' : Binding τ} (h : Binding.Alike limits b b') :
    Binding.Alike limits b' b := by
  cases h with
  | refl => exact .refl _
  | formula h =>
    obtain ⟨inside, source, h, h'⟩ := h
    exact .formula ⟨inside, source, h', h⟩

theorem Bindings.Alike.symm {v v' : Bindings τ} (h : v.Alike limits v') : v'.Alike limits v := by
  intro name
  rcases rel_cases (h name) with ⟨hv, hv'⟩ | ⟨b, b', hv, hv', hb⟩
  · rw [hv, hv']
    exact .none
  · rw [hv, hv']
    exact .some hb.symm

theorem Lookup.Simulates.mono {j k : Nat} {a b : Lookup} (h : Lookup.Simulates limits j a b)
    (hjk : j ≤ k) : Lookup.Simulates limits k a b := by
  cases h with
  | unbound => exact .unbound
  | value => exact .value _
  | formula h => exact .formula (h.mono hjk)

theorem Binding.Alike.simulates {b b' : Binding τ} (h : Binding.Alike limits b b') :
    ∃ k, Binding.Simulates limits k b b' := by
  cases h with
  | refl =>
    refine ⟨0, fun world => ⟨rfl, ?_⟩⟩
    cases b with
    | value => exact .value _
    | supplier => exact .value _
    | formula e => exact .formula (.refl limits e.root)
  | formula h =>
    obtain ⟨k, hk, -⟩ := h.interchangeable
    exact ⟨k, fun world => ⟨rfl, .formula hk⟩⟩

/-- Finitely many names have a bound on the steps together. -/
theorem exists_bound {P : Nat → String → Prop} (mono : ∀ {j k name}, j ≤ k → P j name → P k name)
    (h : ∀ name, ∃ k, P k name) (names : List String) : ∃ k, ∀ name ∈ names, P k name := by
  induction names with
  | nil => exact ⟨0, by simp⟩
  | cons name names ih =>
    obtain ⟨j, hj⟩ := h name
    obtain ⟨k, hk⟩ := ih
    refine ⟨j + k, fun other ho => ?_⟩
    rcases List.mem_cons.mp ho with rfl | ho
    · exact mono (by omega) hj
    · exact mono (by omega) (hk other ho)

/-- Bindings that are alike make sources of which the second simulates the first. -/
theorem Bindings.Alike.simulates {v v' : Bindings τ} (h : v.Alike limits v') :
    ∃ k, Source.Simulates limits k v.source v'.source := by
  have hbound : ∃ k, ∀ name ∈ v.entries.map Prod.fst, ∀ b b', v.get? name = some b →
      v'.get? name = some b' → Binding.Simulates limits k b b' := by
    refine exists_bound (fun {j k name} hjk hj b b' hb hb' world => ?_) (fun name => ?_) _
    · exact ⟨(hj b b' hb hb' world).1, (hj b b' hb hb' world).2.mono hjk⟩
    · rcases rel_cases (h name) with ⟨hv, -⟩ | ⟨b, b', hv, hv', hb⟩
      · exact ⟨0, fun b b' hb => by rw [hv] at hb; cases hb⟩
      · obtain ⟨k, hk⟩ := hb.simulates
        refine ⟨k, fun c c' hc hc' => ?_⟩
        obtain rfl := Option.some.inj (hv.symm.trans hc)
        obtain rfl := Option.some.inj (hv'.symm.trans hc')
        exact hk
  obtain ⟨k, hk⟩ := hbound
  refine ⟨k, fun name world => ?_⟩
  unfold Bindings.source
  rcases rel_cases (h name) with ⟨hv, hv'⟩ | ⟨b, b', hv, hv', -⟩
  · rw [hv, hv']
    exact ⟨rfl, .unbound⟩
  · rw [hv, hv']
    have hname : name ∈ v.entries.map Prod.fst :=
      (Bindings.isSome_getIn v.entries name).mp (Option.isSome_iff_exists.mpr ⟨b, hv⟩)
    exact hk name hname b b' hv hv' world

theorem Bindings.Alike.isSome_eq {v v' : Bindings τ} (h : v.Alike limits v') (name : String) :
    (v'.get? name).isSome = (v.get? name).isSome := by
  rcases rel_cases (h name) with ⟨hv, hv'⟩ | ⟨b, b', hv, hv', -⟩
  · rw [hv, hv']
  · rw [hv, hv', Option.isSome_some, Option.isSome_some]

/-! ### Evaluations -/

section Evaluations

variable {host : Host τ} (quiet : host.Quiet) {v v' : Bindings τ} (alike : v.Alike limits v')
  {e e' : Expression} (hl : e.limits = limits) (hl' : e'.limits = limits)
  (hroot : Interchangeable limits e.root e'.root)
include quiet alike hl hl' hroot

/-- Whatever an expression comes to, an interchangeable one under bindings that are alike does as well. -/
theorem Expression.evaluate_of_alike {world : τ} {result : Except Fault Float × τ}
    (h : ∃ steps, e.evaluate host v.source steps world = some result) :
    ∃ steps, e'.evaluate host v'.source steps world = some result := by
  obtain ⟨steps, h⟩ := h
  obtain ⟨j, hj⟩ := alike.simulates
  obtain ⟨k, hk, -⟩ := hroot
  have hsource : Source.Simulates limits (j + k) v.source v'.source := fun name world =>
    ⟨(hj name world).1, (hj name world).2.mono (by omega)⟩
  unfold Expression.evaluate Expression.evaluateUnder at h ⊢
  rw [hl] at h
  rw [hl']
  exact ⟨_, evaluateFresh_of_simulates quiet hsource (hk.mono (by omega)) h⟩

/-- The same for equations. -/
theorem Equation.evaluate_of_alike {world : τ} {result : Except Fault Float × τ}
    (h : ∃ steps, (Equation.mk e v).evaluate host steps world = some result) :
    ∃ steps, (Equation.mk e' v').evaluate host steps world = some result := by
  obtain ⟨steps, h⟩ := h
  obtain ⟨j, hj⟩ := alike.simulates
  obtain ⟨k, hk, -⟩ := hroot
  have hcounted : Source.Simulates limits (j + k) (Equation.mk e v).source
      (Equation.mk e' v').source := by
    have hsource : Source.Simulates limits (j + k) v.source v'.source := fun name world =>
      ⟨(hj name world).1, (hj name world).2.mono (by omega)⟩
    have hbound : (fun name => (v'.get? name).isSome) = fun name => (v.get? name).isSome :=
      funext alike.isSome_eq
    unfold Equation.source
    simp only [hbound]
    exact hsource.counted _ _
  unfold Equation.evaluate Expression.evaluate Expression.evaluateUnder at h ⊢
  simp only [hl] at h
  simp only [hl']
  rcases hrun : evaluateFresh (host.onSecond Tally) (Equation.mk e v).source steps limits e.root
    (Tally.empty, world) with _ | ⟨outcome, tally, after⟩
  · simp only [hrun] at h
    cases h
  · have hrun' := evaluateFresh_of_simulates (quiet.onSecond Tally) hcounted (hk.mono (by omega))
      hrun
    simp only [hrun] at h
    exact ⟨_, by rw [hrun']; exact h⟩

end Evaluations

/-! ### Reading -/

theorem Expression.read_of_readNode {host : Host σ} {options : ReadingOptions} {steps : Nat}
    {source : String} {world after : σ} {root : Node}
    (h : readNode host options steps source world = some (.ok root, after)) :
    Expression.read host options steps source world =
      some (.ok ⟨source, root, options.limits⟩, after) := by
  unfold Expression.read
  rw [Run.bind_of_ok h]
  rfl

/-- Reading with folding and without ends in the same fault, or in two expressions with the same text that
are constant together and come to the same under bindings that are alike, with the same values read in the
same order. -/
theorem Expression.read_folding {host : Host σ} (quiet : host.Quiet) (inside : Bool)
    (limits : Limits) (steps steps' : Nat) (source : String) (world after : σ)
    (outcome : Except Fault Expression)
    (h : Expression.read host ⟨inside, true, limits⟩ steps source world = some (outcome, after)) :
    match outcome with
    | .error fault =>
      Expression.read host ⟨inside, false, limits⟩ steps' source world = some (.error fault, after)
    | .ok e => ∃ e',
      Expression.read host ⟨inside, false, limits⟩ steps' source world = some (.ok e', after) ∧
      e.render false = e'.render false ∧ e.isConstant = e'.isConstant ∧
      ∀ {τ : Type} (host' : Host τ), host'.Quiet → ∀ v v' : Bindings τ, v.Alike limits v' →
        Run.SameResults (e.evaluate host' v.source) (e'.evaluate host' v'.source) ∧
        Run.SameResults ((Equation.mk e v).evaluate host') ((Equation.mk e' v').evaluate host') := by
  have hfollows : Run.Follows
      (fun e e' : Expression => e'.root.refold (settle steps limits) = some e.root ∧
        e.limits = limits ∧ e'.limits = limits)
      (Expression.read host ⟨inside, true, limits⟩ steps source)
      (Expression.read host ⟨inside, false, limits⟩ steps' source) :=
    (Reading.readNode_follows quiet ⟨inside, true, limits⟩ ⟨inside, false, limits⟩ rfl rfl rfl steps
      steps' source).bind fun tree tree' hrefold => Run.follows_pure ⟨hrefold, rfl, rfl⟩
  cases outcome with
  | error fault => exact hfollows.error h
  | ok e =>
    obtain ⟨e', hread, hrefold, hl, hl'⟩ := hfollows.ok h
    have hinter := (interchangeable_of_refold hrefold).symm
    refine ⟨e', hread, render_of_refold hrefold, isConstant_of_refold hrefold, ?_⟩
    intro τ host' quiet' v v' alike
    refine ⟨fun world result => ⟨?_, ?_⟩, fun world result => ⟨?_, ?_⟩⟩
    · exact Expression.evaluate_of_alike quiet' alike hl hl' hinter
    · exact Expression.evaluate_of_alike quiet' alike.symm hl' hl hinter.symm
    · exact Equation.evaluate_of_alike quiet' alike hl hl' hinter
    · exact Equation.evaluate_of_alike quiet' alike.symm hl' hl hinter.symm

/-- A product whose first factor is folded. -/
theorem Expression.read_folding_product :
    ∃ e e' : Expression,
      e.root = .finite (.binary .mul (.constant (-2.718281828459045) "-e") (.reference "x" false)) ∧
      Expression.read (Deadline.host ⟨1000, none⟩) ⟨false, false, {}⟩ 0 "-e x" (World.start 0) =
        some (.ok e', World.start 0) ∧
      e.render false = e'.render false ∧ e.isConstant = e'.isConstant := by
  have hroot : readNode (Deadline.host ⟨1000, none⟩) ⟨false, true, {}⟩ 2 "-e x" (World.start 0) =
      some (.ok (.finite (.binary .mul (.constant (-2.718281828459045) "-e") (.reference "x" false))),
        World.start 0) := by
    decide +kernel
  obtain ⟨e', hread, hrender, hconstant, -⟩ :=
    Expression.read_folding (Deadline.quiet_host 1000 (by decide)) false {} 2 0 "-e x" _ _ _
      (Expression.read_of_readNode hroot)
  exact ⟨_, e', rfl, hread, hrender, hconstant⟩

end Formulae
