import Formulae.Proofs.Grammar.Pieces
import Formulae.Proofs.Interruption.Idleness
import Formulae.Proofs.ReducedRendering

/-!
# Proofs.Placement — subtrees, their places and their pieces of the text

The flag of a reference says whether it stands among the arguments of a summation. It is the place of the
reference in the tree, and no more than that: behind a summation, and among the other arguments of a call that
holds one, a text is read as it would be by itself.

* `Node.LaidOut`: every subtree is read from a piece of the text, in the order of the text.
* `laidOut_of_formula`: a tree of the grammar with every subtree settled.
* `readNode_placed`: the trees of whole texts.
-/

namespace Formulae

open Grammar

variable {σ : Type}

namespace Node

/-- What holds of a tree if it holds of its operands holds of every tree. -/
theorem induction_operands {P : Node → Prop} (h : ∀ node, (∀ child ∈ node.operands, P child) → P node)
    (node : Node) : P node := by
  induction node with
  | number | constant | reference | random => exact h _ (List.forall_mem_nil P)
  | unary op a ih | finite a ih => exact h _ (List.forall_mem_singleton.mpr ih)
  | binary op a b iha ihb | comparison op a b iha ihb | logic op a b iha ihb =>
    exact h _ (List.forall_mem_cons.mpr ⟨iha, List.forall_mem_singleton.mpr ihb⟩)
  | choice a b c iha ihb ihc | summation a b c iha ihb ihc =>
    exact h _ (List.forall_mem_cons.mpr ⟨iha, List.forall_mem_cons.mpr
      ⟨ihb, List.forall_mem_singleton.mpr ihc⟩⟩)

/-- The text reads as the tree at a place, and pieces of it, one after the other, as the operands of the tree,
and so on below them. -/
inductive LaidOut (reads : Bool → List Char → Node → Prop) : Bool → List Char → Node → Prop where
  | mk {place : Bool} {text : List Char} {node : Node} (pieces : List (List Char))
      (whole : reads place text node) (inTurn : InTurn pieces text)
      (count : pieces.length = node.operands.length)
      (below : ∀ piece child, (piece, child) ∈ pieces.zip node.operands →
        LaidOut reads (node.placeBelow place) piece child) : LaidOut reads place text node

section Places

variable {reads : Bool → List Char → Node → Prop} {inside place : Bool} {text : List Char}
  {node sub inner : Node}

theorem LaidOut.whole (h : LaidOut reads place text node) : reads place text node := by
  cases h with
  | mk _ whole => exact whole

theorem exists_mem_zip {pieces : List (List Char)} {nodes : List Node} (count : pieces.length = nodes.length)
    (mem : node ∈ nodes) : ∃ piece, (piece, node) ∈ pieces.zip nodes := by
  rw [← List.map_snd_zip count.ge] at mem
  obtain ⟨⟨piece, _⟩, hmem, rfl⟩ := List.mem_map.mp mem
  exact ⟨piece, hmem⟩

/-- Whatever stands in the tree is laid out in a piece of the text. -/
theorem LaidOut.of_occurs (h : LaidOut reads inside text node) (hsub : node.Occurs inside sub place) :
    ∃ piece, piece <:+: text ∧ LaidOut reads place piece sub := by
  induction hsub with
  | root => exact ⟨text, List.infix_rfl, h⟩
  | child _ mem ih =>
    obtain ⟨piece, hpiece, habove⟩ := ih
    cases habove with
    | mk pieces _ inTurn count below =>
      obtain ⟨inner, hinner⟩ := exists_mem_zip count (List.mem_reverse.mpr mem)
      have hinfix := inTurn.of_mem (List.of_mem_zip hinner).1
      exact ⟨inner, hinfix.trans hpiece, below inner _ hinner⟩

theorem placeBelow_or (node : Node) (inside place : Bool) :
    node.placeBelow (inside || place) = (inside || node.placeBelow place) := by
  cases node with
  | summation => exact (Bool.or_true inside).symm
  | _ => rfl

/-- Inside of a summation, every place is. -/
theorem Occurs.within (h : node.Occurs false sub place) (inside : Bool) :
    node.Occurs inside sub (inside || place) := by
  induction h with
  | root =>
    rw [Bool.or_false]
    exact .root
  | child _ mem ih =>
    rw [← placeBelow_or]
    exact .child ih mem

/-- The outermost node of what is read is none of its places. -/
theorem Occurs.of_finite (h : (finite inner).Occurs inside sub place) :
    sub = .finite inner ∧ place = inside ∨ inner.Occurs inside sub place := by
  induction h with
  | root => exact .inl ⟨rfl, rfl⟩
  | child _ mem ih =>
    rcases ih with ⟨rfl, rfl⟩ | above
    · obtain rfl := List.mem_singleton.mp mem
      exact .inr .root
    · exact .inr (.child above mem)

/-- Only a reference is settled to a reference. -/
theorem eq_of_refold_reference {settle : Node → Option Node} (steady : Steady settle) {name : String}
    {flag : Bool} (h : node.refold settle = some (.reference name flag)) : node = .reference name flag := by
  have hcongruence : Congruence fun a b => b = .reference name flag → a = .reference name flag :=
    { leaf := fun _ _ h => h
      unary := fun _ _ => nofun
      binary := fun _ _ _ => nofun
      comparison := fun _ _ _ => nofun
      logic := fun _ _ _ => nofun
      choice := fun _ _ _ => nofun
      summation := fun _ _ _ => nofun
      finite := fun _ => nofun }
  refine hcongruence.refold (fun hmid hs => ?_) h rfl
  rcases steady.shape hs with rfl | ⟨value, label, rfl⟩
  · exact hmid
  · exact nofun

end Places

end Node

/-! ### Texts -/

/-- The text reads as the tree, with the arguments of a summation around it or not. -/
def ReadsAs (options : ReadingOptions) (steps : Nat) (place : Bool) (text : List Char) (node : Node) : Prop :=
  readNode Host.idle { options with insideSummation := place } steps (String.ofList text) () =
    some (.ok (.finite node), ())

section Texts

variable {options : ReadingOptions} {steps : Nat} {place : Bool} {text : List Char} {node out : Node}

theorem readsAs_of_formula (h : Formula place text node)
    (hn : node.refold (Reading.settling options steps) = some out) : ReadsAs options steps place text out := by
  rw [← String.toList_ofList (l := text)] at h
  exact readNode_of_formula Host.quiet_idle
    (Reading.settles_settling Host.quiet_idle { options with insideSummation := place } steps) h hn ()

/-- One relation after another, with what stands between them. -/
theorem forall₂_comp {α β γ : Type} {R : α → β → Prop} {S : β → γ → Prop} {as : List α} {bs : List β}
    {cs : List γ} (h : List.Forall₂ R as bs) (h' : List.Forall₂ S bs cs) :
    List.Forall₂ (fun a c => ∃ b ∈ bs, R a b ∧ S b c) as cs := by
  induction h generalizing cs with
  | nil =>
    cases h'
    exact .nil
  | @cons a b as bs hab _ ih =>
    cases h' with
    | cons hbc h' =>
      refine .cons ⟨b, List.mem_cons_self, hab, hbc⟩ ((ih h').imp ?_)
      rintro a c ⟨b, mem, hac⟩
      exact ⟨b, List.mem_cons_of_mem _ mem, hac⟩

/-- A tree of the grammar with every subtree settled is laid out in its text; the induction is on the tree, and
its operands are formulas of pieces of the text. -/
theorem laidOut_of_formula (h : Formula place text node)
    (hn : node.refold (Reading.settling options steps) = some out) :
    Node.LaidOut (ReadsAs options steps) place text out := by
  induction node using Node.induction_operands generalizing place text out with
  | h node ih =>
    have whole : ReadsAs options steps place text out := readsAs_of_formula h hn
    rcases Node.settledChildren_of_refold (steady_settling options steps) hn with
      hleaf | ⟨children, hplace⟩
    · have hempty : out.operands = [] := congrArg List.reverse hleaf
      refine .mk [] whole .nil (congrArg List.length hempty).symm fun piece child mem => ?_
      cases mem
    · obtain ⟨pieces, inTurn, hpieces⟩ := h.hasOperands
      have hboth := forall₂_comp hpieces (List.forall₂_reverse_iff.mpr children)
      refine .mk pieces whole inTurn hboth.length_eq fun piece child mem => ?_
      obtain ⟨origin, horigin, hderives, hrefold⟩ := List.forall₂_zip hboth mem
      rw [hplace]
      exact ih origin horigin ⟨[], hderives, rfl⟩ hrefold

/-- A reference that is read from a text is flagged with the place of the text. -/
theorem ReadsAs.flag {name : String} {flag : Bool}
    (h : ReadsAs options steps place text (.reference name flag)) : flag = place := by
  obtain ⟨node, _, hout, ⟨rest, hderives, -⟩, hrefold, -, -⟩ := settled_of_readNode Host.quiet_idle h
  obtain rfl := Node.finite.inj hout
  exact hderives.bears name flag (Node.eq_of_refold_reference (steady_settling _ steps) hrefold)

end Texts

/-- In every tree that is read, folded or not and under any host, a reference is flagged if the text was read as
standing inside of a summation or the reference stands below a summation of the tree, and only then. Behind a
summation and beside it the flag makes no difference: every subtree is what its own piece of the text is read
as by itself, at its own place, and the pieces of the operands of a node stand in the piece of the node one
after the other. -/
theorem readNode_placed {host : Host σ} {options : ReadingOptions} {steps : Nat} {source : String}
    {world after : σ} {tree : Node}
    (h : readNode host options steps source world = some (.ok tree, after)) :
    (∀ name flag below, tree.Occurs false (.reference name flag) below →
      (flag = true ↔ options.insideSummation = true ∨ below = true)) ∧
    ∃ inner, tree = .finite inner ∧
      Node.LaidOut (ReadsAs options steps) options.insideSummation source.toList inner := by
  obtain ⟨node, inner, rfl, hformula, hrefold, -, -⟩ := settled_of_readNode Host.quiet_idle (readNode_idle h)
  have hlaid := laidOut_of_formula hformula hrefold
  refine ⟨fun name flag below hoccurs => ?_, inner, rfl, hlaid⟩
  rcases hoccurs.of_finite with ⟨⟨⟩, -⟩ | hinner
  obtain ⟨piece, -, hpiece⟩ := hlaid.of_occurs (hinner.within options.insideSummation)
  rw [hpiece.whole.flag, Bool.or_eq_true]

/-- A sum with a folded bound, beside its index. -/
def besideSum : Node :=
  .choice (.comparison .gt (.summation (.number 1.0) (.constant 6.0 "2 * 3")
    (.binary .mul (.reference "n" true) (.reference "x" true))) (.reference "n" false))
    (.reference "n" false) (.number 0.0)

/-- Behind the sum and in the other arguments of the call around it, the index is not flagged. -/
theorem readNode_placed_beside :
    readNode (Deadline.host ⟨1000, none⟩) ⟨false, true, {}⟩ 9 "if(sum(1, 2 * 3, n x) > n, n, 0)"
        (World.start 0) = some (.ok (.finite besideSum), World.start 0) ∧
      (∀ name flag below, (Node.finite besideSum).Occurs false (.reference name flag) below →
        flag = below) ∧
      Node.LaidOut (ReadsAs ⟨false, true, {}⟩ 9) false "if(sum(1, 2 * 3, n x) > n, n, 0)".toList besideSum := by
  have hread : readNode (Deadline.host ⟨1000, none⟩) ⟨false, true, {}⟩ 9
      "if(sum(1, 2 * 3, n x) > n, n, 0)" (World.start 0) = some (.ok (.finite besideSum), World.start 0) := by
    decide +kernel
  obtain ⟨hflags, inner, hinner, hlaid⟩ := readNode_placed hread
  obtain rfl := Node.finite.inj hinner
  refine ⟨hread, fun name flag below hoccurs => ?_, hlaid⟩
  have hflag := hflags name flag below hoccurs
  rw [Bool.eq_iff_iff, hflag]
  exact or_iff_right Bool.false_ne_true

end Formulae
