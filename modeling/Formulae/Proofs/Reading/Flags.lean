import Formulae.Proofs.Constancy
import Formulae.Proofs.Reading.Exactness
import Formulae.Proofs.Reading.Finiteness

/-!
# Proofs.Reading.Flags — the flag of a subtree tells whether it is constant

The flag is put together wherever a node is built, from the flags of its parts, and it stays with the subtree
when that is folded. The tree itself is not looked at.

* `Parsed.Tells`: the flag is what the walk over the tree comes to; `AllTell` says it of a reading.
* `allTell_finish` and its companions: the places where nodes are built and folded.
* `flags_tell`: the levels and the arguments, at any depth.
-/

namespace Formulae

open Grammar

variable {σ : Type}

theorem Node.numbers_any (node : Node) : node.Numbers fun _ => True := by
  induction node with
  | number | constant | reference | random => trivial
  | unary _ _ ih | finite _ ih => exact ih
  | binary _ _ _ iha ihb | comparison _ _ _ iha ihb | logic _ _ _ iha ihb => exact ⟨iha, ihb⟩
  | choice _ _ _ iha ihb ihc | summation _ _ _ iha ihb ihc => exact ⟨iha, ihb, ihc⟩

/-- The flag tells whether the tree is constant. -/
def Parsed.Tells (p : Parsed) : Prop :=
  p.constant = p.node.isConstant

namespace Reading

theorem sound_any {p : Parsed} : Sound (fun _ => True) p ↔ p.Tells :=
  ⟨Sound.constant, fun h => ⟨p.node.numbers_any, h⟩⟩

/-- The flags of all subtrees that the reading yields tell. -/
def AllTell (x : Reading σ Parsed) : Prop :=
  ∀ r p t, x r = some (.ok p, t) → p.Tells

theorem YieldsOnly.allTell {x y : Reading σ Parsed}
    (h : YieldsOnly (fun p _ => Sound (fun _ => True) p) x y) : AllTell x := by
  intro r p t hrun
  obtain ⟨-, hp⟩ := h.of_ok hrun
  exact hp.constant

/-! ### The places where nodes are built -/

section Built

variable (g : Setting σ)

/-- A node is folded or stays as it is; its flag goes on to tell. -/
theorem allTell_finish {node : Node} {constant : Bool} (h : Parsed.Tells ⟨node, constant⟩) :
    AllTell (finish g node constant) :=
  (yieldsOnly_finish (makes_any g) (sound_any.mpr h)).allTell

theorem allTell_unary (op : UnaryOp) {p : Parsed} (hp : p.Tells) :
    AllTell (finish g (.unary op p.node) p.constant) :=
  allTell_finish g ((sound_any.mpr hp).unary op).constant

theorem allTell_joined {join : Node → Node → Node} (joins : Joins join) {p q : Parsed} (hp : p.Tells)
    (hq : q.Tells) : AllTell (finishJoined g join p q) :=
  allTell_finish g ((sound_any.mpr hp).joined joins (sound_any.mpr hq)).constant

/-- A call, by whatever name and with however many arguments. -/
theorem allTell_call (name : String) (start : Nat) {ps : List Parsed} (hps : ∀ p ∈ ps, p.Tells) :
    AllTell (call g name ps start) :=
  (yieldsOnly_call (makes_any g) name start fun p hp => sound_any.mpr (hps p hp)).allTell

end Built

/-! ### What is read -/

/-- What is nested yields subtrees whose flags tell, and so do the readings put together from it. -/
theorem relates_setting (host : Host σ) (options : ReadingOptions) (steps depth : Nat) :
    Relates (fun p _ => Sound (fun _ => True) p) (setting host options steps depth)
      (setting host options steps depth) YieldsOnly :=
  have h := makes_any (setting host options steps depth)
  relates_yieldsOnly h (yieldsOnly_nested h depth)

/-- Whatever the host does, folding or not: every subtree that a level of the grammar reads carries the flag
that tells whether its tree is constant, and so does every argument of a call. Wherever a node is built from
such subtrees, its flag tells as well. What it tells is the conjunction along the tree. -/
theorem flags_tell (host : Host σ) (options : ReadingOptions) (steps depth : Nat) :
    (∀ l inside, AllTell (level (setting host options steps depth) l inside)) ∧
      (∀ inside opening r ps t,
        callArguments (setting host options steps depth) inside opening r = some (.ok ps, t) →
          ∀ p ∈ ps, p.Tells) ∧
      (∀ name start ps, (∀ p ∈ ps, p.Tells) →
        AllTell (call (setting host options steps depth) name ps start)) ∧
      (∀ join, Joins join → ∀ p q : Parsed, p.Tells → q.Tells →
        AllTell (finishJoined (setting host options steps depth) join p q)) ∧
      (∀ op (p : Parsed), p.Tells →
        AllTell (finish (setting host options steps depth) (.unary op p.node) p.constant)) ∧
      ∀ node : Node, node.isConstant = node.isClosed := by
  have hrelates := relates_setting host options steps depth
  refine ⟨fun l inside => (hrelates.chains.level l inside).allTell, fun inside opening r ps t hrun => ?_,
    fun name start ps hps => allTell_call _ name start hps,
    fun join joins p q hp hq => allTell_joined _ joins hp hq,
    fun op p hp => allTell_unary _ op hp, Node.isConstant_eq_isClosed⟩
  obtain ⟨qs, hps⟩ := (hrelates.callArguments inside opening).of_ok hrun
  have htells : List.Forall₂ (fun p _ => p.Tells ∧ True) ps qs :=
    hps.imp fun _ _ hp => ⟨hp.constant, trivial⟩
  exact ((List.forall₂_and_left ps qs).mp htells).1

/-- A product is folded, and two arguments, of which the second one draws, are called. -/
theorem flags_tell_folded :
    level (setting Host.idle {} 20 20) .term false ⟨Cursor.start "sum(1,2,n)*(2+3)", ()⟩ =
        some (.ok ⟨.constant 15 "sum(1, 2, n) * (2 + 3)", true⟩,
          ⟨⟨"sum(1,2,n)*(2+3)", [], 16⟩, ()⟩) ∧
      Parsed.Tells ⟨.constant 15 "sum(1, 2, n) * (2 + 3)", true⟩ ∧
      callArguments (setting Host.idle {} 20 20) true 3 ⟨Cursor.start "n, rand())", ()⟩ =
        some (.ok [⟨.reference "n" true, true⟩, ⟨.random, false⟩], ⟨⟨"n, rand())", [], 10⟩, ()⟩) ∧
      Parsed.Tells ⟨.binary .floorPlaces (.reference "n" true) .random, false⟩ := by
  have hproduct : level (setting Host.idle {} 20 20) .term false ⟨Cursor.start "sum(1,2,n)*(2+3)", ()⟩ =
      some (.ok ⟨.constant 15 "sum(1, 2, n) * (2 + 3)", true⟩, ⟨⟨"sum(1,2,n)*(2+3)", [], 16⟩, ()⟩) := by
    decide +kernel
  have hargs : callArguments (setting Host.idle {} 20 20) true 3 ⟨Cursor.start "n, rand())", ()⟩ =
      some (.ok [⟨.reference "n" true, true⟩, ⟨.random, false⟩], ⟨⟨"n, rand())", [], 10⟩, ()⟩) := by
    decide +kernel
  obtain ⟨hlevel, harguments, hcall, -⟩ := flags_tell Host.idle {} 20 20
  have htell := harguments _ _ _ _ _ hargs
  exact ⟨hproduct, hlevel _ _ _ _ _ hproduct, hargs,
    hcall "floor" 0 _ htell ⟨⟨"n, rand())", [], 10⟩, ()⟩ _ _ rfl⟩

end Reading

end Formulae
