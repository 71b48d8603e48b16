import Formulae.Proofs.NormalForm

/-!
# Proofs.Grammar.Pieces — every subtree is derived from a piece of the text

A derivation does not look behind its end: what follows it may be cut off. So each operand and each argument
is a formula by itself, and so is everything below it.

* `SignAt.cut` and its companions, `Derives.cut`: a text may end where a token or a phrase does.
* `HasPieces inside text nodes`: pieces of the text, one after the other, are derived as the trees.
* `Derives.hasOperands`: the operands of a derived node have pieces, one case for each rule.
* `Derives.bears`: a reference is flagged with its place.
-/

namespace Formulae

/-- The subtrees right below the node, from left to right. -/
def Node.operands (node : Node) : List Node :=
  node.childrenReversed.reverse

namespace Grammar

open Text Number

/-! ### Texts that end where a token does -/

section Tokens

variable {text kept tail : List Char}

theorem NotNext.of_append {p : Char → Bool} (h : NotNext p (kept ++ tail)) : NotNext p kept := by
  cases kept with
  | nil => exact notNext_nil
  | cons c kept => exact h

/-- What follows a token that stands behind blanks may be cut off. -/
theorem cut_afterBlanks {spelling : List Char} (hs : afterBlanks text = spelling ++ (kept ++ tail))
    (nonempty : spelling ≠ []) :
    ∃ text', text = text' ++ tail ∧ afterBlanks text' = spelling ++ kept := by
  obtain ⟨c, cs, rfl⟩ := List.exists_cons_of_ne_nil nonempty
  have hsplit := List.takeWhile_append_dropWhile (p := isBlank) (l := text)
  have hstop : NotNext isBlank (c :: cs ++ (kept ++ tail)) := hs ▸ notNext_dropWhile text
  refine ⟨text.takeWhile isBlank ++ (c :: cs ++ kept), ?_, ?_⟩
  · rw [List.append_assoc, List.append_assoc, ← hs]
    exact hsplit.symm
  · exact dropWhile_run (all_takeWhile text) hstop

theorem SignAt.cut {sign : String} (h : SignAt sign text (kept ++ tail)) :
    ∃ text', text = text' ++ tail ∧ SignAt sign text' kept := by
  have hall : ∀ s ∈ signs, s.toList ≠ [] := by decide
  obtain ⟨text', rfl, hspelled⟩ := cut_afterBlanks h.spelled (hall sign h.mem)
  refine ⟨text', rfl, h.mem, hspelled, fun other ho hp => h.longest other ho ?_⟩
  rw [h.spelled, ← List.append_assoc, ← hspelled]
  exact hp.trans (List.prefix_append _ tail)

theorem IsNumeral.cut {spelling : List Char} (h : IsNumeral spelling (kept ++ tail)) :
    IsNumeral spelling kept := by
  cases h with
  | whole nonempty all stop none =>
    exact .whole nonempty all stop.of_append fun e he hp => none e he (hp.trans (List.prefix_append _ tail))
  | scaled nonempty all some stop => exact .scaled nonempty all some stop.of_append

theorem NumeralAt.cut {value : Float} (h : NumeralAt value text (kept ++ tail)) :
    ∃ text', text = text' ++ tail ∧ NumeralAt value text' kept := by
  obtain ⟨spelling, hs, hn, hv⟩ := h
  obtain ⟨text', rfl, hspelled⟩ := cut_afterBlanks hs hn.ne_nil
  exact ⟨text', rfl, spelling, hspelled, hn.cut, hv⟩

theorem IsName.cut {name : String} (h : IsName name (kept ++ tail)) : IsName name kept :=
  ⟨h.starts, h.continues, h.stop.of_append⟩

theorem NameAt.cut {name : String} (h : NameAt name text (kept ++ tail)) :
    ∃ text', text = text' ++ tail ∧ NameAt name text' kept := by
  obtain ⟨text', rfl, hspelled⟩ := cut_afterBlanks h.spelled (List.ne_nil_of_length_pos h.isName.length_pos)
  refine ⟨text', rfl, h.isName.cut, hspelled, fun hhead => h.notCalled ?_⟩
  rw [List.head?_append, hhead]
  rfl

theorem CallAt.cut {name : String} (h : CallAt name text (kept ++ tail)) :
    ∃ text', text = text' ++ tail ∧ CallAt name text' kept := by
  have hspelled : afterBlanks text = (name.toList ++ ['(']) ++ (kept ++ tail) := by
    rw [h.spelled, List.append_assoc]
    rfl
  obtain ⟨text', rfl, hspelled'⟩ := cut_afterBlanks hspelled (by simp)
  refine ⟨text', rfl, ?_, ?_⟩
  · have hname : IsName name (('(' :: kept) ++ tail) := h.isName
    exact hname.cut
  · rw [hspelled', List.append_assoc]
    rfl

theorem SignAt.suffix {sign : String} {rest : List Char} (h : SignAt sign text rest) : rest <:+ text := by
  have hnothing : SignAt sign text ([] ++ rest) := h
  obtain ⟨text', htext, -⟩ := hnothing.cut
  exact ⟨text', htext.symm⟩

theorem CallAt.suffix {name : String} {rest : List Char} (h : CallAt name text rest) : rest <:+ text := by
  have hnothing : CallAt name text ([] ++ rest) := h
  obtain ⟨text', htext, -⟩ := hnothing.cut
  exact ⟨text', htext.symm⟩

end Tokens

/-! ### Texts that end where a phrase does -/

/-- What follows a phrase may be cut off; the induction is on the derivation, from its end. -/
theorem Derives.cut {inside : Bool} {phrase : Phrase} {text rest kept tail : List Char}
    (h : Derives inside phrase text rest) (hrest : rest = kept ++ tail) :
    ∃ text', text = text' ++ tail ∧ Derives inside phrase text' kept := by
  induction h generalizing kept with
  | chain isChain _ _ ih ih' =>
    obtain ⟨mid, hmid, others⟩ := ih' hrest
    obtain ⟨text', htext, operand⟩ := ih hmid
    exact ⟨text', htext, .chain isChain operand others⟩
  | done => exact ⟨kept, hrest, .done⟩
  | operator mem next _ _ ih ih' =>
    obtain ⟨after, hafter, others⟩ := ih' hrest
    obtain ⟨mid, rfl, operand⟩ := ih hafter
    obtain ⟨text', htext, next⟩ := next.cut
    exact ⟨text', htext, .operator mem next operand others⟩
  | juxtaposed _ _ ih ih' =>
    obtain ⟨after, hafter, others⟩ := ih' hrest
    obtain ⟨text', htext, operand⟩ := ih hafter
    exact ⟨text', htext, .juxtaposed operand others⟩
  | negative next _ ih =>
    obtain ⟨mid, rfl, operand⟩ := ih hrest
    obtain ⟨text', htext, next⟩ := next.cut
    exact ⟨text', htext, .negative next operand⟩
  | positive next _ ih =>
    obtain ⟨mid, rfl, operand⟩ := ih hrest
    obtain ⟨text', htext, next⟩ := next.cut
    exact ⟨text', htext, .positive next operand⟩
  | unsigned _ ih =>
    obtain ⟨text', htext, operand⟩ := ih hrest
    exact ⟨text', htext, .unsigned operand⟩
  | base _ ih =>
    obtain ⟨text', htext, operand⟩ := ih hrest
    exact ⟨text', htext, .base operand⟩
  | raised _ next _ ih ih' =>
    obtain ⟨after, rfl, power⟩ := ih' hrest
    obtain ⟨mid, hmid, next⟩ := next.cut
    obtain ⟨text', htext, operand⟩ := ih hmid
    exact ⟨text', htext, .raised operand next power⟩
  | group opening _ closing ih =>
    subst hrest
    obtain ⟨after, hafter, closing⟩ := closing.cut
    obtain ⟨mid, rfl, content⟩ := ih hafter
    obtain ⟨text', htext, opening⟩ := opening.cut
    exact ⟨text', htext, .group opening content closing⟩
  | numeral next =>
    subst hrest
    obtain ⟨text', htext, next⟩ := next.cut
    exact ⟨text', htext, .numeral next⟩
  | name next stands =>
    subst hrest
    obtain ⟨text', htext, next⟩ := next.cut
    exact ⟨text', htext, .name next stands⟩
  | emptyCall next closing calls =>
    subst hrest
    obtain ⟨mid, rfl, closing'⟩ := closing.cut
    obtain ⟨text', htext, next⟩ := next.cut
    exact ⟨text', htext, .emptyCall next closing' calls⟩
  | call next _ calls ih =>
    obtain ⟨mid, rfl, content⟩ := ih hrest
    obtain ⟨text', htext, next⟩ := next.cut
    exact ⟨text', htext, .call next content calls⟩
  | lastArgument _ closing ih =>
    subst hrest
    obtain ⟨mid, hmid, closing⟩ := closing.cut
    obtain ⟨text', htext, content⟩ := ih hmid
    exact ⟨text', htext, .lastArgument content closing⟩
  | argument _ comma _ ih ih' =>
    obtain ⟨after, rfl, others⟩ := ih' hrest
    obtain ⟨mid, hmid, comma⟩ := comma.cut
    obtain ⟨text', htext, content⟩ := ih hmid
    exact ⟨text', htext, .argument content comma others⟩

/-! ### Pieces -/

theorem Derives.loosen {inside : Bool} {l : Level} {node : Node} {text rest : List Char}
    (h : Derives inside (.formula l.tighter node) text rest) : Derives inside (.formula l node) text rest := by
  cases l with
  | disjunction | conjunction | comparison | sum | term => exact .chain rfl h .done
  | signed => exact .unsigned h
  | power => exact .base h
  | primary => exact h

/-- What is derived at some level is a formula. -/
theorem Derives.whole {inside : Bool} {l : Level} {node : Node} {text rest : List Char}
    (h : Derives inside (.formula l node) text rest) :
    Derives inside (.formula .disjunction node) text rest := by
  obtain ⟨k, rfl⟩ := l.exists_tighter
  generalize Level.disjunction = l at h ⊢
  induction k generalizing l with
  | zero => exact h
  | succ k ih => exact (ih l.tighter h).loosen

/-- The pieces stand in the text one after the other, whatever is between them. -/
inductive InTurn : List (List Char) → List Char → Prop where
  | nil {text : List Char} : InTurn [] text
  | cons {gap piece rest : List Char} {pieces : List (List Char)} (others : InTurn pieces rest) :
      InTurn (piece :: pieces) (gap ++ piece ++ rest)

section InTurn

variable {pieces : List (List Char)} {text rest : List Char}

theorem InTurn.of_suffix (h : InTurn pieces rest) (hs : rest <:+ text) : InTurn pieces text := by
  obtain ⟨front, rfl⟩ := hs
  cases h with
  | nil => exact .nil
  | @cons gap piece rest _ others =>
    rw [← List.append_assoc, ← List.append_assoc]
    exact .cons others

theorem InTurn.of_mem (h : InTurn pieces text) {piece : List Char} (mem : piece ∈ pieces) :
    piece <:+: text := by
  induction h with
  | nil => cases mem
  | @cons gap first rest _ _ ih =>
    rcases List.mem_cons.mp mem with rfl | mem
    · exact ⟨gap, rest, rfl⟩
    · exact (ih mem).trans (List.suffix_append _ rest).isInfix

end InTurn

/-- The trees are derived from pieces of the text, by themselves, one after the other. -/
def HasPieces (inside : Bool) (text : List Char) (nodes : List Node) : Prop :=
  ∃ pieces, InTurn pieces text ∧
    List.Forall₂ (fun piece node => Derives inside (.formula .disjunction node) piece []) pieces nodes

section Pieces

variable {inside : Bool} {l : Level} {node left right : Node} {text rest : List Char}

theorem HasPieces.nil : HasPieces inside text [] :=
  ⟨[], .nil, .nil⟩

theorem HasPieces.of_suffix {nodes : List Node} (h : HasPieces inside rest nodes) (hs : rest <:+ text) :
    HasPieces inside text nodes := by
  obtain ⟨pieces, hturn, hpieces⟩ := h
  exact ⟨pieces, hturn.of_suffix hs, hpieces⟩

/-- A tree that is derived, and those behind it. -/
theorem Derives.hasPieces_cons {nodes : List Node} (h : Derives inside (.formula l node) text rest)
    (others : HasPieces inside rest nodes) : HasPieces inside text (node :: nodes) := by
  obtain ⟨pieces, hturn, hpieces⟩ := others
  have hnothing : rest = [] ++ rest := rfl
  obtain ⟨piece, rfl, hpiece⟩ := h.cut hnothing
  have hturn' : InTurn (piece :: pieces) ([] ++ piece ++ rest) := .cons hturn
  exact ⟨piece :: pieces, hturn', .cons hpiece.whole hpieces⟩

/-- The operands of the node are derived from pieces of the text. -/
def HasOperands (inside : Bool) (text : List Char) (node : Node) : Prop :=
  HasPieces (node.placeBelow inside) text node.operands

theorem Joins.operands {join : Node → Node → Node} (joins : Joins join) (left right : Node) :
    (join left right).operands = [left, right] := by
  cases joins <;> rfl

theorem Calls.operands {name : String} {args : List Node} (calls : Calls name args node) :
    node.operands = args := by
  cases calls <;> rfl

/-- Two operands, the second one perhaps behind an operator. -/
theorem hasOperands_joined {join : Node → Node → Node} (joins : Joins join) {mid after : List Char}
    {l' : Level} (first : Derives inside (.formula l left) text rest) (hmid : mid <:+ rest)
    (second : Derives inside (.formula l' right) mid after) : HasOperands inside text (join left right) := by
  unfold HasOperands
  rw [joins.placeBelow, joins.operands]
  exact first.hasPieces_cons ((second.hasPieces_cons .nil).of_suffix hmid)

theorem hasOperands_call {name : String} {args : List Node} (calls : Calls name args node)
    (h : HasPieces (inside || decide (name ∈ summationNames)) text args) : HasOperands inside text node := by
  unfold HasOperands
  rw [calls.placeBelow, calls.operands]
  exact h

/-- What stands right below the nodes of a phrase is derived from pieces of its text. The first operands of a
chain stand in front of the phrase, in a text that whatever goes on from them makes a chain of. -/
def Phrase.HasOperands (inside : Bool) (text : List Char) : Phrase → Prop
  | .formula _ node => Grammar.HasOperands inside text node
  | .more l left node => ∀ full,
    (∀ last after, Derives inside (.more l left last) text after →
      Derives inside (.formula l last) full after) →
    Grammar.HasOperands inside full left → Grammar.HasOperands inside full node
  | .arguments args => HasPieces inside text args

/-- A chain that goes on with an operand. -/
theorem hasOperands_operand {join : Node → Node → Node} (joins : Joins join) {mid after : List Char}
    (hmid : mid <:+ text) {l' : Level} (operand : Derives inside (.formula l' right) mid after)
    (goesOn : ∀ last rest, Derives inside (.more l (join left right) last) after rest →
      Derives inside (.more l left last) text rest)
    (others : (Phrase.more l (join left right) node).HasOperands inside after) :
    (Phrase.more l left node).HasOperands inside text := by
  intro full continues _
  have first : Derives inside (.formula l left) full text := continues left text .done
  exact others full (fun last rest more => continues last rest (goesOn last rest more))
    (hasOperands_joined joins first hmid operand)

/-- Every rule has its pieces; the induction is on the derivation. -/
theorem Derives.hasOperands {phrase : Phrase} (h : Derives inside phrase text rest) :
    phrase.HasOperands inside text := by
  induction h with
  | chain isChain operand _ ih ih' =>
    exact ih' _ (fun last after more => .chain isChain operand more) ih
  | done => exact fun _ _ first => first
  | operator mem next operand _ _ ih' =>
    exact hasOperands_operand (joins_of_mem mem) next.suffix operand
      (fun _ _ more => .operator mem next operand more) ih'
  | juxtaposed operand _ _ ih' =>
    exact hasOperands_operand (.binary .mul) List.suffix_rfl operand
      (fun _ _ more => .juxtaposed operand more) ih'
  | negative next operand => exact (operand.hasPieces_cons .nil).of_suffix next.suffix
  | positive next _ ih => exact HasPieces.of_suffix ih next.suffix
  | unsigned _ ih | base _ ih => exact ih
  | raised operand next power => exact hasOperands_joined (.binary .pow) operand next.suffix power
  | group opening content => exact (content.hasPieces_cons .nil).of_suffix opening.suffix
  | numeral => exact .nil
  | name _ stands => cases stands <;> exact HasPieces.nil
  | emptyCall _ _ calls => exact hasOperands_call calls .nil
  | call next _ calls ih => exact hasOperands_call calls (HasPieces.of_suffix ih next.suffix)
  | lastArgument content => exact content.hasPieces_cons .nil
  | argument content comma _ _ ih => exact content.hasPieces_cons (HasPieces.of_suffix ih comma.suffix)

/-- The operands of a formula are formulas of pieces of its text. -/
theorem Formula.hasOperands (h : Formula inside text node) : HasOperands inside text node := by
  obtain ⟨rest, hderives, -⟩ := h
  exact hderives.hasOperands

/-! ### Flags -/

/-- If the tree is a reference, it is flagged as standing in this place. -/
def Bears (inside : Bool) (node : Node) : Prop :=
  ∀ name flag, node = .reference name flag → flag = inside

theorem Joins.bears {join : Node → Node → Node} (joins : Joins join) (left right : Node) :
    Bears inside (join left right) := by
  cases joins <;> exact nofun

/-- A reference is flagged with the place in which it was derived. -/
theorem Derives.bears {phrase : Phrase} (h : Derives inside phrase text rest) :
    match phrase with
    | .formula _ node => Bears inside node
    | .more _ left node => Bears inside left → Bears inside node
    | .arguments _ => True := by
  induction h with
  | chain _ _ _ ih ih' => exact ih' ih
  | done => exact id
  | operator mem _ _ _ _ ih' => exact fun _ => ih' ((joins_of_mem mem).bears _ _)
  | juxtaposed _ _ _ ih' => exact fun _ => ih' ((Joins.binary .mul).bears _ _)
  | positive _ _ ih | unsigned _ ih | base _ ih => exact ih
  | negative | raised | group | numeral => exact nofun
  | name _ stands =>
    cases stands with
    | constant => exact nofun
    | reference =>
      rintro _ _ ⟨⟩
      rfl
  | emptyCall _ _ calls | call _ _ calls => cases calls <;> exact nofun
  | lastArgument | argument => trivial

end Pieces

end Grammar

end Formulae
