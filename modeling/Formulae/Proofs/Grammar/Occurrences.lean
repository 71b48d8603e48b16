import Formulae.Proofs.Grammar.Follow
import Formulae.Proofs.Reading.Tokens

/-!
# Proofs.Grammar.Occurrences — the names in a text and in its tree

* `mentions`: the names in a text from left to right, by a scan that knows of blanks, numerals and names only.
* `occurrences`: those of them that are neither called nor constants.
* `Node.references`: the references of a tree from left to right.
* `Node.Straight`: a tree without choices and summations, all of which is evaluated.
* `Mentions text found rest`: what is found from the start of a text up to a rest of it.
* `Derives.mentions`: a derivation finds the references of the tree that is derived, one case for each rule;
  `references_of_formula` and `straight_of_formula` are the whole text.
-/

namespace Formulae

open Text Number

namespace Node

/-- The references of a tree from left to right. -/
def references : Node → List String
  | .number _ | .constant _ _ | .random => []
  | .reference name _ => [name]
  | .unary _ arg | .finite arg => arg.references
  | .binary _ left right | .comparison _ left right | .logic _ left right =>
    left.references ++ right.references
  | .choice a b c | .summation a b c => a.references ++ (b.references ++ c.references)

/-- The tree has neither choices nor summations. -/
def Straight : Node → Prop
  | .number _ | .constant _ _ | .random | .reference _ _ => True
  | .unary _ arg | .finite arg => arg.Straight
  | .binary _ left right | .comparison _ left right | .logic _ left right =>
    left.Straight ∧ right.Straight
  | .choice _ _ _ | .summation _ _ _ => False

end Node

namespace Grammar

/-! ### The names in a text -/

/-- A name in a text; it is called if a parenthesis opens at once behind it. -/
structure Mention where
  name : String
  called : Bool
deriving DecidableEq

/-- The names in a text from left to right, behind the first `skip` characters. Numerals are skipped with their
exponents, and names are taken in full. -/
def mentionsFrom : Nat → List Char → List Mention
  | _, [] => []
  | skip + 1, _ :: rest => mentionsFrom skip rest
  | 0, c :: rest =>
    if isBlank c then mentionsFrom 0 rest
    else if Numeral.isMantissaChar c then mentionsFrom ((Numeral.scan (c :: rest)).length - 1) rest
    else if startsName c then
      let name := (c :: rest).takeWhile continuesName
      ⟨String.ofList name, ((c :: rest).drop name.length).head? == some '('⟩ ::
        mentionsFrom (name.length - 1) rest
    else mentionsFrom 0 rest

/-- The names in a text from left to right. -/
def mentions (text : List Char) : List Mention :=
  mentionsFrom 0 text

/-- A character that starts neither a numeral nor a name, and is no blank. -/
def isPunctuation (c : Char) : Bool :=
  !isBlank c && !Numeral.isMantissaChar c && !startsName c

/-- Whether a name is that of a constant. -/
def isValueName (name : String) : Bool :=
  (namedValues.map Prod.fst).contains name

/-- Those of some names that are neither called nor constants. -/
def variablesOf (found : List Mention) : List String :=
  found.filterMap fun m => if m.called || isValueName m.name then none else some m.name

/-- The variables of a text, each as often as it occurs, from left to right. -/
def occurrences (text : List Char) : List String :=
  variablesOf (mentions text)

/-- No choice and no summation is called. -/
def CallsStraight (found : List Mention) : Prop :=
  ∀ m ∈ found, m.called = true → m.name ≠ "if" ∧ m.name ∉ summationNames

instance (found : List Mention) : Decidable (CallsStraight found) := by
  unfold CallsStraight
  infer_instance

theorem variablesOf_append (a b : List Mention) : variablesOf (a ++ b) = variablesOf a ++ variablesOf b :=
  List.filterMap_append ..

theorem callsStraight_append {a b : List Mention} :
    CallsStraight (a ++ b) ↔ CallsStraight a ∧ CallsStraight b :=
  List.forall_mem_append

/-- Skipped characters are none of the text. -/
theorem mentionsFrom_eq (skip : Nat) (text : List Char) :
    mentionsFrom skip text = mentions (text.drop skip) := by
  induction text generalizing skip with
  | nil => cases skip <;> rfl
  | cons c rest ih =>
    cases skip with
    | zero => rfl
    | succ skip => exact ih skip

section Scan

variable {c : Char} (rest : List Char)

theorem mentions_cons_of_blank (h : isBlank c = true) : mentions (c :: rest) = mentions rest := by
  rw [mentions, mentionsFrom, if_pos h]
  rfl

theorem mentions_cons_of_mantissa (hblank : isBlank c = false) (h : Numeral.isMantissaChar c = true) :
    mentions (c :: rest) = mentions (rest.drop ((Numeral.scan (c :: rest)).length - 1)) := by
  rw [mentions, mentionsFrom, hblank, if_neg Bool.false_ne_true, if_pos h, mentionsFrom_eq]

theorem mentions_cons_of_name {cs : List Char} (hblank : isBlank c = false)
    (hmantissa : Numeral.isMantissaChar c = false) (h : startsName c = true)
    (hrun : (c :: rest).takeWhile continuesName = c :: cs) : mentions (c :: rest) =
      ⟨String.ofList (c :: cs), (rest.drop cs.length).head? == some '('⟩ ::
        mentions (rest.drop cs.length) := by
  rw [mentions, mentionsFrom, hblank, hmantissa, if_neg Bool.false_ne_true, if_neg Bool.false_ne_true,
    if_pos h, hrun]
  exact congrArg (List.cons _) (mentionsFrom_eq cs.length rest)

theorem mentions_cons_of_punctuation (h : isPunctuation c = true) : mentions (c :: rest) = mentions rest := by
  simp only [isPunctuation, Bool.and_eq_true, Bool.not_eq_true'] at h
  rw [mentions, mentionsFrom, h.1.1, h.1.2, h.2]
  rfl

end Scan

/-! ### What is found from the start of a text up to a rest -/

/-- From the start of the text up to the rest, these names are found. -/
def Mentions (text : List Char) (found : List Mention) (rest : List Char) : Prop :=
  mentions text = found ++ mentions rest

section Mentions

variable {text mid rest : List Char}

theorem mentions_nil (text : List Char) : Mentions text [] text :=
  rfl

theorem Mentions.trans {found more : List Mention} (h : Mentions text found mid)
    (h' : Mentions mid more rest) : Mentions text (found ++ more) rest := by
  unfold Mentions at *
  rw [h, h', List.append_assoc]

theorem mentions_afterBlanks (text : List Char) : Mentions text [] (afterBlanks text) := by
  induction text with
  | nil => rfl
  | cons c rest ih =>
    by_cases hc : isBlank c = true
    · rw [afterBlanks, List.dropWhile_cons_of_pos hc]
      exact (mentions_cons_of_blank rest hc).trans ih
    · rw [afterBlanks, List.dropWhile_cons_of_neg hc]
      exact mentions_nil _

theorem mentions_of_blank (h : afterBlanks text = []) : mentions text = [] := by
  have hblanks := mentions_afterBlanks text
  rw [h] at hblanks
  exact hblanks

theorem mentions_punctuation {cs : List Char} (h : ∀ c ∈ cs, isPunctuation c = true) :
    Mentions (cs ++ rest) [] rest := by
  induction cs with
  | nil => rfl
  | cons c cs ih =>
    have hskip := mentions_cons_of_punctuation (cs ++ rest) (h c List.mem_cons_self)
    exact hskip.trans (ih fun x hx => h x (List.mem_cons_of_mem c hx))

theorem mentions_sign {sign : String} (h : SignAt sign text rest) : Mentions text [] rest := by
  have hall : ∀ s ∈ signs, s.toList.all isPunctuation = true := by decide
  have hsign : Mentions (afterBlanks text) [] rest := by
    rw [h.spelled]
    exact mentions_punctuation (List.all_eq_true.mp (hall sign h.mem))
  exact (mentions_afterBlanks text).trans hsign

theorem isBlank_of_afterBlanks {c : Char} {cs : List Char} (h : afterBlanks text = c :: cs) :
    isBlank c = false := by
  have hstop := notNext_dropWhile (p := isBlank) text
  rw [← afterBlanks, h] at hstop
  exact notNext_cons.mp hstop

theorem mentions_numeral {value : Float} (h : NumeralAt value text rest) : Mentions text [] rest := by
  obtain ⟨spelling, hspelled, hnumeral, -⟩ := h
  obtain ⟨c, hhead, hc⟩ := hnumeral.head
  obtain ⟨cs, rfl⟩ := List.head?_eq_some_iff.mp hhead
  have hblank := isBlank_of_afterBlanks hspelled
  have hnumeral : Mentions (afterBlanks text) [] rest := by
    have hscan : Numeral.scan (c :: (cs ++ rest)) = c :: cs := scan_append hnumeral
    rw [hspelled, List.cons_append, Mentions, mentions_cons_of_mantissa _ hblank hc, hscan]
    exact congrArg mentions List.drop_left
  exact (mentions_afterBlanks text).trans hnumeral

/-- A name is found in full. -/
theorem mentions_name {name : String} (h : IsName name rest)
    (spelled : afterBlanks text = name.toList ++ rest) :
    Mentions text [⟨name, rest.head? == some '('⟩] rest := by
  obtain ⟨c, cs, hname, hc⟩ := h.starts
  have hname' : name = String.ofList (c :: cs) := by rw [← hname, String.ofList_toList]
  have hcontinues := h.continues
  rw [hname] at spelled hcontinues
  have hblank := isBlank_of_afterBlanks spelled
  have hmantissa : Numeral.isMantissaChar c = false := by
    refine Bool.eq_false_iff.mpr fun hm => ?_
    rw [Reading.startsName_of_isMantissaChar hm] at hc
    cases hc
  have hrun : (c :: (cs ++ rest)).takeWhile continuesName = c :: cs := takeWhile_run hcontinues h.stop
  have hfound : Mentions (afterBlanks text) [⟨name, rest.head? == some '('⟩] rest := by
    rw [spelled, List.cons_append, Mentions, mentions_cons_of_name _ hblank hmantissa hc hrun, List.drop_left,
      hname']
    rfl
  exact (mentions_afterBlanks text).trans hfound

theorem mentions_call {name : String} (h : CallAt name text rest) :
    Mentions text [⟨name, true⟩] rest := by
  have hparen : Mentions (['('] ++ rest) [] rest :=
    mentions_punctuation (List.forall_mem_singleton.mpr (by decide))
  exact (mentions_name h.isName h.spelled).trans hparen

end Mentions

/-! ### Derivations -/

/-- A name that is not called stands for a reference to it, unless it is that of a constant. -/
theorem StandsFor.references {inside : Bool} {name : String} {node : Node}
    (h : StandsFor inside name node) : node.references = variablesOf [⟨name, false⟩] ∧ node.Straight := by
  cases h with
  | @constant value mem =>
    have hname : isValueName name = true := List.contains_iff_mem.mpr (List.mem_map_of_mem mem)
    exact ⟨by simp [Node.references, variablesOf, hname], trivial⟩
  | reference free =>
    have hname : isValueName name = false := by
      refine Bool.eq_false_iff.mpr fun hc => ?_
      obtain ⟨⟨_, value⟩, hvalue, rfl⟩ := List.mem_map.mp (List.contains_iff_mem.mp hc)
      exact free value hvalue
    exact ⟨by simp [Node.references, variablesOf, hname], trivial⟩

/-- The references of a call are those of its arguments. -/
theorem Calls.references {name : String} {args : List Node} {node : Node} (h : Calls name args node) :
    node.references = args.flatMap Node.references := by
  cases h <;> simp [Node.references]

theorem Calls.straight {name : String} {args : List Node} {node : Node} (h : Calls name args node)
    (hname : name ≠ "if" ∧ name ∉ summationNames) (hargs : ∀ arg ∈ args, arg.Straight) :
    node.Straight := by
  cases h with
  | random => trivial
  | @unary _ _ arg => exact hargs arg (List.mem_singleton.mpr rfl)
  | binary => exact ⟨hargs _ (by simp), hargs _ (by simp)⟩
  | choice => exact hname.1 rfl
  | summation mem => exact hname.2 mem

theorem Level.references_of_mem {l : Level} {entry : String × (Node → Node → Node)}
    (mem : entry ∈ l.operators) (left right : Node) :
    (entry.2 left right).references = left.references ++ right.references ∧
      (left.Straight → right.Straight → (entry.2 left right).Straight) := by
  have hall : ∀ entry ∈ l.operators,
      (entry.2 left right).references = left.references ++ right.references ∧
        (left.Straight → right.Straight → (entry.2 left right).Straight) := by
    cases l <;> simp +contextual [Level.operators, Node.references, Node.Straight]
  exact hall entry mem

/-- The names that are found for a phrase are the references that it adds to those of what it contains
already. -/
def Phrase.Refers (found : List Mention) : Phrase → Prop
  | .formula _ node => node.references = variablesOf found ∧ (CallsStraight found → node.Straight)
  | .more _ left node => node.references = left.references ++ variablesOf found ∧
    (CallsStraight found → left.Straight → node.Straight)
  | .arguments args => args.flatMap Node.references = variablesOf found ∧
    (CallsStraight found → ∀ arg ∈ args, arg.Straight)

/-- A derivation finds the references of what it derives. -/
theorem Derives.mentions {inside : Bool} {phrase : Phrase} {text rest : List Char}
    (h : Derives inside phrase text rest) : ∃ found, phrase.Refers found ∧ Mentions text found rest := by
  induction h with
  | chain _ _ _ ih ih' =>
    obtain ⟨found, ⟨hfirst, sfirst⟩, mfirst⟩ := ih
    obtain ⟨more, ⟨hothers, sothers⟩, mothers⟩ := ih'
    refine ⟨_, ⟨?_, fun hs => ?_⟩, mfirst.trans mothers⟩
    · rw [hothers, hfirst, variablesOf_append]
    · obtain ⟨hs, hs'⟩ := callsStraight_append.mp hs
      exact sothers hs' (sfirst hs)
  | done => exact ⟨[], ⟨(List.append_nil _).symm, fun _ hs => hs⟩, mentions_nil _⟩
  | @operator inside level sign join left right node _ _ _ _ mem next _ _ ih ih' =>
    obtain ⟨found, ⟨hoperand, soperand⟩, moperand⟩ := ih
    obtain ⟨more, ⟨hothers, sothers⟩, mothers⟩ := ih'
    obtain ⟨hjoin, sjoin⟩ := Level.references_of_mem mem left right
    refine ⟨found ++ more, ⟨?_, fun hs hleft => ?_⟩, (mentions_sign next).trans (moperand.trans mothers)⟩
    · rw [hothers, hjoin, hoperand, variablesOf_append, List.append_assoc]
    · obtain ⟨hs, hs'⟩ := callsStraight_append.mp hs
      exact sothers hs' (sjoin hleft (soperand hs))
  | juxtaposed _ _ ih ih' =>
    obtain ⟨found, ⟨hoperand, soperand⟩, moperand⟩ := ih
    obtain ⟨more, ⟨hothers, sothers⟩, mothers⟩ := ih'
    refine ⟨_, ⟨?_, fun hs hleft => ?_⟩, moperand.trans mothers⟩
    · rw [hothers, Node.references, hoperand, variablesOf_append, List.append_assoc]
    · obtain ⟨hs, hs'⟩ := callsStraight_append.mp hs
      exact sothers hs' ⟨hleft, soperand hs⟩
  | negative next _ ih | positive next _ ih =>
    obtain ⟨found, hoperand, moperand⟩ := ih
    exact ⟨found, hoperand, (mentions_sign next).trans moperand⟩
  | unsigned _ ih | base _ ih => exact ih
  | raised _ next _ ih ih' =>
    obtain ⟨found, ⟨hbase, sbase⟩, mbase⟩ := ih
    obtain ⟨more, ⟨hpower, spower⟩, mpower⟩ := ih'
    refine ⟨_, ⟨?_, fun hs => ?_⟩, mbase.trans ((mentions_sign next).trans mpower)⟩
    · rw [Node.references, hbase, hpower, variablesOf_append, List.nil_append]
    · obtain ⟨hs, hs'⟩ := callsStraight_append.mp hs
      exact ⟨sbase hs, spower hs'⟩
  | group opening _ closing ih =>
    obtain ⟨found, hinner, minner⟩ := ih
    have hgroup := (mentions_sign opening).trans (minner.trans (mentions_sign closing))
    rw [List.append_nil] at hgroup
    exact ⟨found, hinner, hgroup⟩
  | numeral next => exact ⟨[], ⟨rfl, fun _ => trivial⟩, mentions_numeral next⟩
  | @name inside name node _ rest next stands =>
    obtain ⟨hreferences, hstraight⟩ := stands.references
    have hfound := mentions_name next.isName next.spelled
    rw [beq_false_of_ne next.notCalled] at hfound
    exact ⟨_, ⟨hreferences, fun _ => hstraight⟩, hfound⟩
  | emptyCall next closing calls =>
    refine ⟨_, ⟨?_, fun hs => ?_⟩, (mentions_call next).trans (mentions_sign closing)⟩
    · rw [calls.references]
      rfl
    · exact calls.straight (hs _ List.mem_cons_self rfl) nofun
  | call next _ calls ih =>
    obtain ⟨found, ⟨hargs, sargs⟩, margs⟩ := ih
    refine ⟨_, ⟨?_, fun hs => ?_⟩, (mentions_call next).trans margs⟩
    · rw [calls.references, hargs]
      rfl
    · obtain ⟨hcall, hs⟩ := callsStraight_append.mp hs
      exact calls.straight (hcall _ List.mem_cons_self rfl) (sargs hs)
  | lastArgument _ closing ih =>
    obtain ⟨found, ⟨harg, sarg⟩, marg⟩ := ih
    have hlast := marg.trans (mentions_sign closing)
    rw [List.append_nil] at hlast
    refine ⟨found, ⟨?_, fun hs => ?_⟩, hlast⟩
    · rw [List.flatMap_cons, List.flatMap_nil, List.append_nil, harg]
    · exact List.forall_mem_singleton.mpr (sarg hs)
  | argument _ comma _ ih ih' =>
    obtain ⟨found, ⟨harg, sarg⟩, marg⟩ := ih
    obtain ⟨more, ⟨hargs, sargs⟩, margs⟩ := ih'
    refine ⟨_, ⟨?_, fun hs => ?_⟩, marg.trans ((mentions_sign comma).trans margs)⟩
    · rw [List.flatMap_cons, harg, hargs, List.nil_append, variablesOf_append]
    · obtain ⟨hs, hs'⟩ := callsStraight_append.mp hs
      exact List.forall_mem_cons.mpr ⟨sarg hs, sargs hs'⟩

section Whole

variable {inside : Bool} {text : List Char} {node : Node} (h : Formula inside text node)
include h

theorem Formula.refers : (Phrase.formula .disjunction node).Refers (mentions text) := by
  obtain ⟨rest, hderives, hend⟩ := h
  obtain ⟨found, hrefers, hfound⟩ := hderives.mentions
  have hwhole : mentions text = found := by
    rw [hfound, mentions_of_blank hend, List.append_nil]
  rwa [hwhole]

/-- The references of a formula, from left to right, are the variables of its text. -/
theorem references_of_formula : node.references = occurrences text :=
  h.refers.1

/-- A formula whose text calls no choice and no summation has none. -/
theorem straight_of_formula (straight : CallsStraight (mentions text)) : node.Straight :=
  h.refers.2 straight

end Whole

example : occurrences "2e3e + x2y_1 if n sum(pi, aπ)*.5q".toList = ["x2y_1", "if", "n", "aπ", "q"] := by
  decide

end Grammar

end Formulae
