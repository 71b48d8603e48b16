import Formulae.Proofs.Console.Lexemes

/-!
# Proofs.Console.Marks — what the tokens of a formula show of its tree

* `Node.marks`: the numbers, references, named constants and calls of a tree, from left to right.
* `shown`: what the tokens of a text show of them, with nothing in the place of tokens that no formula has.
* `Shows text marks rest`: what is shown from the start of a text up to a rest of it.
* `Derives.shows`: a derivation shows the marks of the tree that is derived, one case for each rule;
  `shown_of_formula` is the whole text.
-/

namespace Formulae

open Text Number Grammar

/-- What a token can show of a tree. -/
inductive Mark where
  | number (value : Float)
  | reference (name : String)
  | constant (label : String)
  | call

namespace Node

/-- The call of a function, if the operator is one. -/
def callMark (function : Option String) : List Mark :=
  if function.isSome then [.call] else []

/-- The numbers, references, named constants and calls of a tree, from left to right. -/
def marks : Node → List Mark
  | .number value => [.number value]
  | .constant _ label => [.constant label]
  | .reference name _ => [.reference name]
  | .random => [.call]
  | .unary op arg => callMark op.functionName? ++ arg.marks
  | .binary op left right => callMark op.functionName? ++ (left.marks ++ right.marks)
  | .comparison _ left right | .logic _ left right => left.marks ++ right.marks
  | .choice a b c | .summation a b c => .call :: (a.marks ++ (b.marks ++ c.marks))
  | .finite inner => inner.marks

end Node

namespace Grammar

/-- A name calls a function whose node shows the call and then the arguments. -/
theorem Calls.marks {name : String} {args : List Node} {node : Node} (h : Calls name args node) :
    node.marks = .call :: args.flatMap Node.marks := by
  have hunary : ∀ entry ∈ unaryFunctions, entry.2.functionName?.isSome = true := by decide
  have hbinary : ∀ entry ∈ binaryFunctions, entry.2.functionName?.isSome = true := by decide
  cases h with
  | random => rfl
  | unary mem => simp [Node.marks, Node.callMark, hunary _ mem]
  | binary mem => simp [Node.marks, Node.callMark, hbinary _ mem]
  | choice => simp [Node.marks]
  | summation => simp [Node.marks]

/-- The operators of a chain show nothing but their operands. -/
theorem Level.marks_of_mem {l : Level} {entry : String × (Node → Node → Node)}
    (mem : entry ∈ l.operators) (left right : Node) :
    (entry.2 left right).marks = left.marks ++ right.marks := by
  have hall : ∀ entry ∈ l.operators, (entry.2 left right).marks = left.marks ++ right.marks := by
    cases l <;> simp [Level.operators, Node.marks, Node.callMark, BinaryOp.functionName?]
  exact hall entry mem

end Grammar

namespace Console

/-- What the first of some tokens shows; signs show nothing at all. -/
def Token.shows (t : Token) (following : List Token) : List (Option Mark) :=
  match t.kind with
  | .numeral => [(Numeral.value? t.text).map .number]
  | .name =>
    if opensAtOnce following then [some .call]
    else if constantNames.contains (String.ofList t.text) then
      [some (.constant (String.ofList t.text))]
    else [some (.reference (String.ofList t.text))]
  | .stray => [none]
  | .operator | .open | .close | .comma => []

/-- What tokens show, from left to right. -/
def shownBy : List Token → List (Option Mark)
  | [] => []
  | t :: following => t.shows following ++ shownBy following

/-- What the tokens of a text show. -/
def shown (text : List Char) : List (Option Mark) :=
  shownBy (tokensFrom 0 [] text).1

/-- From the start of the text up to the rest, the tokens show the marks. -/
def Shows (text : List Char) (marks : List Mark) (rest : List Char) : Prop :=
  Plain text → Plain rest ∧ shown text = marks.map some ++ shown rest

section Shows

variable {text mid rest : List Char}

theorem shows_nil (text : List Char) : Shows text [] text :=
  fun plain => ⟨plain, rfl⟩

theorem Shows.trans {marks more : List Mark} (h : Shows text marks mid) (h' : Shows mid more rest) :
    Shows text (marks ++ more) rest := by
  intro plain
  obtain ⟨hmid, hshown⟩ := h plain
  obtain ⟨hrest, hshown'⟩ := h' hmid
  exact ⟨hrest, by rw [hshown, hshown', List.map_append, List.append_assoc]⟩

/-- A text that starts with a lexeme shows what the token does. -/
theorem shows_of_leads {kind : TokenKind} {lexeme : List Char} {marks : List Mark}
    (h : afterBlanks text = lexeme ++ rest)
    (leads : Plain text → Leads kind lexeme rest)
    (token : ∀ gap, Token.shows ⟨kind, gap, lexeme⟩ (tokensFrom 0 [] rest).1 = marks.map some) :
    Shows text marks rest := by
  intro plain
  obtain ⟨hplain, gap, htokens⟩ := exists_tokens plain h (leads plain)
  exact ⟨hplain, by rw [shown, htokens, shownBy, token gap]; rfl⟩

theorem shows_sign {sign : String} (h : SignAt sign text rest) : Shows text [] rest := by
  obtain ⟨kind, mem, hleads⟩ := leads_sign h
  refine shows_of_leads h.spelled (fun _ => hleads) fun gap => ?_
  simp only [List.mem_cons, List.not_mem_nil, or_false] at mem
  rcases mem with rfl | rfl | rfl | rfl <;> rfl

theorem shows_numeral {value : Float} (h : NumeralAt value text rest) :
    Shows text [.number value] rest := by
  obtain ⟨spelling, hspelled, hnumeral, hvalue⟩ := h
  refine shows_of_leads hspelled (fun _ => leads_numeral hnumeral hvalue) fun gap => ?_
  simp [Token.shows, hvalue]

/-- Whether a name is called by the tokens behind it. -/
theorem opensAtOnce_tokens (rest : List Char) :
    opensAtOnce (tokensFrom 0 [] rest).1 = true ↔ rest.head? = some '(' :=
  (cuts_tokensFrom rest).opensAtOnce_iff

theorem plain_lexeme {lexeme : List Char} (plain : Plain text) (h : afterBlanks text = lexeme ++ rest) :
    Plain lexeme := by
  have hsub : ∀ c ∈ afterBlanks text, isForeign c = false := fun c hc =>
    plain c ((List.dropWhile_sublist isBlank).subset hc)
  rw [h] at hsub
  exact (Plain.of_append hsub).1

theorem shows_name {inside : Bool} {name : String} {node : Node} (h : NameAt name text rest)
    (stands : StandsFor inside name node) : Shows text node.marks rest := by
  have hopen : opensAtOnce (tokensFrom 0 [] rest).1 = false :=
    Bool.eq_false_iff.mpr fun hopen => h.notCalled ((opensAtOnce_tokens rest).mp hopen)
  refine shows_of_leads h.spelled (fun plain => leads_name h.isName (plain_lexeme plain h.spelled))
    fun gap => ?_
  have hnames : constantNames = namedValues.map Prod.fst := by decide
  cases stands with
  | constant mem =>
    have hconstant : name ∈ constantNames := hnames ▸ List.mem_map_of_mem mem
    simp [Token.shows, hopen, hconstant, Node.marks]
  | reference free =>
    have hconstant : name ∉ constantNames := by
      rw [hnames]
      rintro hmem
      obtain ⟨⟨_, value⟩, hvalue, rfl⟩ := List.mem_map.mp hmem
      exact free value hvalue
    simp [Token.shows, hopen, hconstant, Node.marks]

theorem shows_call {name : String} (h : CallAt name text rest) : Shows text [.call] rest := by
  have hname : Shows text [.call] ('(' :: rest) := by
    refine shows_of_leads h.spelled (fun plain => leads_name h.isName (plain_lexeme plain h.spelled))
      fun gap => ?_
    have hopen : opensAtOnce (tokensFrom 0 [] ('(' :: rest)).1 = true := (opensAtOnce_tokens _).mpr rfl
    simp [Token.shows, hopen]
  have hparen : Shows ('(' :: rest) [] rest := by
    have hleads : Leads .open ['('] rest := .mk (by decide) rfl
    exact shows_of_leads (afterBlanks_cons (by decide)) (fun _ => hleads) fun _ => rfl
  exact hname.trans hparen

end Shows

end Console

/-! ### Derivations -/

namespace Grammar

open Console

/-- The marks that a phrase adds to those of what it contains already. -/
def Phrase.Bears (marks : List Mark) : Phrase → Prop
  | .formula _ node => marks = node.marks
  | .more _ left node => node.marks = left.marks ++ marks
  | .arguments args => marks = args.flatMap Node.marks

/-- A derivation shows the marks of what it derives. -/
theorem Derives.shows {inside : Bool} {phrase : Phrase} {text rest : List Char}
    (h : Derives inside phrase text rest) : ∃ marks, phrase.Bears marks ∧ Shows text marks rest := by
  induction h with
  | chain _ _ _ ih ih' =>
    obtain ⟨_, rfl, hfirst⟩ := ih
    obtain ⟨more, hmore, hothers⟩ := ih'
    exact ⟨_, rfl, hmore ▸ hfirst.trans hothers⟩
  | done => exact ⟨[], (List.append_nil _).symm, shows_nil _⟩
  | operator mem next _ _ ih ih' =>
    obtain ⟨_, rfl, hoperand⟩ := ih
    obtain ⟨more, hmore, hothers⟩ := ih'
    refine ⟨_, ?_, (shows_sign next).trans (hoperand.trans hothers)⟩
    rw [Phrase.Bears, hmore, Level.marks_of_mem mem, List.append_assoc]
    rfl
  | juxtaposed _ _ ih ih' =>
    obtain ⟨_, rfl, hoperand⟩ := ih
    obtain ⟨more, hmore, hothers⟩ := ih'
    refine ⟨_, ?_, hoperand.trans hothers⟩
    rw [Phrase.Bears, hmore, ← List.append_assoc]
    rfl
  | negative next _ ih =>
    obtain ⟨_, rfl, hoperand⟩ := ih
    exact ⟨_, rfl, (shows_sign next).trans hoperand⟩
  | positive next _ ih =>
    obtain ⟨_, rfl, hoperand⟩ := ih
    exact ⟨_, rfl, (shows_sign next).trans hoperand⟩
  | unsigned _ ih | base _ ih => exact ih
  | raised _ next _ ih ih' =>
    obtain ⟨_, rfl, hbase⟩ := ih
    obtain ⟨_, rfl, hexponent⟩ := ih'
    exact ⟨_, rfl, hbase.trans ((shows_sign next).trans hexponent)⟩
  | group opening _ closing ih =>
    obtain ⟨_, rfl, hcontent⟩ := ih
    have hgroup := (shows_sign opening).trans (hcontent.trans (shows_sign closing))
    rw [List.append_nil] at hgroup
    exact ⟨_, rfl, hgroup⟩
  | numeral next => exact ⟨_, rfl, shows_numeral next⟩
  | name next stands => exact ⟨_, rfl, shows_name next stands⟩
  | emptyCall next closing calls =>
    exact ⟨_, rfl, calls.marks ▸ (shows_call next).trans (shows_sign closing)⟩
  | call next _ calls ih =>
    obtain ⟨_, rfl, hcontent⟩ := ih
    exact ⟨_, rfl, calls.marks ▸ (shows_call next).trans hcontent⟩
  | lastArgument _ closing ih =>
    obtain ⟨_, rfl, hcontent⟩ := ih
    refine ⟨_, ?_, hcontent.trans (shows_sign closing)⟩
    simp [Phrase.Bears]
  | argument _ comma _ ih ih' =>
    obtain ⟨_, rfl, hcontent⟩ := ih
    obtain ⟨_, rfl, hothers⟩ := ih'
    exact ⟨_, rfl, hcontent.trans ((shows_sign comma).trans hothers)⟩

/-- The tokens of a formula without foreign characters show just its tree. -/
theorem shown_of_formula {inside : Bool} {text : List Char} {node : Node} (h : Formula inside text node)
    (plain : Plain text) : shown text = node.marks.map some := by
  obtain ⟨rest, hderives, hend⟩ := h
  obtain ⟨_, rfl, hshows⟩ := hderives.shows
  obtain ⟨hplain, hshown⟩ := hshows plain
  rw [hshown, shown, tokens_of_blank hplain hend]
  exact List.append_nil _

end Grammar

end Formulae
