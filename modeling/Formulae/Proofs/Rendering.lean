import Formulae.Formula.Render
import Formulae.Proofs.Folding
import Formulae.Proofs.Number.Display

/-!
# Proofs.Rendering — what is rendered is read again

The plain text of a tree that was read is read as the same tree.

* `Rendered inside phrase`: the plain text of the phrase can be derived as that phrase, whatever closes
  it. It passes through every rule of the grammar (`Derives.rendered`), although a sign of plus is dropped,
  a product is written with its operator and a name of a function may become another one.
* `readNode_render`: with folding and without, under any limits.
-/

namespace Formulae

open Text Number

namespace Grammar

/-- The plain text of a tree. -/
def plain (node : Node) : List Char :=
  (node.render false).toList

/-- The plain texts of the arguments of a call, up to the parenthesis. -/
def plainArguments (args : List Node) : List Char :=
  [',', ' '].intercalate (args.map plain)

/-- Nothing, or a blank, a parenthesis or a comma first. -/
def Closed (rest : List Char) : Prop :=
  ∀ c ∈ rest.head?, c = ' ' ∨ c = ')' ∨ c = ','

theorem closed_cons {c : Char} {rest : List Char} (h : c = ' ' ∨ c = ')' ∨ c = ',') :
    Closed (c :: rest) := by
  intro x hx
  rwa [← Option.some.inj hx]

theorem Closed.notNext {rest : List Char} {p : Char → Bool} (h : Closed rest)
    (hp : p ' ' = false ∧ p ')' = false ∧ p ',' = false) : NotNext p rest := by
  obtain ⟨blank, paren, comma⟩ := hp
  intro c hc
  rcases h c hc with rfl | rfl | rfl
  · exact blank
  · exact paren
  · exact comma

/-! ### Tokens of a rendered text -/

section Tokens

variable {rest : List Char}

theorem afterBlanks_sign {sign : String} (mem : sign ∈ signs) :
    afterBlanks (sign.toList ++ rest) = sign.toList ++ rest := by
  have hall : ∀ sign ∈ signs, sign.toList.head?.any (fun c => !isBlank c) = true := by decide
  obtain ⟨c, hc, hblank⟩ := (Option.any_eq_true _ _).mp (hall sign mem)
  obtain ⟨cs, hcs⟩ := List.head?_eq_some_iff.mp hc
  rw [hcs]
  exact afterBlanks_cons (by simpa using hblank)

/-- A sign that begins no longer one is next wherever it is written. -/
theorem signAt_append {sign : String} (h : isUnextended sign = true) (rest : List Char) :
    SignAt sign (sign.toList ++ rest) rest := by
  have mem : sign ∈ signs := by
    simp only [isUnextended, Bool.and_eq_true, decide_eq_true_eq] at h
    exact h.1
  have hprefix : sign.toList <+: afterBlanks (sign.toList ++ rest) := by
    rw [afterBlanks_sign mem]
    exact List.prefix_append _ _
  have hnext := signAt_of_unextended h hprefix
  rwa [afterBlanks_sign mem, List.drop_left] at hnext

/-- Between blanks every sign is next. -/
theorem signAt_between {sign : String} (mem : sign ∈ signs) (rest : List Char) :
    SignAt sign (' ' :: (sign.toList ++ ' ' :: rest)) (' ' :: rest) := by
  have hspelled : afterBlanks (' ' :: (sign.toList ++ ' ' :: rest)) = sign.toList ++ ' ' :: rest := by
    rw [afterBlanks_space, afterBlanks_sign mem]
  refine ⟨mem, hspelled, fun other ho hp => ?_⟩
  rw [hspelled] at hp
  by_contra hlt
  -- a longer sign would have a blank in it
  have hblank : sign.toList ++ [' '] <+: other.toList := by
    have hsign : sign.toList ++ [' '] <+: sign.toList ++ ' ' :: rest := ⟨rest, by simp⟩
    refine List.prefix_of_prefix_length_le hsign hp ?_
    rw [List.length_append, List.length_singleton]
    omega
  have hall : ∀ sign ∈ signs, ' ' ∉ sign.toList := by decide
  exact hall other ho (hblank.subset (by simp))

theorem isBlank_of_isMantissaChar {c : Char} (h : Numeral.isMantissaChar c = true) :
    isBlank c = false := by
  rcases (Bool.or_eq_true _ _).mp h with hd | hp
  · have hall : ∀ n < 58, 48 ≤ n → isBlank (Char.ofNat n) = false := by decide
    obtain ⟨h0, h9⟩ := Char.isDigit_iff_toNat.mp hd
    rw [← Char.ofNat_toNat c]
    exact hall c.toNat (Nat.lt_succ_of_le h9) h0
  · rw [beq_iff_eq.mp hp]
    decide

theorem isNumeral_display {x : Float} (h : ReadsBack x) (closed : Closed rest) :
    IsNumeral (display x).toList rest := by
  refine .whole h.nonempty h.mantissa (closed.notNext (by decide)) ?_
  intro e he hp
  cases he with
  | mk letter =>
    obtain ⟨more, rfl⟩ := hp
    rcases letter with rfl | rfl <;> rcases closed _ rfl with h | h | h <;> cases h

theorem numeralAt_display {x : Float} (h : ReadsBack x) (closed : Closed rest) :
    NumeralAt x ((display x).toList ++ rest) rest := by
  refine ⟨_, ?_, isNumeral_display h closed, h.value⟩
  obtain ⟨c, cs, hcs⟩ := List.exists_cons_of_ne_nil h.nonempty
  rw [hcs]
  exact afterBlanks_cons (isBlank_of_isMantissaChar (h.mantissa c (by simp [hcs])))

/-- A name that was next is next again in front of what closes it. -/
theorem NameAt.rendered {name : String} {text after : List Char} (h : NameAt name text after)
    (closed : Closed rest) : NameAt name (name.toList ++ rest) rest := by
  obtain ⟨c, cs, hcs, hstart⟩ := h.isName.starts
  have hblank : isBlank c = false := by
    have hnext := notNext_dropWhile (p := isBlank) text
    rw [show text.dropWhile isBlank = name.toList ++ after from h.spelled, hcs] at hnext
    exact notNext_cons.mp hnext
  refine ⟨⟨⟨c, cs, hcs, hstart⟩, h.isName.continues, closed.notNext (by decide)⟩, ?_, ?_⟩
  · rw [hcs]
    exact afterBlanks_cons hblank
  · intro hp
    rcases closed _ hp with h | h | h <;> cases h

/-- The names that are written in front of the arguments of calls. -/
def writtenNames : List String :=
  ["rand", "sqrt", "sin", "cos", "tan", "log", "ln", "floor", "ceil", "round", "abs", "if", "sum"]

theorem callAt_written {name : String} (mem : name ∈ writtenNames) (rest : List Char) :
    CallAt name (name.toList ++ '(' :: rest) rest := by
  have hall : ∀ name ∈ writtenNames, (name.toList.head?.any fun c => startsName c && !isBlank c) ∧
      name.toList.all continuesName := by decide
  obtain ⟨hstart, hcontinues⟩ := hall name mem
  obtain ⟨c, hc, hc'⟩ := (Option.any_eq_true _ _).mp hstart
  obtain ⟨cs, hcs⟩ := List.head?_eq_some_iff.mp hc
  obtain ⟨hname, hblank⟩ := (Bool.and_eq_true _ _).mp hc'
  refine ⟨⟨⟨c, cs, hcs, hname⟩, List.all_eq_true.mp hcontinues, notNext_cons.mpr (by decide)⟩, ?_⟩
  rw [hcs]
  exact afterBlanks_cons (by simpa using hblank)

end Tokens

/-! ### Texts of nodes -/

theorem plain_between {node left right : Node} {sign : String}
    (h : node.render false = Node.infixText (left.render false) sign (right.render false)) :
    plain node = plain left ++ ' ' :: (sign.toList ++ ' ' :: plain right) := by
  unfold plain
  rw [h, Node.infixText]
  simp

theorem plain_call {node : Node} {name : String} (args : List Node)
    (h : node.render false = Node.callText name (args.map (Node.render false))) :
    plain node = name.toList ++ '(' :: (plainArguments args ++ [')']) := by
  have hargs : args.map plain = (args.map (Node.render false)).map String.toList := by
    rw [List.map_map]
    rfl
  unfold plainArguments
  rw [hargs, plain, h, Node.callText]
  simp

/-- How an operator is written that may have two spellings. -/
def writtenSign : String → String
  | "|" => "||"
  | "&" => "&&"
  | sign => sign

/-- Every operator of a chain is written as one of its spellings. -/
theorem writtenSign_of_mem {l : Level} {sign : String} {join : Node → Node → Node}
    (mem : (sign, join) ∈ l.operators) :
    (writtenSign sign, join) ∈ l.operators ∧ writtenSign sign ∈ signs ∧ ∀ left right,
      plain (join left right) =
        plain left ++ ' ' :: ((writtenSign sign).toList ++ ' ' :: plain right) := by
  have hall : ∀ entry ∈ l.operators, (writtenSign entry.1, entry.2) ∈ l.operators ∧
      ∀ left right, (entry.2 left right).render false =
        Node.infixText (left.render false) (writtenSign entry.1) (right.render false) := by
    cases l <;> simp [Level.operators, writtenSign, Node.render, Node.binaryText, BinaryOp.sign?,
      ComparisonOp.sign, LogicOp.sign]
  have hsigns : ∀ entry ∈ l.operators, entry.1 ∈ signs := by
    have hall : ∀ sign ∈ l.operators.map Prod.fst, sign ∈ signs := by cases l <;> decide
    exact fun entry he => hall _ (List.mem_map_of_mem he)
  obtain ⟨hmem, h⟩ := hall _ mem
  exact ⟨hmem, hsigns _ hmem, fun left right => plain_between (h left right)⟩

theorem unaryText_function {op : UnaryOp} {name : String} (h : op.functionName? = some name)
    {arg : String} : Node.unaryText op arg = Node.callText name [arg] := by
  cases op <;> simp_all [UnaryOp.functionName?, Node.unaryText]

/-- How a name is written that calls a function. -/
def writtenName : String → String
  | "random" => "rand"
  | "log10" => "log"
  | "ceiling" => "ceil"
  | "absolute" => "abs"
  | "summation" => "sum"
  | name => name

/-- Every call is written with a name that calls the same. -/
theorem writtenName_of_calls {name : String} {args : List Node} {node : Node}
    (h : Calls name args node) :
    writtenName name ∈ writtenNames ∧ Calls (writtenName name) args node ∧
      (writtenName name ∈ summationNames ↔ name ∈ summationNames) ∧
      plain node = (writtenName name).toList ++ '(' :: (plainArguments args ++ [')']) := by
  cases h with
  | random mem =>
    have hall : ∀ name ∈ randomNames, writtenName name = "rand" ∧
        (writtenName name ∈ summationNames ↔ name ∈ summationNames) := by decide
    obtain ⟨hname, hsum⟩ := hall name mem
    rw [hname] at hsum ⊢
    exact ⟨by decide, .random (by decide), hsum, plain_call [] rfl⟩
  | @unary _ op arg mem =>
    have hall : ∀ entry ∈ unaryFunctions, (writtenName entry.1, entry.2) ∈ unaryFunctions ∧
        writtenName entry.1 ∈ writtenNames ∧ entry.2.functionName? = some (writtenName entry.1) ∧
        (writtenName entry.1 ∈ summationNames ↔ entry.1 ∈ summationNames) := by decide
    obtain ⟨hmem, hname, hop, hsum⟩ := hall _ mem
    exact ⟨hname, .unary hmem, hsum, plain_call [arg] (unaryText_function hop)⟩
  | @binary _ op left right mem =>
    have hall : ∀ entry ∈ binaryFunctions, (writtenName entry.1, entry.2) ∈ binaryFunctions ∧
        writtenName entry.1 ∈ writtenNames ∧ entry.2.functionName? = some (writtenName entry.1) ∧
        entry.2.sign? = none ∧
        (writtenName entry.1 ∈ summationNames ↔ entry.1 ∈ summationNames) := by decide
    obtain ⟨hmem, hname, hop, hsign, hsum⟩ := hall _ mem
    refine ⟨hname, .binary hmem, hsum, plain_call [left, right] ?_⟩
    simp only at hop hsign
    simp [Node.render, Node.binaryText, hop, hsign]
  | @choice test yes no =>
    exact ⟨by decide, .choice, Iff.rfl, plain_call [test, yes, no] rfl⟩
  | @summation _ lower upper body mem =>
    have hall : ∀ name ∈ summationNames, writtenName name = "sum" ∧
        (writtenName name ∈ summationNames ↔ name ∈ summationNames) := by decide
    obtain ⟨hname, hsum⟩ := hall name mem
    rw [hname] at hsum ⊢
    exact ⟨by decide, .summation (by decide), hsum, plain_call [lower, upper, body] rfl⟩

/-! ### Every rule of the grammar passes to rendered texts -/

/-- The plain text of a phrase can be derived as that phrase, whatever closes it. -/
def Rendered (inside : Bool) : Phrase → Prop
  | .formula l node => ∀ tail, Closed tail →
    Derives inside (.formula l node) (plain node ++ tail) tail
  | .more l left node => ∃ more, plain node = plain left ++ more ∧ ∀ tail, Closed tail →
    Closed (more ++ tail) ∧ Derives inside (.more l left node) (more ++ tail) tail
  | .arguments args => args ≠ [] ∧ ∀ tail,
    Derives inside (.arguments args) (plainArguments args ++ ')' :: tail) tail

section Rules

variable {inside : Bool} {l : Level} {sign : String} {join : Node → Node → Node}
  {left right node : Node} {tail : List Char}

/-- A formula behind a blank. -/
theorem Derives.of_blank {text : List Char} (h : Derives inside (.formula l node) text tail) :
    Derives inside (.formula l node) (' ' :: text) tail :=
  h.congr rfl (afterBlanks_space text)

theorem isChain_of_mem (mem : (sign, join) ∈ l.operators) : l.isChain = true := by
  cases l with
  | signed | power | primary => cases mem
  | _ => rfl

/-- A chain goes on with an operator between blanks. -/
theorem rendered_operator (mem : (sign, join) ∈ l.operators)
    (operand : Rendered inside (.formula l.tighter right))
    (others : Rendered inside (.more l (join left right) node)) :
    Rendered inside (.more l left node) := by
  obtain ⟨hmem, hsign, hplain⟩ := writtenSign_of_mem mem
  obtain ⟨more, hmore, hothers⟩ := others
  refine ⟨' ' :: ((writtenSign sign).toList ++ ' ' :: (plain right ++ more)), ?_,
    fun tail closed => ⟨closed_cons (.inl rfl), ?_⟩⟩
  · rw [hmore, hplain]
    simp
  · obtain ⟨hclosed, hderives⟩ := hothers tail closed
    have hright := (operand _ hclosed).of_blank
    have hnext := signAt_between hsign (plain right ++ (more ++ tail))
    simpa using Derives.operator hmem hnext hright hderives

/-- A chain is its first operand and what follows it. -/
theorem rendered_chain (isChain : l.isChain = true)
    (first : Rendered inside (.formula l.tighter left))
    (others : Rendered inside (.more l left node)) : Rendered inside (.formula l node) := by
  intro tail closed
  obtain ⟨more, hmore, hothers⟩ := others
  obtain ⟨hclosed, hderives⟩ := hothers tail closed
  have hfirst := first _ hclosed
  rw [hmore, List.append_assoc]
  exact .chain isChain hfirst hderives

theorem rendered_done : Rendered inside (.more l node node) :=
  ⟨[], (List.append_nil _).symm, fun _ closed => ⟨closed, .done⟩⟩

theorem rendered_unsigned (operand : Rendered inside (.formula .power node)) :
    Rendered inside (.formula .signed node) :=
  fun tail closed => .unsigned (operand tail closed)

theorem rendered_base (operand : Rendered inside (.formula .primary node)) :
    Rendered inside (.formula .power node) :=
  fun tail closed => .base (operand tail closed)

/-- What stands at a tighter level stands at every looser one. -/
theorem rendered_of_tighter (k : Nat) (h : Rendered inside (.formula (Level.tighter^[k] l) node)) :
    Rendered inside (.formula l node) := by
  induction k generalizing l with
  | zero => exact h
  | succ k ih =>
    have next : Rendered inside (.formula l.tighter node) := ih h
    cases l with
    | signed => exact rendered_unsigned next
    | power => exact rendered_base next
    | primary => exact next
    | _ => exact rendered_chain rfl next rendered_done

theorem rendered_of_primary (h : Rendered inside (.formula .primary node)) (l : Level) :
    Rendered inside (.formula l node) := by
  have tightest : Level.tighter^[7] l = .primary := by cases l <;> rfl
  exact rendered_of_tighter 7 (tightest ▸ h)

/-- What stands behind a sign stands wherever a chain has an operand. -/
theorem rendered_of_signed (h : Rendered inside (.formula .signed node)) {l : Level}
    (hl : l ≠ .power ∧ l ≠ .primary) : Rendered inside (.formula l node) := by
  cases l with
  | disjunction => exact rendered_of_tighter 5 h
  | conjunction => exact rendered_of_tighter 4 h
  | comparison => exact rendered_of_tighter 3 h
  | sum => exact rendered_of_tighter 2 h
  | term => exact rendered_of_tighter 1 h
  | signed => exact h
  | power => exact absurd rfl hl.1
  | primary => exact absurd rfl hl.2

/-- Every level is a tighter one of the loosest. -/
theorem Level.exists_tighter (l : Level) : ∃ k, Level.tighter^[k] .disjunction = l := by
  cases l with
  | disjunction => exact ⟨0, rfl⟩
  | conjunction => exact ⟨1, rfl⟩
  | comparison => exact ⟨2, rfl⟩
  | sum => exact ⟨3, rfl⟩
  | term => exact ⟨4, rfl⟩
  | signed => exact ⟨5, rfl⟩
  | power => exact ⟨6, rfl⟩
  | primary => exact ⟨7, rfl⟩

/-- What stands at any level is a whole formula. -/
theorem rendered_whole (h : Rendered inside (.formula l node)) :
    Rendered inside (.formula .disjunction node) := by
  obtain ⟨k, rfl⟩ := l.exists_tighter
  exact rendered_of_tighter k h

theorem rendered_number {x : Float} (h : ReadsBack x) :
    Rendered inside (.formula .primary (.number x)) :=
  fun _ closed => .numeral (numeralAt_display h closed)

theorem rendered_name {name : String} {text after : List Char} (next : NameAt name text after)
    (stands : StandsFor inside name node) : Rendered inside (.formula .primary node) := by
  intro tail closed
  have hplain : plain node = name.toList := by cases stands <;> rfl
  rw [hplain]
  exact .name (next.rendered closed) stands

theorem rendered_negative (operand : Rendered inside (.formula .signed node)) :
    Rendered inside (.formula .signed (.unary .neg node)) := by
  intro tail closed
  have hplain : plain (.unary .neg node) = '-' :: plain node := by
    simp [plain, Node.render, Node.unaryText]
  rw [hplain]
  exact .negative (signAt_append (by decide) (plain node ++ tail)) (operand tail closed)

theorem rendered_raised (base : Rendered inside (.formula .primary left))
    (exponent : Rendered inside (.formula .signed right)) :
    Rendered inside (.formula .power (.binary .pow left right)) := by
  intro tail closed
  have hplain : plain (.binary .pow left right) =
      plain left ++ ' ' :: ("^".toList ++ ' ' :: plain right) := plain_between rfl
  have hbase := base (' ' :: ("^".toList ++ ' ' :: (plain right ++ tail))) (closed_cons (.inl rfl))
  rw [hplain]
  simpa using Derives.raised hbase (signAt_between (by decide) (plain right ++ tail))
    (exponent tail closed).of_blank

theorem rendered_group (inner : Rendered inside (.formula .disjunction node)) :
    Rendered inside (.formula .primary (.unary .paren node)) := by
  intro tail closed
  have hplain : plain (.unary .paren node) = '(' :: (plain node ++ [')']) := by
    simp [plain, Node.render, Node.unaryText]
  have hinner := inner (')' :: tail) (closed_cons (.inr (.inl rfl)))
  rw [hplain]
  simpa using Derives.group (signAt_append (by decide) (plain node ++ ')' :: tail)) hinner
    (signAt_append (by decide) tail)

/-! ### Calls -/

section Calls

variable {name : String} {arg : Node} {args : List Node}

theorem rendered_emptyCall (calls : Calls name [] node) :
    Rendered inside (.formula .primary node) := by
  intro tail closed
  obtain ⟨hmem, hcalls, -, hplain⟩ := writtenName_of_calls calls
  have hnext := callAt_written hmem (')' :: tail)
  rw [hplain]
  simpa [plainArguments] using Derives.emptyCall hnext (signAt_append (by decide) tail) hcalls

/-- The written name calls a summation if the name does, so the arguments stand inside one as before. -/
theorem rendered_call (calls : Calls name args node)
    (content : Rendered (inside || decide (name ∈ summationNames)) (.arguments args)) :
    Rendered inside (.formula .primary node) := by
  intro tail closed
  obtain ⟨hmem, hcalls, hsum, hplain⟩ := writtenName_of_calls calls
  obtain ⟨-, hargs⟩ := content
  have hcontent := hargs tail
  rw [← decide_eq_decide.mpr hsum] at hcontent
  have hnext := callAt_written hmem (plainArguments args ++ ')' :: tail)
  rw [hplain]
  simpa using Derives.call hnext hcontent hcalls

theorem plainArguments_singleton (arg : Node) : plainArguments [arg] = plain arg := by
  simp [plainArguments]

theorem plainArguments_cons (h : args ≠ []) :
    plainArguments (arg :: args) = plain arg ++ ',' :: ' ' :: plainArguments args := by
  obtain ⟨second, others, rfl⟩ := List.exists_cons_of_ne_nil h
  rfl

theorem rendered_lastArgument (last : Rendered inside (.formula .disjunction arg)) :
    Rendered inside (.arguments [arg]) := by
  refine ⟨by simp, fun tail => ?_⟩
  have harg := last (')' :: tail) (closed_cons (.inr (.inl rfl)))
  rw [plainArguments_singleton]
  exact .lastArgument harg (signAt_append (by decide) tail)

theorem rendered_argument (first : Rendered inside (.formula .disjunction arg))
    (others : Rendered inside (.arguments args)) : Rendered inside (.arguments (arg :: args)) := by
  obtain ⟨hne, hothers⟩ := others
  refine ⟨by simp, fun tail => ?_⟩
  have harg := first (',' :: ' ' :: (plainArguments args ++ ')' :: tail))
    (closed_cons (.inr (.inr rfl)))
  have hrest : Derives inside (.arguments args) (' ' :: (plainArguments args ++ ')' :: tail)) tail :=
    (hothers tail).congr rfl (afterBlanks_space _)
  rw [plainArguments_cons hne]
  simpa using Derives.argument harg (signAt_append (by decide) _) hrest

end Calls

end Rules

/-- Every rule passes to the plain texts; the induction is on the derivation. -/
theorem Derives.rendered {inside : Bool} {phrase : Phrase} {text rest : List Char}
    (h : Derives inside phrase text rest) : Rendered inside phrase := by
  induction h with
  | chain isChain _ _ ih ih' => exact rendered_chain isChain ih ih'
  | done => exact rendered_done
  | operator mem _ _ _ ih ih' => exact rendered_operator mem ih ih'
  | juxtaposed _ _ ih ih' =>
    -- the operand of the written operator may carry a sign, this one does not
    have hright : Rendered _ (.formula Level.term.tighter _) := rendered_unsigned ih
    have hmem : ("*", Node.binary .mul) ∈ Level.term.operators := by simp [Level.operators]
    exact rendered_operator hmem hright ih'
  | negative _ _ ih => exact rendered_negative ih
  | positive _ _ ih => exact ih
  | unsigned _ ih => exact rendered_unsigned ih
  | base _ ih => exact rendered_base ih
  | raised _ _ _ ih ih' => exact rendered_raised ih ih'
  | group _ _ _ ih => exact rendered_group ih
  | numeral next =>
    obtain ⟨spelling, -, -, hvalue⟩ := next
    exact rendered_number (Numeral.readsBack_value? hvalue)
  | name next stands => exact rendered_name next stands
  | emptyCall _ _ calls => exact rendered_emptyCall calls
  | call _ _ calls ih => exact rendered_call calls ih
  | lastArgument _ _ ih => exact rendered_lastArgument ih
  | argument _ _ _ ih ih' => exact rendered_argument ih ih'

theorem Rendered.formula {inside : Bool} {node : Node}
    (h : Rendered inside (.formula .disjunction node)) : Formula inside (plain node) node := by
  have hplain := h [] (by simp [Closed])
  rw [List.append_nil] at hplain
  exact ⟨[], hplain, rfl⟩

/-- The plain text of a tree of the grammar is derived as that tree. -/
theorem Formula.rendered {inside : Bool} {text : List Char} {node : Node}
    (h : Formula inside text node) : Formula inside (plain node) node := by
  obtain ⟨rest, hderives, -⟩ := h
  exact Rendered.formula hderives.rendered

end Grammar

section Reading

variable {σ : Type}

/-- The plain text of a tree that was read is read as the same tree, in whatever world. -/
theorem readNode_render {host : Host σ} (quiet : host.Quiet) {options : ReadingOptions}
    {steps : Nat} {source : String} {world after : σ} {tree : Node}
    (h : readNode host options steps source world = some (.ok tree, after)) (world' : σ) :
    readNode host options steps (tree.render false) world' = some (.ok tree, world') := by
  obtain ⟨node, node', rfl, hformula, hn, hrender, -⟩ := settled_of_readNode quiet h
  have hplain : (Node.render false (.finite node')).toList = Grammar.plain node :=
    congrArg String.toList ((render_finite node').trans hrender)
  refine readNode_of_formula quiet (Reading.settles_settling quiet options steps) ?_ hn world'
  rw [hplain]
  exact hformula.rendered

/-- The plain text of an expression that was read is read as an expression of the same tree, which has the
same plain text and comes to the same by itself and under bindings. -/
theorem Expression.read_render {host : Host σ} (quiet : host.Quiet) {options : ReadingOptions}
    {steps : Nat} {source : String} {world after : σ} {e : Expression}
    (h : Expression.read host options steps source world = some (.ok e, after)) (world' : σ) :
    ∃ e', Expression.read host options steps (e.render false) world' = some (.ok e', world') ∧
      e'.root = e.root ∧ e'.limits = e.limits ∧ e'.render false = e.render false ∧
      ∀ {τ : Type} (host' : Host τ) (bindings : Bindings τ) (source' : Source τ) (steps' : Nat),
        e'.evaluate host' source' steps' = e.evaluate host' source' steps' ∧
        (Equation.mk e' bindings).evaluate host' steps' =
          (Equation.mk e bindings).evaluate host' steps' := by
  obtain ⟨hroot, he⟩ := Expression.read_eq_some h
  have hagain := readNode_render quiet hroot world'
  refine ⟨_, Expression.read_of_readNode hagain, rfl, ?_, rfl, fun host' bindings source' steps' => ?_⟩
  · rw [he]
  · constructor
    · rw [he]
      rfl
    · rw [he]
      rfl

/-- A product that is written without its operator, another name of a function and a folded constant. -/
theorem Expression.read_render_ceiling :
    ∃ e e' : Expression,
      Expression.read (Deadline.host ⟨1000, none⟩) ⟨false, true, {}⟩ 2 "2ceiling(x)--e"
        (World.start 0) = some (.ok e, World.start 0) ∧
      Expression.read (Deadline.host ⟨1000, none⟩) ⟨false, true, {}⟩ 2 "2 * ceil(x) - -e"
        (World.start 0) = some (.ok e', World.start 0) ∧ e'.root = e.root := by
  have hroot : readNode (Deadline.host ⟨1000, none⟩) ⟨false, true, {}⟩ 2 "2ceiling(x)--e"
      (World.start 0) = some (.ok (.finite (.binary .sub
        (.binary .mul (.number 2) (.unary .ceil (.reference "x" false)))
        (.constant (-2.718281828459045) "-e"))), World.start 0) := by
    decide +kernel
  have hread := Expression.read_of_readNode hroot
  obtain ⟨e', hread', hroot', -⟩ :=
    Expression.read_render (Deadline.quiet_host 1000 (by decide)) hread (World.start 0)
  exact ⟨_, e', hread, by exact hread', hroot'⟩

end Reading

end Formulae
