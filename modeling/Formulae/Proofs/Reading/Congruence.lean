import Formulae.Proofs.Reading.Levels

/-!
# Proofs.Reading.Congruence — relations that readings of parts carry over to the whole text

Two readings of one text go through the same moves and decide by the same characters, whatever their hosts
do in between and whatever they make of the nodes they build. So a relation between readings under two
hosts that is kept by sequencing and by single moves (`Carries`), and by the building of nodes
(`Relates`), relates the readings of every level and of the whole text.

* `Chains.level`: from primaries and signs to the levels of the grammar, for relations that only ask how
  readings are put together (`Sequences`).
* `Carries.skipBlanks`, `Carries.eat`: from single moves to literals.
* `Relates.primary`: from literals to primaries, with one lemma for each definition on the way.
* `nested_related`, `whole_related`: the knot, and the whole text.
* `whole_related_of_finish`: the case in which both readings yield the same trees.
-/

namespace Formulae.Reading

open Text Number Grammar

variable {σ τ : Type}

/-- The relation is kept by putting readings together; its first argument relates the values that they
yield. -/
structure Sequences (R : ∀ {α β : Type}, (α → β → Prop) → Reading σ α → Reading τ β → Prop) : Prop where
  pure : ∀ {α β : Type} {rel : α → β → Prop} {a : α} {b : β}, rel a b → R rel (pure a) (pure b)
  bind : ∀ {α β γ δ : Type} {rel : α → β → Prop} {rel' : γ → δ → Prop} {x : Reading σ α}
    {y : Reading τ β} {f : α → Reading σ γ} {g : β → Reading τ δ},
    R rel x y → (∀ a b, rel a b → R rel' (f a) (g b)) → R rel' (x >>= f) (y >>= g)
  exhausted : ∀ {α β : Type} (rel : α → β → Prop), R rel Run.exhausted Run.exhausted
  cursor : R Eq cursor cursor

namespace Sequences

variable {R : ∀ {α β : Type}, (α → β → Prop) → Reading σ α → Reading τ β → Prop}
  (h : Sequences R) {α β : Type} {rel : α → β → Prop}
include h

/-- The rule for readings that start with the same value. -/
theorem bind_same {γ : Type} {x : Reading σ γ} {y : Reading τ γ} {f : γ → Reading σ α}
    {g : γ → Reading τ β} (hx : R Eq x y) (hf : ∀ a, R rel (f a) (g a)) :
    R rel (x >>= f) (y >>= g) :=
  h.bind hx fun a _ hab => hab ▸ hf a

theorem map {γ δ : Type} {rel' : γ → δ → Prop} {x : Reading σ α} {y : Reading τ β} {f : α → γ}
    {g : β → δ} (hx : R rel x y) (hf : ∀ a b, rel a b → rel' (f a) (g b)) :
    R rel' (f <$> x) (g <$> y) := by
  rw [map_eq_pure_bind, map_eq_pure_bind]
  exact h.bind hx fun a b hab => h.pure (hf a b hab)

end Sequences

/-- A loop of `n` rounds is related to one of `m`: there are as many, or there are fewer of them and a loop
that has none left is related to every reading. -/
def Lasts (R : ∀ {α β : Type}, (α → β → Prop) → Reading σ α → Reading τ β → Prop) (n m : Nat) : Prop :=
  n = m ∨ n ≤ m ∧ ∀ {α β : Type} (rel : α → β → Prop) (y : Reading τ β), R rel Run.exhausted y

theorem Lasts.of_succ {R : ∀ {α β : Type}, (α → β → Prop) → Reading σ α → Reading τ β → Prop}
    {n m : Nat} (h : Lasts R (n + 1) m) : ∃ k, m = k + 1 ∧ Lasts R n k := by
  rcases h with rfl | ⟨hle, hout⟩
  · exact ⟨n, rfl, .inl rfl⟩
  · exact ⟨m - 1, by omega, .inr ⟨by omega, hout⟩⟩

/-! ### From primaries to levels -/

/-- The signs that join operands or stand in front of one. -/
def joiners : List String :=
  ["||", "|", "&&", "&", "<=", "<>", "<", ">=", ">", "==", "=", "!=", "+", "-", "*", "/", "%", "^"]

theorem mem_joiners {l : Level} {sign : String} {join : Node → Node → Node}
    (mem : (sign, join) ∈ l.operators) : sign ∈ joiners := by
  have hall : ∀ entry ∈ l.operators, entry.1 ∈ joiners := by
    cases l <;> simp [Level.operators, joiners]
  exact hall _ mem

/-- The relation is kept by primaries, by what is nested, by the signs between them and by the nodes that
are built from them; `S` relates the subtrees that the readings yield. -/
structure Chains (S : Parsed → Parsed → Prop) (g : Setting σ) (g' : Setting τ)
    (R : ∀ {α β : Type}, (α → β → Prop) → Reading σ α → Reading τ β → Prop) : Prop
    extends Sequences R where
  rounds : Lasts R g.rounds g'.rounds
  sees : ∀ sign ∈ joiners, R Eq (sees g sign) (sees g' sign)
  descend : ∀ entry inside, R S (g.descend entry inside) (g'.descend entry inside)
  primary : ∀ inside, R S (primary g inside) (primary g' inside)
  neg : ∀ {p q}, S p q →
    R S (finish g (.unary .neg p.node) p.constant) (finish g' (.unary .neg q.node) q.constant)
  joined : ∀ {join p q p' q'}, Joins join → S p q → S p' q' →
    R S (finishJoined g join p p') (finishJoined g' join q q')

namespace Chains

variable {S : Parsed → Parsed → Prop} {g : Setting σ} {g' : Setting τ}
  {R : ∀ {α β : Type}, (α → β → Prop) → Reading σ α → Reading τ β → Prop} (h : Chains S g g' R)
include h

theorem power (inside : Bool) : R S (power g inside) (power g' inside) := by
  refine h.bind (h.primary inside) fun p q hpq => h.bind_same (h.sees "^" (by decide)) ?_
  intro raised
  cases raised with
  | true => exact h.bind (h.descend .signed inside) fun p' q' hpq' =>
      h.joined (Joins.binary .pow) hpq hpq'
  | false => exact h.pure hpq

theorem signed (inside : Bool) : R S (signed g inside) (signed g' inside) := by
  refine h.bind_same (h.sees "-" (by decide)) ?_
  intro negative
  cases negative with
  | true => exact h.bind (h.descend .signed inside) fun p q hpq => h.neg hpq
  | false =>
    refine h.bind_same (h.sees "+" (by decide)) ?_
    intro positive
    cases positive with
    | true => exact h.descend .signed inside
    | false => exact h.power inside

/-- What is taken from a table of operators joins two operands. -/
theorem firstSeen {table : List (String × (Node → Node → Node))}
    (htable : ∀ entry ∈ table, entry.1 ∈ joiners ∧ Joins entry.2) :
    R (fun join join' => join' = join ∧ ∀ j, join = some j → Joins j)
      (firstSeen g table) (firstSeen g' table) := by
  induction table with
  | nil => exact h.pure ⟨rfl, nofun⟩
  | cons entry table ih =>
    obtain ⟨sign, join⟩ := entry
    obtain ⟨⟨hsign, hjoin⟩, htable⟩ := List.forall_mem_cons.mp htable
    refine h.bind_same (h.sees sign hsign) ?_
    intro seen
    cases seen with
    | true => exact h.pure ⟨rfl, fun j hj => Option.some.inj hj ▸ hjoin⟩
    | false => exact ih htable

theorem otherwise (inside : Bool) (l : Level) {p q : Parsed} (hpq : S p q) :
    R (Option.Rel S) (otherwise g inside l p) (otherwise g' inside l q) := by
  cases l with
  | term =>
    refine h.bind_same h.cursor ?_
    intro c
    cases c.peekToken.any startsFactor with
    | true =>
      refine h.bind (h.power inside) fun p' q' hpq' => ?_
      exact h.map (h.joined (Joins.binary .mul) hpq hpq') fun _ _ => .some
    | false => exact h.pure .none
  | _ => exact h.pure .none

theorem moreOperands {l : Level} (inside : Bool)
    (operand : R S (level g l.tighter inside) (level g' l.tighter inside)) {p q : Parsed}
    (hpq : S p q) :
    R (Option.Rel S)
      (moreOperands g l.operators (level g l.tighter inside) (Reading.otherwise g inside l) p)
      (moreOperands g' l.operators (level g' l.tighter inside) (Reading.otherwise g' inside l) q) := by
  refine h.bind (h.firstSeen fun entry he => ⟨mem_joiners he, joins_of_mem he⟩) ?_
  rintro _ join ⟨rfl, hjoin⟩
  cases join with
  | some join =>
    refine h.bind operand fun p' q' hpq' => ?_
    exact h.map (h.joined (hjoin join rfl) hpq hpq') fun _ _ => .some
  | none => exact h.otherwise inside l hpq

theorem chain {more : Parsed → Reading σ (Option Parsed)} {more' : Parsed → Reading τ (Option Parsed)}
    (hmore : ∀ {p q}, S p q → R (Option.Rel S) (more p) (more' q)) {rounds rounds' : Nat}
    (hrounds : Lasts R rounds rounds') {p q : Parsed} (hpq : S p q) :
    R S (chain more rounds p) (chain more' rounds' q) := by
  induction rounds generalizing rounds' p q with
  | zero =>
    rcases hrounds with rfl | ⟨-, hout⟩
    · exact h.exhausted _
    · exact hout _ _
  | succ rounds ih =>
    obtain ⟨rounds', rfl, hfewer⟩ := hrounds.of_succ
    refine h.bind (hmore hpq) ?_
    intro longer longer' hlonger
    cases hlonger with
    | some hpq' => exact ih hfewer hpq'
    | none => exact h.pure hpq

/-- Every level is related. -/
theorem level (l : Level) (inside : Bool) : R S (level g l inside) (level g' l inside) := by
  have hchain : ∀ {l : Level}, l.isChain = true →
      R S (Reading.level g l.tighter inside) (Reading.level g' l.tighter inside) →
        R S (Reading.level g l inside) (Reading.level g' l inside) := by
    intro l hl operand
    rw [level_of_chain g hl, level_of_chain g' hl, operands, operands]
    exact h.bind operand fun p q hpq => h.chain (h.moreOperands inside operand) h.rounds hpq
  have hterm := @hchain .term rfl (h.signed inside)
  have hsum := @hchain .sum rfl hterm
  have hcomparison := @hchain .comparison rfl hsum
  have hconjunction := @hchain .conjunction rfl hcomparison
  cases l with
  | disjunction => exact hchain rfl hconjunction
  | conjunction => exact hconjunction
  | comparison => exact hcomparison
  | sum => exact hsum
  | term => exact hterm
  | signed => exact h.signed inside
  | power => exact h.power inside
  | primary => exact h.primary inside

end Chains

/-! ### From single moves to primaries -/

/-- The relation is also kept by single moves and by faults. -/
structure Carries (host : Host σ) (host' : Host τ)
    (R : ∀ {α β : Type}, (α → β → Prop) → Reading σ α → Reading τ β → Prop) : Prop
    extends Sequences R where
  fail : ∀ {α β : Type} (rel : α → β → Prop) (fault : Fault), R rel (Run.fail fault) (Run.fail fault)
  moveTo : ∀ c, R Eq (moveTo c) (moveTo c)
  advance : R Eq (advance host) (advance host')

namespace Carries

variable {host : Host σ} {host' : Host τ}
  {R : ∀ {α β : Type}, (α → β → Prop) → Reading σ α → Reading τ β → Prop}
  (h : Carries host host' R) {α β : Type} {rel : α → β → Prop}
include h

theorem failUnexpected : R rel (failUnexpected : Reading σ α) (failUnexpected : Reading τ β) :=
  h.bind_same h.cursor fun _ => h.fail rel _

theorem failHere (cause : SyntaxCause) :
    R rel (failHere cause : Reading σ α) (failHere cause : Reading τ β) :=
  h.bind_same h.cursor fun _ => h.fail rel _

theorem failAt (cause : SyntaxCause) (position : Nat) :
    R rel (failAt cause position : Reading σ α) (failAt cause position : Reading τ β) :=
  h.bind_same h.cursor fun _ => h.fail rel _

theorem advanceBy (n : Nat) : R Eq (advanceBy host n) (advanceBy host' n) := by
  induction n with
  | zero => exact h.pure rfl
  | succ n ih => exact h.bind_same h.advance fun _ => ih

theorem skipBlanks : R Eq (skipBlanks host) (skipBlanks host') :=
  h.bind_same h.cursor fun _ => h.advanceBy _

theorem eat (literal : List Char) : R Eq (eat host literal) (eat host' literal) := by
  refine h.bind_same h.cursor fun start => h.bind_same h.skipBlanks fun _ =>
    h.bind_same h.cursor ?_
  intro here
  cases literal.isPrefixOf here.rest with
  | true => exact h.bind_same (h.advanceBy _) fun _ => h.pure rfl
  | false => exact h.bind_same (h.moveTo start) fun _ => h.pure rfl

end Carries

/-- The relation is also kept by the building of nodes; `S` relates the subtrees that the readings yield. -/
structure Relates (S : Parsed → Parsed → Prop) (g : Setting σ) (g' : Setting τ)
    (R : ∀ {α β : Type}, (α → β → Prop) → Reading σ α → Reading τ β → Prop) : Prop
    extends Carries g.host g'.host R where
  rounds : Lasts R g.rounds g'.rounds
  descend : ∀ entry inside, R S (g.descend entry inside) (g'.descend entry inside)
  number : ∀ {text value}, Numeral.value? text = some value →
    S ⟨.number value, true⟩ ⟨.number value, true⟩
  reference : ∀ name inside, S (reference name inside) (reference name inside)
  call : ∀ name start {ps qs}, List.Forall₂ S ps qs → R S (call g name ps start) (call g' name qs start)
  paren : ∀ {p q}, S p q →
    R S (finish g (.unary .paren p.node) p.constant) (finish g' (.unary .paren q.node) q.constant)
  neg : ∀ {p q}, S p q →
    R S (finish g (.unary .neg p.node) p.constant) (finish g' (.unary .neg q.node) q.constant)
  joined : ∀ {join p q p' q'}, Joins join → S p q → S p' q' →
    R S (finishJoined g join p p') (finishJoined g' join q q')

namespace Relates

variable {S : Parsed → Parsed → Prop} {g : Setting σ} {g' : Setting τ}
  {R : ∀ {α β : Type}, (α → β → Prop) → Reading σ α → Reading τ β → Prop} (h : Relates S g g' R)
include h

theorem sees (literal : String) : R Eq (sees g literal) (sees g' literal) :=
  h.eat _

/-! ### Numerals, names and calls -/

theorem numeral : R S (numeral g) (numeral g') := by
  refine h.bind_same h.cursor fun start => h.bind_same (h.advanceBy _) ?_
  intro _
  rcases hv : Numeral.value? (Numeral.scan start.rest) with _ | value
  · exact h.failAt _ _
  · exact h.pure (h.number hv)

theorem close (opening : Nat) : R Eq (close g opening) (close g' opening) := by
  refine h.bind_same (h.sees ")") ?_
  intro closed
  cases closed with
  | true => exact h.pure rfl
  | false =>
    refine h.bind_same h.skipBlanks fun _ => h.bind_same h.cursor ?_
    intro c
    cases c.atEnd with
    | true => exact h.failAt _ _
    | false => exact h.failUnexpected

theorem arguments (inside : Bool) (opening : Nat) {rounds rounds' : Nat}
    (hrounds : Lasts R rounds rounds') {ps qs : List Parsed} (hargs : List.Forall₂ S ps qs) :
    R (List.Forall₂ S) (arguments g inside opening rounds ps)
      (arguments g' inside opening rounds' qs) := by
  induction rounds generalizing rounds' ps qs with
  | zero =>
    rcases hrounds with rfl | ⟨-, hout⟩
    · exact h.exhausted _
    · exact hout _ _
  | succ rounds ih =>
    obtain ⟨rounds', rfl, hfewer⟩ := hrounds.of_succ
    refine h.bind_same h.skipBlanks fun _ => h.bind_same h.cursor ?_
    intro c
    cases c.current with
    | none => exact h.failAt _ _
    | some x =>
      simp only
      by_cases hx : x = ',' ∨ x = ')'
      · simp only [hx, if_true]
        exact h.failHere _
      · simp only [hx, if_false]
        refine h.bind (h.descend .formula inside) fun p q hpq => h.bind_same (h.sees ",") ?_
        intro comma
        cases comma with
        | true => exact ih hfewer (.cons hpq hargs)
        | false =>
          refine h.bind_same (h.close opening) fun _ => h.pure ?_
          exact List.rel_reverse (.cons hpq hargs)

theorem callArguments (inside : Bool) (opening : Nat) :
    R (List.Forall₂ S) (callArguments g inside opening) (callArguments g' inside opening) := by
  refine h.bind_same (h.sees ")") ?_
  intro closed
  cases closed with
  | true => exact h.pure .nil
  | false => exact h.arguments inside opening h.rounds .nil

theorem named (inside : Bool) : R S (named g inside) (named g' inside) := by
  refine h.bind_same h.cursor fun start => h.bind_same (h.advanceBy _) fun _ =>
    h.bind_same h.cursor ?_
  intro opening
  by_cases hparen : opening.current = some '('
  · simp only [hparen, if_true]
    refine h.bind_same h.advance fun _ => h.bind (h.callArguments _ _) ?_
    intro ps qs hargs
    exact h.call _ _ hargs
  · simp only [hparen, if_false]
    exact h.pure (h.reference _ inside)

theorem primary (inside : Bool) : R S (primary g inside) (primary g' inside) := by
  refine h.bind_same h.skipBlanks fun _ => h.bind_same h.cursor ?_
  intro start
  cases start.current with
  | none => exact h.failUnexpected
  | some x =>
    simp only
    by_cases hparen : x = '('
    · simp only [hparen, if_true]
      refine h.bind_same h.advance fun _ => h.bind (h.descend .formula inside) ?_
      intro p q hpq
      exact h.bind_same (h.close _) fun _ => h.paren hpq
    · simp only [hparen, if_false]
      by_cases hm : Numeral.isMantissaChar x = true
      · simp only [hm, if_true]
        exact h.numeral
      · by_cases hn : startsName x = true
        · simp only [hm, hn, if_true]
          exact h.named inside
        · simp only [hm, hn]
          exact h.failUnexpected

/-- Every level is related. -/
theorem chains : Chains S g g' R where
  toSequences := h.toSequences
  rounds := h.rounds
  sees sign _ := h.sees sign
  descend := h.descend
  primary := h.primary
  neg := h.neg
  joined := h.joined

end Relates

/-- Two settings that treat the nodes they build alike yield the same trees, if what is nested does. -/
theorem Carries.relates {g : Setting σ} {g' : Setting τ}
    {R : ∀ {α β : Type}, (α → β → Prop) → Reading σ α → Reading τ β → Prop}
    (h : Carries g.host g'.host R) (hrounds : Lasts R g.rounds g'.rounds)
    (hdescend : ∀ entry inside, R Eq (g.descend entry inside) (g'.descend entry inside))
    (hfinish : ∀ node constant, R Eq (finish g node constant) (finish g' node constant)) :
    Relates Eq g g' R where
  toCarries := h
  rounds := hrounds
  descend := hdescend
  number _ := rfl
  reference _ _ := rfl
  call name start ps qs hargs := by
    rw [List.forall₂_eq_eq_eq] at hargs
    subst hargs
    unfold call
    cases callNode? name (ps.map Parsed.node) with
    | some node => exact hfinish _ _
    | none => exact h.failAt _ _
  paren hpq := hpq ▸ hfinish _ _
  neg hpq := hpq ▸ hfinish _ _
  joined _ hpq hpq' := hpq ▸ hpq' ▸ hfinish _ _

/-! ### The whole text -/

section Whole

variable {host : Host σ} {host' : Host τ} {options options' : ReadingOptions} {steps steps' : Nat}
  {S : Parsed → Parsed → Prop}
  {R : ∀ {α β : Type}, (α → β → Prop) → Reading σ α → Reading τ β → Prop}

/-- What is nested is related, if settings are that share what is nested deeper. -/
theorem nested_related (h : Sequences R)
    (hsetting : ∀ depth,
      (∀ entry inside, R S (nested host options steps depth entry inside)
        (nested host' options' steps' depth entry inside)) →
      Chains S ⟨host, options, steps, depth, nested host options steps depth⟩
        ⟨host', options', steps', depth, nested host' options' steps' depth⟩ R)
    (depth : Nat) (entry : Entry) (inside : Bool) :
    R S (nested host options steps depth entry inside)
      (nested host' options' steps' depth entry inside) := by
  induction depth generalizing entry inside with
  | zero => exact h.exhausted _
  | succ depth ih =>
    cases entry with
    | formula => exact (hsetting depth ih).level .disjunction inside
    | signed => exact (hsetting depth ih).level .signed inside

theorem whole_related (h : Carries host host' R)
    (inside : options'.insideSummation = options.insideSummation) {depth depth' : Nat}
    (hnested : R S (nested host options steps depth .formula options.insideSummation)
      (nested host' options' steps' depth' .formula options.insideSummation))
    {rel : Node → Node → Prop} (hrel : ∀ {p q}, S p q → rel (.finite p.node) (.finite q.node)) :
    R rel (whole host options steps depth) (whole host' options' steps' depth') := by
  unfold whole
  rw [inside]
  refine h.bind_same h.skipBlanks fun _ => h.bind_same h.cursor ?_
  intro start
  cases start.atEnd with
  | true => exact h.failHere _
  | false =>
    refine h.bind hnested fun p q hpq => h.bind_same h.skipBlanks fun _ => h.bind_same h.cursor ?_
    intro stop
    cases stop.current with
    | some found => exact h.failHere _
    | none => exact h.pure (hrel hpq)

/-- Two readings that treat the nodes they build alike yield the same trees. -/
theorem whole_related_of_finish (h : Carries host host' R)
    (inside : options'.insideSummation = options.insideSummation)
    (hfinish : ∀ {g : Setting σ} {g' : Setting τ}, g.host = host → g.options = options →
      g.steps = steps → g'.host = host' → g'.options = options' → g'.steps = steps' →
      ∀ node constant, R Eq (finish g node constant) (finish g' node constant))
    (depth : Nat) :
    R Eq (whole host options steps depth) (whole host' options' steps' depth) := by
  have hsetting : ∀ depth,
      (∀ entry inside, R Eq (nested host options steps depth entry inside)
        (nested host' options' steps' depth entry inside)) →
      Relates Eq ⟨host, options, steps, depth, nested host options steps depth⟩
        ⟨host', options', steps', depth, nested host' options' steps' depth⟩ R := fun depth hdescend =>
    h.relates (.inl rfl) hdescend (hfinish rfl rfl rfl rfl rfl rfl)
  refine whole_related h inside
    (nested_related h.toSequences (fun depth hd => (hsetting depth hd).chains) depth _ _) ?_
  rintro p _ rfl
  rfl

end Whole

theorem readNode_eq_map (host : Host σ) (options : ReadingOptions) (steps : Nat) (source : String)
    (world : σ) :
    readNode host options steps source world =
      (whole host options steps (depthBound source) ⟨Cursor.start source, world⟩).map
        fun r => (r.1, r.2.world) := by
  unfold readNode
  rcases whole host options steps (depthBound source) ⟨Cursor.start source, world⟩ with
    _ | ⟨outcome, r⟩ <;> rfl

end Formulae.Reading
