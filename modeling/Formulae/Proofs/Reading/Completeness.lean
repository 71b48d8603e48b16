import Formulae.Proofs.Grammar.Follow
import Formulae.Proofs.Reading.Tokens
import Formulae.Proofs.Refolding

/-!
# Proofs.Reading.Completeness — what can be derived is read

Under a quiet host, a formula of a level is read with every subtree settled, as long as nothing behind it
goes on with that level (`yields_level`). `Settles` says what becomes of a node that was just built, so
the statement holds with folding and without.
-/

namespace Formulae.Reading

open Text Number Grammar

variable {σ : Type}

/-- From `r`, the reading yields `a` and leaves `rest`; the world stays as it is. -/
def Yields {α : Type} (x : Reading σ α) (a : α) (r : Reader σ) (rest : List Char) : Prop :=
  ∃ t, x r = some (.ok a, t) ∧ t.rest = rest ∧ t.world = r.world

theorem yields_pure {α : Type} (a : α) (r : Reader σ) : Yields (pure a) a r r.rest :=
  ⟨r, rfl, rfl, rfl⟩

theorem Yields.bind {α β : Type} {x : Reading σ α} {f : α → Reading σ β} {a : α} {b : β}
    {r : Reader σ} {mid rest : List Char} (h : Yields x a r mid)
    (hf : ∀ t : Reader σ, t.rest = mid → Yields (f a) b t rest) : Yields (x >>= f) b r rest := by
  obtain ⟨t, ht, hmid, hw⟩ := h
  obtain ⟨t', ht', hrest, hw'⟩ := hf t hmid
  exact ⟨t', (Run.bind_of_ok ht).trans ht', hrest, hw'.trans hw⟩

theorem Yields.map {α β : Type} {x : Reading σ α} {f : α → β} {a : α} {r : Reader σ}
    {rest : List Char} (h : Yields x a r rest) : Yields (f <$> x) (f a) r rest := by
  rw [map_eq_pure_bind]
  exact h.bind fun t ht => ht ▸ yields_pure _ t

/-- A subtree, with whether it needs no bindings. -/
def parsed (node : Node) : Parsed :=
  ⟨node, node.isConstant⟩

/-- How a text is read that is nested at most `depth` deep. -/
def setting (host : Host σ) (options : ReadingOptions) (steps depth : Nat) : Setting σ :=
  ⟨host, options, steps, depth, nested host options steps depth⟩

theorem nested_succ (host : Host σ) (options : ReadingOptions) (steps depth : Nat) (entry : Entry)
    (inside : Bool) :
    nested host options steps (depth + 1) entry inside =
      level (setting host options steps depth) entry.level inside := by
  cases entry <;> rfl

/-- A node that was just built becomes what `settle` says. -/
def Settles (host : Host σ) (options : ReadingOptions) (steps : Nat)
    (settle : Node → Option Node) : Prop :=
  ∀ depth node node' r, settle node = some node' →
    finish (setting host options steps depth) node node.isConstant r = some (.ok (parsed node'), r)

section Completeness

variable {host : Host σ} {options : ReadingOptions} {steps depth : Nat}
  {settle : Node → Option Node} {r : Reader σ}

theorem Settles.yields (h : Settles host options steps settle) (depth : Nat) (r : Reader σ)
    {node node' : Node} (hn : settle node = some node') :
    Yields (finish (setting host options steps depth) node node.isConstant) (parsed node') r
      r.rest :=
  ⟨r, h depth node node' r hn, rfl, rfl⟩

theorem Settles.yields_joined (h : Settles host options steps settle) (depth : Nat)
    (r : Reader σ) {join : Node → Node → Node} (joins : Joins join) {left right node : Node}
    (hn : settle (join left right) = some node) :
    Yields (finishJoined (setting host options steps depth) join (parsed left) (parsed right))
      (parsed node) r r.rest := by
  have := h.yields depth r hn
  rwa [joins.isConstant] at this

/-- A phrase is read up to where it can be derived. -/
def Reads (host : Host σ) (options : ReadingOptions) (steps : Nat) (settle : Node → Option Node)
    (inside : Bool) (text rest : List Char) : Phrase → Prop
  | .formula l node => ∀ node', node.refold settle = some node' → Stops l rest →
    ∀ depth, text.length ≤ depth → ∀ r : Reader σ, r.rest = text →
      Yields (level (setting host options steps depth) l inside) (parsed node') r rest
  | .more l left node => ∀ node', node.refold settle = some node' → Stops l rest →
    ∃ left', left.refold settle = some left' ∧ ∀ depth rounds, text.length ≤ depth →
      text.length < rounds → ∀ r : Reader σ, r.rest = text →
        Yields (chain (moreOperands (setting host options steps depth) l.operators
          (level (setting host options steps depth) l.tighter inside)
          (otherwise (setting host options steps depth) inside l)) rounds (parsed left'))
          (parsed node') r rest
  | .arguments args => ∀ args', args.mapM (Node.refold settle) = some args' →
    ∀ depth rounds opening done, text.length < depth → text.length < rounds →
      ∀ r : Reader σ, r.rest = text →
        Yields (arguments (setting host options steps depth) inside opening rounds done)
          (done.reverse ++ args'.map parsed) r rest

/-- What is nested is read as its level. -/
theorem Reads.descend (entry : Entry) {inside : Bool} {text rest : List Char} {node node' : Node}
    (h : Reads host options steps settle inside text rest (.formula entry.level node))
    (hn : node.refold settle = some node') (stop : Stops entry.level rest)
    (hd : text.length < depth) (hr : r.rest = text) :
    Yields ((setting host options steps depth).descend entry inside) (parsed node') r rest := by
  obtain ⟨d, rfl⟩ : ∃ d, depth = d + 1 := ⟨depth - 1, by omega⟩
  show Yields (nested host options steps (d + 1) entry inside) _ _ _
  rw [nested_succ]
  exact h node' hn stop d (by omega) r hr

variable (quiet : host.Quiet) (settles : Settles host options steps settle)

section Tokens

variable {inside : Bool} {rest : List Char}
include quiet

theorem yields_sees {sign : String} (h : SignAt sign r.rest rest) :
    Yields (sees (setting host options steps depth) sign) true r rest :=
  sees_of_signAt (g := setting host options steps depth) quiet h

theorem yields_not_sees {sign : String} {c : Char} (hc : sign.toList.head? = some c)
    (h : (afterBlanks r.rest).head? ≠ some c) :
    Yields (sees (setting host options steps depth) sign) false r r.rest :=
  ⟨r, sees_of_head (g := setting host options steps depth) quiet hc h, rfl, rfl⟩

theorem yields_close {opening : Nat} (h : SignAt ")" r.rest rest) :
    Yields (close (setting host options steps depth) opening) () r rest :=
  (yields_sees quiet h).bind fun t ht => ht ▸ yields_pure () t

/-- A chain ends where its level stops. -/
theorem moreOperands_of_stops {l : Level} {operand : Reading σ Parsed} (left : Parsed)
    (stop : Stops l r.rest) :
    moreOperands (setting host options steps depth) l.operators operand
      (otherwise (setting host options steps depth) inside l) left r = some (.ok none, r) := by
  have hnone : firstSeen (setting host options steps depth) l.operators r = some (.ok none, r) := by
    refine firstSeen_of_head (g := setting host options steps depth) quiet ?_
    intro entry he
    obtain ⟨c, hc, hcont, -⟩ := Level.exists_head_of_mem he
    exact ⟨c, hc, stop.not_head hcont⟩
  rw [moreOperands, Run.bind_of_ok hnone]
  cases l with
  | term =>
    have hpeek : r.cursor.peekToken.any startsFactor = false := by
      rw [Cursor.peekToken_eq]
      refine Bool.eq_false_iff.mpr ?_
      intro h
      obtain ⟨x, hx, hs⟩ := (Option.any_eq_true _ _).mp h
      refine stop.not_head (c := x) ?_ hx
      simp [Level.continuedBy, Level.isChain, hs]
    show (if _ then _ else _ : Reading σ (Option Parsed)) r = _
    rw [hpeek]
    rfl
  | _ => rfl

end Tokens

theorem reference_eq_parsed {inside : Bool} {name : String} {node node' : Node}
    (stands : StandsFor inside name node) (hn : node.refold settle = some node') :
    reference name inside = parsed node' := by
  obtain rfl := Option.some.inj ((stands.refold settle).symm.trans hn)
  unfold parsed
  rw [← standsFor_iff.mp stands, ← reference_constant]

/-! ### One rule after another -/

section Rules

variable {inside : Bool} {l : Level} {text mid after rest : List Char} {left right node : Node}

theorem reads_chain (hl : l.isChain = true)
    (first : Derives inside (.formula l.tighter left) text mid)
    (others : Derives inside (.more l left node) mid rest)
    (ih : Reads host options steps settle inside text mid (.formula l.tighter left))
    (ih' : Reads host options steps settle inside mid rest (.more l left node)) :
    Reads host options steps settle inside text rest (.formula l node) := by
  intro node' hn stop depth hd r hr
  obtain ⟨left', hleft, hmore⟩ := ih' node' hn stop
  have hlt := first.length_lt
  rw [level_of_chain _ hl]
  refine (ih left' hleft (others.stops stop) depth hd r hr).bind ?_
  intro t ht
  exact hmore depth depth (by omega) (by omega) t ht

include quiet in
theorem reads_done :
    Reads host options steps settle inside text text (.more l node node) := by
  intro node' hn stop
  refine ⟨node', hn, fun depth rounds _ hrounds r hr => ?_⟩
  obtain ⟨k, rfl⟩ : ∃ k, rounds = k + 1 := ⟨rounds - 1, by omega⟩
  subst hr
  refine ⟨r, ?_, rfl, rfl⟩
  rw [chain, Run.bind_of_ok (moreOperands_of_stops quiet _ stop)]
  rfl

theorem nodup_operators (l : Level) : (l.operators.map Prod.fst).Nodup := by
  cases l <;> decide

include quiet settles in
theorem reads_operator {sign : String} {join : Node → Node → Node}
    (mem : (sign, join) ∈ l.operators) (next : SignAt sign text mid)
    (operand : Derives inside (.formula l.tighter right) mid after)
    (others : Derives inside (.more l (join left right) node) after rest)
    (ih : Reads host options steps settle inside mid after (.formula l.tighter right))
    (ih' : Reads host options steps settle inside after rest (.more l (join left right) node)) :
    Reads host options steps settle inside text rest (.more l left node) := by
  intro node' hn stop
  have joins := joins_of_mem mem
  obtain ⟨joined, hjoined, hmore⟩ := ih' node' hn stop
  obtain ⟨left', right', hleft, hright, hsettle⟩ := joins.of_refold hjoined
  refine ⟨left', hleft, fun depth rounds hd hrounds r hr => ?_⟩
  obtain ⟨k, rfl⟩ : ∃ k, rounds = k + 1 := ⟨rounds - 1, by omega⟩
  have hlt := next.length_lt
  have hlt' := operand.length_lt
  have hsign : Yields (firstSeen (setting host options steps depth) l.operators) (some join) r mid :=
    firstSeen_of_signAt (g := setting host options steps depth) quiet (longestFirst_operators l)
      (nodup_operators l) mem (hr ▸ next)
  rw [chain]
  have hlonger : Yields (moreOperands (setting host options steps depth) l.operators
      (level (setting host options steps depth) l.tighter inside)
      (otherwise (setting host options steps depth) inside l) (parsed left'))
      (some (parsed joined)) r after := by
    refine hsign.bind ?_
    intro t ht
    refine (ih right' hright (others.stops stop) depth (by omega) t ht).bind ?_
    intro t' ht'
    exact ht' ▸ (settles.yields_joined depth t' joins hsettle).map
  exact hlonger.bind fun t ht => hmore depth k (by omega) (by omega) t ht

include quiet settles in
theorem reads_juxtaposed
    (operand : Derives inside (.formula .power right) text after)
    (others : Derives inside (.more .term (.binary .mul left right) node) after rest)
    (ih : Reads host options steps settle inside text after (.formula .power right))
    (ih' : Reads host options steps settle inside after rest
      (.more .term (.binary .mul left right) node)) :
    Reads host options steps settle inside text rest (.more .term left node) := by
  intro node' hn stop
  have joins := Joins.binary .mul
  obtain ⟨joined, hjoined, hmore⟩ := ih' node' hn stop
  obtain ⟨left', right', hleft, hright, hsettle⟩ := joins.of_refold hjoined
  refine ⟨left', hleft, fun depth rounds hd hrounds r hr => ?_⟩
  obtain ⟨k, rfl⟩ : ∃ k, rounds = k + 1 := ⟨rounds - 1, by omega⟩
  subst hr
  have hlt := operand.length_lt
  obtain ⟨x, hx, hs⟩ := operand.starts
  have hnone : firstSeen (setting host options steps depth) Level.term.operators r =
      some (.ok none, r) := by
    refine firstSeen_of_head (g := setting host options steps depth) quiet ?_
    intro entry he
    obtain ⟨c, hc, -, -, hno⟩ := Level.exists_head_of_mem (l := .term) he
    refine ⟨c, hc, fun hxc => ?_⟩
    obtain rfl := Option.some.inj (hx.symm.trans hxc)
    exact absurd hs (by simp [Level.startedBy, hno])
  have hpeek : r.cursor.peekToken.any startsFactor = true := by
    rw [Cursor.peekToken_eq]
    exact (Option.any_eq_true _ _).mpr ⟨x, hx, hs⟩
  rw [chain]
  have hlonger : Yields (moreOperands (setting host options steps depth) Level.term.operators
      (level (setting host options steps depth) .signed inside)
      (otherwise (setting host options steps depth) inside .term) (parsed left'))
      (some (parsed joined)) r after := by
    have hpower := ih right' hright (others.stops stop : Stops .signed after) depth (by omega) r rfl
    obtain ⟨t, ht, hmid, hw⟩ := hpower.bind (f := fun right =>
      some <$> finishJoined (setting host options steps depth) (.binary .mul) (parsed left') right)
      fun t ht => ht ▸ (settles.yields_joined depth t joins hsettle).map
    refine ⟨t, ?_, hmid, hw⟩
    rw [moreOperands, Run.bind_of_ok hnone]
    show (if _ then _ else _ : Reading σ (Option Parsed)) r = _
    rw [hpeek]
    exact ht
  exact hlonger.bind fun t ht => hmore depth k (by omega) (by omega) t ht

include quiet settles in
theorem reads_negative (next : SignAt "-" text mid)
    (ih : Reads host options steps settle inside mid rest (.formula .signed node)) :
    Reads host options steps settle inside text rest (.formula .signed (.unary .neg node)) := by
  intro node' hn stop depth hd r hr
  obtain ⟨arg, harg, hsettle⟩ := Option.bind_eq_some_iff.mp hn
  have hlt := next.length_lt
  show Yields (signed _ inside) _ _ _
  rw [signed]
  refine (yields_sees quiet (hr ▸ next)).bind ?_
  intro t ht
  refine (Reads.descend .signed ih harg stop (by omega) ht).bind ?_
  intro t' ht'
  have := settles.yields depth t' hsettle
  rw [Node.isConstant_unary] at this
  exact ht' ▸ this

include quiet in
theorem reads_positive (next : SignAt "+" text mid)
    (ih : Reads host options steps settle inside mid rest (.formula .signed node)) :
    Reads host options steps settle inside text rest (.formula .signed node) := by
  intro node' hn stop depth hd r hr
  have hlt := next.length_lt
  have hhead := next.head (c := '+') rfl
  show Yields (signed _ inside) _ _ _
  rw [signed]
  refine (yields_not_sees quiet (c := '-') rfl (by rw [hr, hhead]; decide)).bind ?_
  intro t ht
  rw [← ht] at hr
  refine (yields_sees quiet (hr ▸ next)).bind ?_
  intro t' ht'
  exact Reads.descend .signed ih hn stop (by omega) ht'

include quiet in
theorem reads_unsigned (operand : Derives inside (.formula .power node) text rest)
    (ih : Reads host options steps settle inside text rest (.formula .power node)) :
    Reads host options steps settle inside text rest (.formula .signed node) := by
  intro node' hn stop depth hd r hr
  obtain ⟨x, hx, hs⟩ := operand.starts
  have hminus : (afterBlanks text).head? ≠ some '-' := by
    rw [hx]
    rintro ⟨⟩
    exact absurd hs (by decide)
  have hplus : (afterBlanks text).head? ≠ some '+' := by
    rw [hx]
    rintro ⟨⟩
    exact absurd hs (by decide)
  show Yields (signed _ inside) _ _ _
  rw [signed]
  refine (yields_not_sees quiet (c := '-') rfl (hr ▸ hminus)).bind ?_
  intro t ht
  rw [← ht] at hr
  refine (yields_not_sees quiet (c := '+') rfl (hr ▸ hplus)).bind ?_
  intro t' ht'
  exact ih node' hn stop depth hd t' (ht'.trans hr)

include quiet in
theorem reads_base (ih : Reads host options steps settle inside text rest (.formula .primary node)) :
    Reads host options steps settle inside text rest (.formula .power node) := by
  intro node' hn stop depth hd r hr
  show Yields (power _ inside) _ _ _
  rw [power]
  refine (ih node' hn stop.tighter depth hd r hr).bind ?_
  intro t ht
  have hno : (afterBlanks t.rest).head? ≠ some '^' := ht ▸ stop.not_head rfl
  refine (yields_not_sees quiet rfl hno).bind ?_
  intro t' ht'
  exact (ht'.trans ht) ▸ yields_pure _ t'

include quiet settles in
theorem reads_raised (operand : Derives inside (.formula .primary left) text mid)
    (next : SignAt "^" mid after)
    (ih : Reads host options steps settle inside text mid (.formula .primary left))
    (ih' : Reads host options steps settle inside after rest (.formula .signed right)) :
    Reads host options steps settle inside text rest
      (.formula .power (.binary .pow left right)) := by
  intro node' hn stop depth hd r hr
  have joins := Joins.binary .pow
  obtain ⟨left', right', hleft, hright, hsettle⟩ := joins.of_refold hn
  have hlt := operand.length_lt
  have hlt' := next.length_lt
  have hprimary : Stops .primary mid := fun _ _ => rfl
  show Yields (power _ inside) _ _ _
  rw [power]
  refine (ih left' hleft hprimary depth hd r hr).bind ?_
  intro t ht
  refine (yields_sees quiet (ht ▸ next)).bind ?_
  intro t' ht'
  refine (Reads.descend .signed ih' hright stop (by omega) ht').bind ?_
  intro t'' ht''
  exact ht'' ▸ settles.yields_joined depth t'' joins hsettle

include quiet settles in
theorem reads_group (opening : SignAt "(" text mid) (closing : SignAt ")" after rest)
    (ih : Reads host options steps settle inside mid after (.formula .disjunction node)) :
    Reads host options steps settle inside text rest (.formula .primary (.unary .paren node)) := by
  intro node' hn stop depth hd r hr
  obtain ⟨inner, hinner, hsettle⟩ := Option.bind_eq_some_iff.mp hn
  have hlt := opening.length_lt
  have hstop : Stops .disjunction after := stops_of_head (closing.head (c := ')') rfl) rfl
  have hhead : (afterBlanks r.rest).head? = some '(' := hr ▸ opening.head rfl
  have hmid : (r.skipBlanks.skip 1).rest = mid := by
    rw [Reader.rest_skip, Reader.rest_skipBlanks, hr]
    exact opening.rest_eq.symm
  have hinside : Yields (do
      let inner ← (setting host options steps depth).descend .formula inside
      close (setting host options steps depth) r.skipBlanks.cursor.position
      finish (setting host options steps depth) (.unary .paren inner.node) inner.constant)
      (parsed node') (r.skipBlanks.skip 1) rest := by
    refine (Reads.descend .formula ih hinner hstop (by omega) hmid).bind ?_
    intro t ht
    refine (yields_close quiet (ht ▸ closing)).bind ?_
    intro t' ht'
    have := settles.yields depth t' hsettle
    rw [Node.isConstant_unary] at this
    exact ht' ▸ this
  obtain ⟨t, ht, hrest, hw⟩ := hinside
  refine ⟨t, ?_, hrest, hw⟩
  show primary _ inside r = _
  rw [primary_of_quiet (g := setting host options steps depth) quiet, hhead]
  simp only [if_true]
  exact ht

include quiet in
theorem reads_numeral {value : Float} (next : NumeralAt value text rest) :
    Reads host options steps settle inside text rest (.formula .primary (.number value)) := by
  intro node' hn stop depth hd r hr
  obtain rfl := Option.some.inj hn
  obtain ⟨x, hx, hm⟩ := next.head
  have hparen : x ≠ '(' := by
    rintro rfl
    exact absurd hm (by decide)
  obtain ⟨t, ht, hrest, hw⟩ :=
    numeral_of_numeralAt (g := setting host options steps depth) quiet (hr ▸ next)
  refine ⟨t, ?_, hrest, hw⟩
  show primary _ inside r = _
  rw [primary_of_quiet (g := setting host options steps depth) quiet, hr, hx]
  simp only [hparen, hm, if_true, if_false]
  rw [ht, parsed, Node.isConstant_number]

include quiet in
theorem reads_name {name : String} (next : NameAt name text rest)
    (stands : StandsFor inside name node) :
    Reads host options steps settle inside text rest (.formula .primary node) := by
  intro node' hn stop depth hd r hr
  obtain ⟨x, hx, hs⟩ := next.head
  obtain ⟨t, ht, hrest, hw⟩ :=
    named_of_nameAt (g := setting host options steps depth) quiet inside (hr ▸ next)
  refine ⟨t, ?_, hrest, hw⟩
  show primary _ inside r = _
  rw [primary_of_startsName (g := setting host options steps depth) quiet inside (hr ▸ hx) hs, ht,
    reference_eq_parsed stands hn]

include quiet settles in
/-- The call of a name is read where its arguments are. -/
theorem reads_call {name : String} {args : List Node} (next : CallAt name text mid)
    (calls : Calls name args node)
    (content : ∀ args', args.mapM (Node.refold settle) = some args' → ∀ depth opening,
      mid.length < depth → ∀ r : Reader σ, r.rest = mid →
        Yields (callArguments (setting host options steps depth)
          (inside || decide (name ∈ summationNames)) opening) (args'.map parsed) r rest) :
    Reads host options steps settle inside text rest (.formula .primary node) := by
  intro node' hn stop depth hd r hr
  obtain ⟨args', called, hargs, hcalls, hsettle⟩ := calls.refold hn
  have hconstant := hcalls.isConstant
  obtain ⟨x, hx, hs⟩ := next.head
  have hlt := next.length_lt
  obtain ⟨opening, start, t, ht, hmid, hw⟩ :=
    named_of_callAt (g := setting host options steps depth) quiet inside (hr ▸ next)
  have hcall : Yields (callArguments (setting host options steps depth)
      (inside || decide (name ∈ summationNames)) opening >>= fun args =>
        call (setting host options steps depth) name args start) (parsed node') t rest := by
    refine (content args' hargs depth opening (by omega) t hmid).bind ?_
    intro t' ht'
    have hnode : callNode? name ((args'.map parsed).map Parsed.node) = some called := by
      rw [List.map_map]
      exact callNode?_eq_some_iff.mpr ((List.map_id args').symm ▸ hcalls)
    have hflags : (!(args'.map parsed).isEmpty && (args'.map parsed).all Parsed.constant) =
        called.isConstant := by
      rw [hconstant, List.isEmpty_map, List.all_map]
      rfl
    rw [call, hnode]
    simp only [hflags]
    exact ht' ▸ settles.yields depth t' hsettle
  obtain ⟨t', ht', hrest, hw'⟩ := hcall
  refine ⟨t', ?_, hrest, hw'.trans hw⟩
  show primary _ inside r = _
  rw [primary_of_startsName (g := setting host options steps depth) quiet inside (hr ▸ hx) hs, ht,
    ht']

include quiet in
theorem yields_callArguments_nil {opening : Nat} (closing : SignAt ")" mid rest) (hr : r.rest = mid) :
    Yields (callArguments (setting host options steps depth) inside opening) [] r rest := by
  rw [callArguments]
  refine (yields_sees quiet (hr ▸ closing)).bind ?_
  intro t ht
  exact ht ▸ yields_pure _ t

include quiet in
theorem yields_callArguments {opening : Nat} {args args' : List Node}
    (content : Derives inside (.arguments args) mid rest)
    (ih : Reads host options steps settle inside mid rest (.arguments args))
    (hargs : args.mapM (Node.refold settle) = some args') (hd : mid.length < depth)
    (hr : r.rest = mid) :
    Yields (callArguments (setting host options steps depth) inside opening) (args'.map parsed) r
      rest := by
  obtain ⟨x, hx, hs⟩ := content.starts
  have hclose : (afterBlanks mid).head? ≠ some ')' := by
    rw [hx]
    rintro ⟨⟩
    exact absurd hs (by decide)
  rw [callArguments]
  refine (yields_not_sees quiet (c := ')') rfl (hr ▸ hclose)).bind ?_
  intro t ht
  exact ih args' hargs depth depth opening [] hd hd t (ht.trans hr)

include quiet in
/-- The next argument is read, and then what stands behind it. -/
theorem yields_arguments {opening rounds : Nat} {done args : List Parsed} {arg arg' : Node}
    (content : Derives inside (.formula .disjunction arg) text mid) (stop : Stops .disjunction mid)
    (ih : Reads host options steps settle inside (afterBlanks text) mid (.formula .disjunction arg))
    (harg : arg.refold settle = some arg') (hd : text.length < depth)
    (behind : ∀ t : Reader σ, t.rest = mid → Yields (do
      if ← sees (setting host options steps depth) "," then
        arguments (setting host options steps depth) inside opening rounds (parsed arg' :: done)
      else do
        close (setting host options steps depth) opening
        pure (parsed arg' :: done).reverse) args t rest)
    (hr : r.rest = text) :
    Yields (arguments (setting host options steps depth) inside opening (rounds + 1) done) args r
      rest := by
  have hblanks : r.skipBlanks.rest = afterBlanks text := hr ▸ r.rest_skipBlanks
  have hlt := Nat.lt_of_le_of_lt (length_afterBlanks_le text) hd
  obtain ⟨x, hx, hs⟩ := content.starts
  have hcurrent : r.skipBlanks.cursor.current = some x := (congrArg List.head? hblanks).trans hx
  have hx' : ¬ (x = ',' ∨ x = ')') := by
    rintro (rfl | rfl) <;> exact absurd hs (by decide)
  have hargument : Yields ((setting host options steps depth).descend .formula inside)
      (parsed arg') r.skipBlanks mid :=
    Reads.descend .formula ih harg stop hlt hblanks
  obtain ⟨t, ht, hrest, hw⟩ := hargument.bind (f := fun arg => do
    if ← sees (setting host options steps depth) "," then
      arguments (setting host options steps depth) inside opening rounds (arg :: done)
    else do
      close (setting host options steps depth) opening
      pure (arg :: done).reverse) behind
  have hskip : skipBlanks (setting host options steps depth).host r =
      some (.ok (), r.skipBlanks) := skipBlanks_of_quiet quiet r
  refine ⟨t, ?_, hrest, hw⟩
  rw [arguments, Run.bind_of_ok hskip,
    Run.bind_of_ok (t := r.skipBlanks) (a := r.skipBlanks.cursor) rfl, hcurrent]
  show (if _ then _ else _ : Reading σ (List Parsed)) _ = _
  rw [if_neg hx']
  exact ht

include quiet in
theorem reads_lastArgument (content : Derives inside (.formula .disjunction node) text mid)
    (closing : SignAt ")" mid rest)
    (ih : Reads host options steps settle inside (afterBlanks text) mid
      (.formula .disjunction node)) :
    Reads host options steps settle inside text rest (.arguments [node]) := by
  intro args' hargs depth rounds opening done hd hrounds r hr
  obtain ⟨k, rfl⟩ : ∃ k, rounds = k + 1 := ⟨rounds - 1, by omega⟩
  rw [List.mapM_cons] at hargs
  obtain ⟨arg', harg, hargs⟩ := Option.bind_eq_some_iff.mp hargs
  obtain rfl := Option.some.inj hargs
  have hhead := closing.head (c := ')') rfl
  refine yields_arguments quiet content (stops_of_head hhead rfl) ih harg hd (fun t ht => ?_) hr
  subst ht
  refine (yields_not_sees quiet (c := ',') rfl (by rw [hhead]; decide)).bind ?_
  intro t' ht'
  refine (yields_close quiet (ht' ▸ closing)).bind ?_
  intro t'' ht''
  rw [List.reverse_cons]
  exact ht'' ▸ yields_pure _ t''

include quiet in
theorem reads_argument {args : List Node}
    (content : Derives inside (.formula .disjunction node) text mid) (comma : SignAt "," mid after)
    (ih : Reads host options steps settle inside (afterBlanks text) mid
      (.formula .disjunction node))
    (ih' : Reads host options steps settle inside after rest (.arguments args)) :
    Reads host options steps settle inside text rest (.arguments (node :: args)) := by
  intro args' hargs depth rounds opening done hd hrounds r hr
  obtain ⟨k, rfl⟩ : ∃ k, rounds = k + 1 := ⟨rounds - 1, by omega⟩
  rw [List.mapM_cons] at hargs
  obtain ⟨arg', harg, hargs⟩ := Option.bind_eq_some_iff.mp hargs
  obtain ⟨others, hothers, hargs⟩ := Option.bind_eq_some_iff.mp hargs
  obtain rfl := Option.some.inj hargs
  have hhead := comma.head (c := ',') rfl
  have hlt := content.length_lt
  have hlt' := comma.length_lt
  refine yields_arguments quiet content (stops_of_head hhead rfl) ih harg hd (fun t ht => ?_) hr
  refine (yields_sees quiet (ht ▸ comma)).bind ?_
  intro t' ht'
  have := ih' others hothers depth k opening (parsed arg' :: done) (by omega) (by omega) t' ht'
  rwa [List.reverse_cons, List.append_assoc] at this

end Rules

include quiet settles in
/-- What can be derived is read, also with other blanks in front of it. -/
theorem reads_of_derives {inside : Bool} {phrase : Phrase} {text rest : List Char}
    (h : Derives inside phrase text rest) (text' : List Char)
    (same : text' = text ∨ phrase.leastLength = 1 ∧ afterBlanks text' = afterBlanks text) :
    Reads host options steps settle inside text' rest phrase := by
  have blanks : ∀ {text text' : List Char} {taken : Prop},
      text' = text ∨ taken ∧ afterBlanks text' = afterBlanks text →
        afterBlanks text' = afterBlanks text := by
    rintro text text' taken (rfl | ⟨-, h⟩)
    · rfl
    · exact h
  induction h generalizing text' with
  | chain hl first others ih ih' =>
    have hb := blanks same
    exact reads_chain hl (first.congr rfl hb) others (ih _ (.inr ⟨rfl, hb⟩)) (ih' _ (.inl rfl))
  | done =>
    obtain rfl | ⟨⟨⟩, -⟩ := same
    exact reads_done quiet
  | operator mem next operand others ih ih' =>
    exact reads_operator quiet settles mem (next.congr (blanks same)) operand others
      (ih _ (.inl rfl)) (ih' _ (.inl rfl))
  | juxtaposed operand others ih ih' =>
    have hb := blanks same
    exact reads_juxtaposed quiet settles (operand.congr rfl hb) others (ih _ (.inr ⟨rfl, hb⟩))
      (ih' _ (.inl rfl))
  | negative next operand ih =>
    exact reads_negative quiet settles (next.congr (blanks same)) (ih _ (.inl rfl))
  | positive next operand ih =>
    exact reads_positive quiet (next.congr (blanks same)) (ih _ (.inl rfl))
  | unsigned operand ih =>
    have hb := blanks same
    exact reads_unsigned quiet (operand.congr rfl hb) (ih _ (.inr ⟨rfl, hb⟩))
  | base operand ih => exact reads_base quiet (ih _ (.inr ⟨rfl, blanks same⟩))
  | raised operand next power ih ih' =>
    have hb := blanks same
    exact reads_raised quiet settles (operand.congr rfl hb) next (ih _ (.inr ⟨rfl, hb⟩))
      (ih' _ (.inl rfl))
  | group opening content closing ih =>
    exact reads_group quiet settles (opening.congr (blanks same)) closing (ih _ (.inl rfl))
  | numeral next => exact reads_numeral quiet (next.congr (blanks same))
  | name next stands => exact reads_name quiet (next.congr (blanks same)) stands
  | emptyCall next closing calls =>
    refine reads_call quiet settles (next.congr (blanks same)) calls
      fun args' hargs depth opening _ r hr => ?_
    obtain rfl := Option.some.inj hargs
    exact yields_callArguments_nil quiet closing hr
  | call next content calls ih =>
    refine reads_call quiet settles (next.congr (blanks same)) calls
      fun args' hargs depth opening hd r hr => ?_
    exact yields_callArguments quiet content (ih _ (.inl rfl)) hargs hd hr
  | lastArgument content closing ih =>
    have hb := blanks same
    refine reads_lastArgument quiet (content.congr rfl hb) closing (ih _ (.inr ⟨rfl, ?_⟩))
    rw [afterBlanks_idem, hb]
  | argument content comma others ih ih' =>
    have hb := blanks same
    refine reads_argument quiet (content.congr rfl hb) comma (ih _ (.inr ⟨rfl, ?_⟩))
      (ih' _ (.inl rfl))
    rw [afterBlanks_idem, hb]

include quiet settles in
/-- A formula of a level that nothing goes on with is read, with every subtree settled. -/
theorem yields_level {inside : Bool} {l : Level} {node node' : Node} {rest : List Char}
    (h : Derives inside (.formula l node) r.rest rest) (stop : Stops l rest)
    (hn : node.refold settle = some node') (hd : r.rest.length ≤ depth) :
    Yields (level (setting host options steps depth) l inside) (parsed node') r rest :=
  reads_of_derives quiet settles h r.rest (.inl rfl) node' hn stop depth hd r rfl

end Completeness

end Formulae.Reading
