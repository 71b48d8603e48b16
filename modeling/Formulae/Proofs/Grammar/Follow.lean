import Formulae.Proofs.Reading.Levels

/-!
# Proofs.Grammar.Follow — how formulas start and what may follow them

One character tells where a chain goes on.

* `Derives.starts`: the first character of a formula of a level.
* `Stops l rest`: nothing in front of `rest` goes on with a formula of the level `l`; where a chain goes
  on with an operator or a factor, its last operand stops (`Derives.stops`).
-/

namespace Formulae.Grammar

open Text Number Reading

namespace Level

/-- The characters that a formula of the level can start with. -/
def startedBy : Level → Char → Bool
  | .power, x | .primary, x => startsFactor x
  | _, x => x == '-' || x == '+' || startsFactor x

/-- The first characters of the operators of the level and of all tighter ones. -/
def operatorStarts : Level → List Char
  | .disjunction => ['^', '*', '/', '%', '+', '-', '<', '>', '=', '!', '&', '|']
  | .conjunction => ['^', '*', '/', '%', '+', '-', '<', '>', '=', '!', '&']
  | .comparison => ['^', '*', '/', '%', '+', '-', '<', '>', '=', '!']
  | .sum => ['^', '*', '/', '%', '+', '-']
  | .term => ['^', '*', '/', '%']
  | .signed | .power => ['^']
  | .primary => []

/-- Whether a character goes on with a formula of the level, with an operator or as another factor. -/
def continuedBy (l : Level) (x : Char) : Bool :=
  l.operatorStarts.contains x || (l.isChain && startsFactor x)

end Level

/-- The next character behind blanks, if there is one, goes on with no formula of the level. -/
def Stops (l : Level) (rest : List Char) : Prop :=
  NotNext l.continuedBy (afterBlanks rest)

section Starts

variable {inside : Bool} {text rest : List Char}

theorem SignAt.head {sign : String} {c : Char} (h : SignAt sign text rest)
    (hc : sign.toList.head? = some c) : (afterBlanks text).head? = some c := by
  obtain ⟨cs, hcs⟩ := List.head?_eq_some_iff.mp hc
  rw [h.spelled, hcs]
  rfl

theorem IsNumeral.head {spelling : List Char} (h : IsNumeral spelling rest) :
    ∃ c, spelling.head? = some c ∧ Numeral.isMantissaChar c = true := by
  have hmantissa : ∀ mantissa : List Char, mantissa ≠ [] →
      (∀ c ∈ mantissa, Numeral.isMantissaChar c = true) → ∀ more,
        ∃ c, (mantissa ++ more).head? = some c ∧ Numeral.isMantissaChar c = true := by
    intro mantissa nonempty all more
    obtain ⟨c, cs, rfl⟩ := List.exists_cons_of_ne_nil nonempty
    exact ⟨c, rfl, all c (by simp)⟩
  cases h with
  | whole nonempty all => simpa using hmantissa _ nonempty all []
  | scaled nonempty all => exact hmantissa _ nonempty all _

theorem startsFactor_of_isMantissaChar {c : Char} (h : Numeral.isMantissaChar c = true) :
    startsFactor c = true := by
  rcases (Bool.or_eq_true _ _).mp h with h | h <;> simp [startsFactor, h]

theorem startsFactor_of_startsName {c : Char} (h : startsName c = true) :
    startsFactor c = true := by
  simp [startsFactor, h]

theorem NumeralAt.head {value : Float} (h : NumeralAt value text rest) :
    ∃ c, (afterBlanks text).head? = some c ∧ Numeral.isMantissaChar c = true := by
  obtain ⟨spelling, hs, hn, -⟩ := h
  obtain ⟨c, hc, hm⟩ := hn.head
  exact ⟨c, by simp [hs, hc], hm⟩

theorem NameAt.head {name : String} (h : NameAt name text rest) :
    ∃ c, (afterBlanks text).head? = some c ∧ startsName c = true := by
  obtain ⟨c, cs, hc, hn⟩ := h.isName.starts
  exact ⟨c, by simp [h.spelled, hc], hn⟩

theorem CallAt.head {name : String} (h : CallAt name text rest) :
    ∃ c, (afterBlanks text).head? = some c ∧ startsName c = true := by
  obtain ⟨c, cs, hc, hn⟩ := h.isName.starts
  exact ⟨c, by simp [h.spelled, hc], hn⟩

theorem Level.startedBy_of_tighter {l : Level} {x : Char} (h : l.tighter.startedBy x = true) :
    l.startedBy x = true := by
  cases l <;> simp_all [Level.startedBy, Level.tighter]

/-- The first character of a formula, or of the arguments of a call. -/
theorem Derives.starts {phrase : Phrase} (h : Derives inside phrase text rest) :
    match phrase with
    | .formula l _ => ∃ x, (afterBlanks text).head? = some x ∧ l.startedBy x = true
    | .arguments _ => ∃ x, (afterBlanks text).head? = some x ∧
        Level.disjunction.startedBy x = true
    | .more _ _ _ => True := by
  induction h with
  | chain _ _ _ ih =>
    obtain ⟨x, hx, hs⟩ := ih
    exact ⟨x, hx, Level.startedBy_of_tighter hs⟩
  | done | operator | juxtaposed => trivial
  | negative next => exact ⟨'-', next.head rfl, rfl⟩
  | positive next => exact ⟨'+', next.head rfl, rfl⟩
  | unsigned _ ih =>
    obtain ⟨x, hx, hs⟩ := ih
    exact ⟨x, hx, Level.startedBy_of_tighter (l := .signed) hs⟩
  | base _ ih | raised _ _ _ ih => exact ih
  | group opening => exact ⟨'(', opening.head rfl, rfl⟩
  | numeral next =>
    obtain ⟨x, hx, hm⟩ := next.head
    exact ⟨x, hx, startsFactor_of_isMantissaChar hm⟩
  | name next =>
    obtain ⟨x, hx, hn⟩ := next.head
    exact ⟨x, hx, startsFactor_of_startsName hn⟩
  | emptyCall next | call next =>
    obtain ⟨x, hx, hn⟩ := next.head
    exact ⟨x, hx, startsFactor_of_startsName hn⟩
  | lastArgument _ _ ih | argument _ _ _ ih => exact ih

end Starts

section Stops

variable {inside : Bool} {l : Level} {text rest : List Char}

theorem stops_of_head {c : Char} (hc : (afterBlanks rest).head? = some c)
    (h : l.continuedBy c = false) : Stops l rest := by
  intro x hx
  rw [hc] at hx
  rwa [← Option.some.inj hx]

theorem stops_of_nil (h : afterBlanks rest = []) : Stops l rest := by
  unfold Stops
  rw [h]
  exact notNext_nil

theorem Stops.not_head {c : Char} (h : Stops l rest) (hc : l.continuedBy c = true) :
    (afterBlanks rest).head? ≠ some c := by
  intro hx
  rw [h c hx] at hc
  cases hc

theorem Level.continuedBy_of_tighter {x : Char} (h : l.tighter.continuedBy x = true) :
    l.continuedBy x = true := by
  cases l <;> simp only [Level.continuedBy, Level.operatorStarts, Level.tighter, Level.isChain,
    List.contains_cons, Bool.or_eq_true, Bool.and_eq_true, List.contains_nil] at h ⊢ <;>
    grind

theorem Stops.tighter (h : Stops l rest) : Stops l.tighter rest := by
  intro x hx
  refine Bool.eq_false_iff.mpr ?_
  intro hc
  exact h.not_head (Level.continuedBy_of_tighter hc) hx

/-- The first characters of the operators of a chain go on with it, but not with its operands. -/
theorem Level.exists_head_of_mem {entry : String × (Node → Node → Node)}
    (mem : entry ∈ l.operators) :
    ∃ c, entry.1.toList.head? = some c ∧ l.continuedBy c = true ∧
      l.tighter.continuedBy c = false ∧ startsFactor c = false := by
  have hall : ∀ sign ∈ l.operators.map Prod.fst, sign.toList.head?.any (fun c =>
      l.continuedBy c && (!l.tighter.continuedBy c && !startsFactor c)) = true := by
    cases l <;> decide
  obtain ⟨c, hc, h⟩ := (Option.any_eq_true _ _).mp (hall entry.1 (List.mem_map.mpr ⟨_, mem, rfl⟩))
  simp only [Bool.and_eq_true, Bool.not_eq_true'] at h
  exact ⟨c, hc, h⟩

/-- Where a chain goes on, its last operand stops. -/
theorem Derives.stops {left node : Node} (h : Derives inside (.more l left node) text rest)
    (stop : Stops l rest) : Stops l.tighter text := by
  generalize hp : Phrase.more l left node = phrase at h
  cases h with
  | done =>
    cases hp
    exact stop.tighter
  | operator mem next =>
    cases hp
    obtain ⟨c, hc, -, hno, -⟩ := Level.exists_head_of_mem mem
    exact stops_of_head (next.head hc) hno
  | juxtaposed operand =>
    cases hp
    obtain ⟨x, hx, hs⟩ := operand.starts
    refine stops_of_head hx ?_
    have hne : x ≠ '^' := by
      rintro rfl
      exact absurd hs (by decide)
    simp [Level.continuedBy, Level.operatorStarts, Level.tighter, Level.isChain, hne]
  | _ => cases hp

end Stops

end Formulae.Grammar
