import Formulae.Proofs.Grammar.Derivation
import Formulae.Proofs.Refolding
import Formulae.Reading.Grammar

/-!
# Proofs.Reading.Levels — the levels of the grammar as readings

* `Reading.level g l`: the reading of the level `l`; `level_of_chain` shows the chains among them as one
  definition.
* `callNode?_eq_some_iff` and `standsFor_iff`: the function table and the names of constants are those of
  the grammar.
-/

namespace Formulae

open Grammar

namespace Grammar

theorem mem_unaryFunctions {name : String} {op : UnaryOp} :
    (name, op) ∈ unaryFunctions ↔ UnaryOp.ofFunctionName? name = some op := by
  constructor
  · intro h
    have hall : ∀ entry ∈ unaryFunctions, UnaryOp.ofFunctionName? entry.1 = some entry.2 := by
      decide
    exact hall _ h
  · intro h
    unfold UnaryOp.ofFunctionName? at h
    split at h <;> simp_all [unaryFunctions]

theorem mem_binaryFunctions {name : String} {op : BinaryOp} :
    (name, op) ∈ binaryFunctions ↔ BinaryOp.ofFunctionName? name = some op := by
  constructor
  · intro h
    have hall : ∀ entry ∈ binaryFunctions, BinaryOp.ofFunctionName? entry.1 = some entry.2 := by
      decide
    exact hall _ h
  · intro h
    unfold BinaryOp.ofFunctionName? at h
    split at h <;> simp_all [binaryFunctions]

theorem mem_namedValues {name : String} {value : Float} :
    (name, value) ∈ namedValues ↔ Node.namedConstant? name = some (.constant value name) := by
  unfold Node.namedConstant? namedValues
  constructor
  · intro h
    simp only [List.mem_cons, Prod.mk.injEq, List.not_mem_nil, or_false] at h
    rcases h with ⟨rfl, rfl⟩ | ⟨rfl, rfl⟩ | ⟨rfl, rfl⟩ | ⟨rfl, rfl⟩ <;> rfl
  · intro h
    split at h <;> simp_all [Number.ofBool]

theorem exists_of_namedConstant? {name : String} {node : Node}
    (h : Node.namedConstant? name = some node) : ∃ value, node = .constant value name := by
  unfold Node.namedConstant? at h
  split at h
  · exact ⟨_, (Option.some.inj h).symm⟩
  · exact ⟨_, (Option.some.inj h).symm⟩
  · exact ⟨_, (Option.some.inj h).symm⟩
  · exact ⟨_, (Option.some.inj h).symm⟩
  · cases h

end Grammar

namespace Reading

theorem isSummation_eq (name : String) : isSummation name = decide (name ∈ summationNames) := by
  by_cases h : name = "sum" <;> by_cases h' : name = "summation" <;>
    simp [isSummation, summationNames, h, h']

/-- The table of functions is that of the grammar. -/
theorem callNode?_eq_some_iff {name : String} {args : List Node} {node : Node} :
    callNode? name args = some node ↔ Calls name args node := by
  constructor
  · intro h
    unfold callNode? at h
    split at h
    · split at h
      · cases h
        exact .random (by simpa [randomNames] using ‹name = "rand" ∨ name = "random"›)
      · cases h
    · obtain ⟨op, hop, rfl⟩ := Option.map_eq_some_iff.mp h
      exact .unary (mem_unaryFunctions.mpr hop)
    · obtain ⟨op, hop, rfl⟩ := Option.map_eq_some_iff.mp h
      exact .binary (mem_binaryFunctions.mpr hop)
    · split at h
      · cases h
        rename_i hif
        rw [hif]
        exact .choice
      · split at h
        · cases h
          rename_i hs
          exact .summation (by simpa [isSummation_eq] using hs)
        · cases h
    · cases h
  · intro h
    cases h with
    | random mem =>
      have hn : name = "rand" ∨ name = "random" := by simpa [randomNames] using mem
      simp [callNode?, hn]
    | unary mem => simp [callNode?, mem_unaryFunctions.mp mem]
    | binary mem => simp [callNode?, mem_binaryFunctions.mp mem]
    | choice => simp [callNode?]
    | summation mem =>
      have hs : isSummation name = true := by simpa [isSummation_eq] using mem
      have hif : name ≠ "if" := by rintro rfl; exact absurd hs (by decide)
      simp [callNode?, hs, hif]

/-- Whether a name calls something is a matter of how many arguments there are. -/
theorem callNode?_eq_none {name : String} {args args' : List Node} (h : callNode? name args = none)
    (hlen : args.length = args'.length) : callNode? name args' = none := by
  refine Option.eq_none_iff_forall_ne_some.mpr fun node' h' => ?_
  obtain ⟨node, hcalls⟩ := (callNode?_eq_some_iff.mp h').of_length_eq hlen
  rw [callNode?_eq_some_iff.mpr hcalls] at h
  cases h

/-- The names of constants are those of the grammar. -/
theorem standsFor_iff {inside : Bool} {name : String} {node : Node} :
    StandsFor inside name node ↔ (reference name inside).node = node := by
  unfold reference
  constructor
  · intro h
    cases h with
    | constant mem => rw [mem_namedValues.mp mem]
    | reference free =>
      rcases h : Node.namedConstant? name with _ | node
      · rfl
      · obtain ⟨value, rfl⟩ := exists_of_namedConstant? h
        exact absurd (mem_namedValues.mpr h) (free value)
  · intro h
    rcases hc : Node.namedConstant? name with _ | node'
    · rw [hc] at h
      subst h
      exact .reference fun value hv => by rw [mem_namedValues.mp hv] at hc; cases hc
    · obtain ⟨value, rfl⟩ := exists_of_namedConstant? hc
      rw [hc] at h
      subst h
      exact .constant (mem_namedValues.mpr hc)

theorem reference_constant (name : String) (inside : Bool) :
    (reference name inside).constant = (reference name inside).node.isConstant := by
  unfold reference
  split
  · rename_i named hnamed
    obtain ⟨value, rfl⟩ := exists_of_namedConstant? hnamed
    exact (Node.isConstant_constant value name).symm
  · exact (Node.isConstant_reference name inside).symm

variable {σ : Type} (g : Setting σ)

/-- The reading of a level. -/
def level : Level → Bool → Reading σ Parsed
  | .disjunction => disjunction g
  | .conjunction => conjunction g
  | .comparison => comparison g
  | .sum => sum g
  | .term => term g
  | .signed => signed g
  | .power => power g
  | .primary => primary g

/-- What a chain does where none of its operators comes next. -/
def otherwise (inside : Bool) : Level → Parsed → Reading σ (Option Parsed)
  | .term => moreFactors g inside
  | _ => noMore

theorem level_of_chain {l : Level} (h : l.isChain = true) (inside : Bool) :
    level g l inside =
      operands g l.operators (level g l.tighter inside) (otherwise g inside l) := by
  cases l <;> first | rfl | cases h

end Reading

/-- The level of the grammar that an entry reads. -/
def Entry.level : Entry → Grammar.Level
  | .formula => .disjunction
  | .signed => .signed

end Formulae
