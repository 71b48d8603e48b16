/-!
# Tallies — how often each name was met

* `Tally.count_add`: adding a name raises its own count by one and no other.
-/

namespace Formulae

/-- A count for each name, zero for those never added. -/
structure Tally where
  entries : List (String × Nat)
deriving DecidableEq

namespace Tally

/-- No name met yet. -/
def empty : Tally := ⟨[]⟩

/-- The count of a name in a list of entries. -/
def countIn : List (String × Nat) → String → Nat
  | [], _ => 0
  | (key, n) :: rest, name => if key = name then n else countIn rest name

/-- A list of entries with one more of a name. -/
def addIn : List (String × Nat) → String → List (String × Nat)
  | [], name => [(name, 1)]
  | (key, n) :: rest, name =>
    if key = name then (key, n + 1) :: rest else (key, n) :: addIn rest name

/-- How often a name was added. -/
def count (t : Tally) (name : String) : Nat :=
  countIn t.entries name

/-- The tally with one more of a name. -/
def add (t : Tally) (name : String) : Tally :=
  ⟨addIn t.entries name⟩

theorem countIn_addIn (entries : List (String × Nat)) (name other : String) :
    countIn (addIn entries name) other = countIn entries other + if name = other then 1 else 0 := by
  induction entries with
  | nil => by_cases h : name = other <;> simp [addIn, countIn, h]
  | cons entry rest ih =>
    obtain ⟨key, n⟩ := entry
    by_cases hk : key = name
    · subst hk
      by_cases h : key = other <;> simp [addIn, countIn, h]
    · by_cases ho : key = other
      · subst ho
        have : name ≠ key := fun h => hk h.symm
        simp [addIn, countIn, hk, this]
      · simp [addIn, countIn, hk, ho, ih]

@[simp] theorem count_add (t : Tally) (name other : String) :
    (t.add name).count other = t.count other + if name = other then 1 else 0 :=
  countIn_addIn t.entries name other

end Tally

end Formulae
