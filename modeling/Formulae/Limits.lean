import Formulae.Fault

/-!
# Limits — how much work one evaluation may do

* `Limits.validate` accepts a substitution limit from 2 to 1000.
-/

namespace Formulae

/-- What one evaluation may use up. -/
structure Limits where
  /-- How often one name may be resolved in one scope. -/
  substitutions : Nat := 1000
  /-- The longest summation, zero for no limit. -/
  iterations : Nat := 100000
deriving DecidableEq

namespace Limits

/-- The least substitution limit. -/
def leastSubstitutions : Nat := 2

/-- The greatest substitution limit. -/
def mostSubstitutions : Nat := 1000

/-- Whether the substitution limit is in its range. -/
def isValid (l : Limits) : Bool :=
  leastSubstitutions ≤ l.substitutions && l.substitutions ≤ mostSubstitutions

/-- The limits themselves if they are in their range. -/
def validate (l : Limits) : Except Fault Limits :=
  if l.isValid then .ok l
  else .error <| .badSetting <|
    "max_recursive_substitutions must be between " ++ toString leastSubstitutions ++ " and " ++
      toString mostSubstitutions ++ ", got " ++ toString l.substitutions

theorem validate_eq_ok_iff {l m : Limits} :
    l.validate = .ok m ↔ 2 ≤ l.substitutions ∧ l.substitutions ≤ 1000 ∧ l = m := by
  unfold validate isValid leastSubstitutions mostSubstitutions
  split
  · simp_all
  · rename_i h
    simp only [Bool.and_eq_true, decide_eq_true_eq] at h
    simp only [reduceCtorEq, false_iff]
    exact fun ⟨least, most, _⟩ => h ⟨least, most⟩

end Limits

end Formulae
