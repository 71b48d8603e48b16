import Formulae.Bindings
import Mathlib.Algebra.Order.BigOperators.Group.Finset

/-!
# Proofs.Names — the names that bindings bind

* `Bindings.keys`: the bound names.
* `length_le_of_count_le`: a list of bound names that holds none of them too often is short.
-/

namespace Formulae

namespace Bindings

variable {σ : Type}

/-- The names that are bound. -/
def keys (v : Bindings σ) : Finset String :=
  (v.entries.map Prod.fst).toFinset

theorem isSome_getIn (entries : List (String × Binding σ)) (name : String) :
    (getIn entries name).isSome = true ↔ name ∈ entries.map Prod.fst := by
  induction entries with
  | nil => simp [getIn]
  | cons entry rest ih =>
    obtain ⟨key, b⟩ := entry
    by_cases h : key = name
    · simp [getIn, h]
    · have h' : ¬ name = key := fun hn => h hn.symm
      rw [getIn, if_neg h, ih]
      simp [h']

theorem isSome_get? (v : Bindings σ) (name : String) :
    (v.get? name).isSome = true ↔ name ∈ v.keys := by
  rw [keys, List.mem_toFinset]
  exact isSome_getIn v.entries name

end Bindings

/-- A list of some of the names, each at most `c` times in it, has at most `c` entries for each name. -/
theorem length_le_of_count_le {names : Finset String} {l : List String} {c : Nat}
    (mem : ∀ name ∈ l, name ∈ names) (count : ∀ name, l.count name ≤ c) :
    l.length ≤ c * names.card := by
  have hsub : l.toFinset ⊆ names := fun name h => mem name (List.mem_toFinset.mp h)
  calc l.length = ∑ name ∈ l.toFinset, l.count name := (List.sum_toFinset_count_eq_length l).symm
    _ ≤ l.toFinset.card • c := Finset.sum_le_card_nsmul _ _ _ fun name _ => count name
    _ ≤ c * names.card := by
      rw [Nat.nsmul_eq_mul, Nat.mul_comm]
      exact Nat.mul_le_mul_left c (Finset.card_le_card hsub)

end Formulae
