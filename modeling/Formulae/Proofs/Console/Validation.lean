import Formulae.Proofs.Console.Marks
import Formulae.Proofs.Folding
import Formulae.Proofs.Reading.Acceptance
import Formulae.Proofs.Reading.Depth

/-!
# Proofs.Console.Validation — the completeness of a line and its reading

* `Expression.stray_iff_foreign`: in a formula, stray tokens are foreign characters and nothing else.
* `Expression.complete_of_read`: a line without stray characters is complete if it can be read, and not if a
  parenthesis of it is found to be unclosed.
-/

namespace Formulae

open Text Number Grammar Console

variable {σ : Type}

namespace Console

/-- A stray token shows that no formula without foreign characters has it. -/
theorem none_mem_shownBy {found : List Token} {t : Token} (mem : t ∈ found) (stray : t.kind = .stray) :
    none ∈ shownBy found := by
  induction found with
  | nil => cases mem
  | cons first following ih =>
    rw [shownBy, List.mem_append]
    rcases List.mem_cons.mp mem with rfl | mem
    · left
      simp [Token.shows, stray]
    · exact .inr (ih mem)

/-- A formula has a stray token just if it has a foreign character. -/
theorem stray_iff_of_formula {inside : Bool} {source : String} {node : Node}
    (h : Formula inside source.toList node) :
    (∃ t ∈ (tokens source).1, t.kind = .stray) ↔ ∃ c ∈ source.toList, isForeign c = true := by
  constructor
  · rintro ⟨t, ht, hstray⟩
    by_contra hnone
    have hplain : Plain source.toList := by simpa [Plain] using hnone
    have hmem : none ∈ shown source.toList := none_mem_shownBy ht hstray
    rw [shown_of_formula h hplain] at hmem
    simp at hmem
  · rintro ⟨c, hc, hforeign⟩
    by_contra hnone
    have hplaced : ∀ t ∈ (tokens source).1, t.kind ≠ .stray := by simpa using hnone
    have hplain := (cuts_tokensFrom source.toList).plain_of_no_stray hplaced c hc
    rw [hplain] at hforeign
    cases hforeign

end Console

namespace Expression

/-- Whatever the host does and however a line is read: one that is a formula has a stray token, and so no
depth, just if there is a foreign character in it, a letter beyond those of ASCII or a blank that is no
gap. -/
theorem stray_iff_foreign (host : Host σ) (options : ReadingOptions) (steps : Nat) (source : String)
    (world after : σ) (e : Expression)
    (h : Expression.read host options steps source world = some (.ok e, after)) :
    ((∃ t ∈ (tokens source).1, t.kind = .stray) ↔ ∃ c ∈ source.toList, isForeign c = true) ∧
      (openDepth source = none ↔ ∃ c ∈ source.toList, isForeign c = true) := by
  obtain ⟨node, hformula, -⟩ := exists_formula_of_readNode (Expression.read_eq_some h).1
  have hstray := stray_iff_of_formula hformula
  exact ⟨hstray, (openDepth_eq_none_iff source).trans hstray⟩

/-- Among the factors of a summand stands a name of one letter that is beyond those of ASCII. -/
theorem stray_iff_foreign_letter :
    ∃ e, Expression.read Host.idle { foldConstants := false } 0 "sum(1, 3, é n)" () = some (.ok e, ()) ∧
      (∃ t ∈ (tokens "sum(1, 3, é n)").1, t.kind = .stray) ∧ openDepth "sum(1, 3, é n)" = none := by
  have hread : Expression.read Host.idle { foldConstants := false } 0 "sum(1, 3, é n)" () =
      some (.ok ⟨"sum(1, 3, é n)", .finite (.summation (.number 1.0) (.number 3.0)
        (.binary .mul (.reference "é" true) (.reference "n" true))), {}⟩, ()) := by
    decide +kernel
  obtain ⟨hstray, hdepth⟩ := stray_iff_foreign Host.idle { foldConstants := false } 0 _ () () _ hread
  have hforeign : ∃ c ∈ "sum(1, 3, é n)".toList, isForeign c = true :=
    ⟨'é', by simp, by decide +kernel⟩
  exact ⟨_, hread, hstray.mpr hforeign, hdepth.mpr hforeign⟩

/-- A formula of one letter has a stray token and no depth. -/
theorem foreign_formula :
    Expression.read Host.idle {} 0 "é" () = some (.ok ⟨"é", .finite (.reference "é" false), {}⟩, ()) ∧
      (tokens "é").1.map Token.kind = [.stray] ∧ openDepth "é" = none := by
  decide +kernel

/-- Whatever the host does and however a line without stray tokens is read: if it is read, no parenthesis is
open at its end, and it is complete; if a parenthesis of it is found to be unclosed, some are open, and it is
not. -/
theorem complete_of_read (host : Host σ) (options : ReadingOptions) (steps : Nat) (source : String)
    (world after : σ) (outcome : Except Fault Expression)
    (placed : ∀ t ∈ (tokens source).1, t.kind ≠ .stray)
    (h : Expression.read host options steps source world = some (outcome, after)) :
    (∀ e, outcome = .ok e → openDepth source = some 0 ∧ isComplete source = true) ∧
      (∀ f, outcome = .error (.syntactic f) → f.cause = .unclosedParenthesis →
        ∃ depth, 0 < depth ∧ openDepth source = some depth ∧ isComplete source = false) := by
  have hdepth := openDepth_of_no_stray placed
  have hbalance := Expression.meets_balance host options steps source world
  unfold Run.Meets at hbalance
  rw [h] at hbalance
  generalize excess source.toList = total at *
  refine ⟨?_, ?_⟩
  · rintro e rfl
    obtain rfl : total = 0 := hbalance
    exact ⟨hdepth, by rw [isComplete, hdepth]; rfl⟩
  · rintro f rfl hcause
    have hpos : 0 < total := hbalance ⟨f, rfl, hcause⟩
    have hdeep : 0 < total.toNat := by omega
    refine ⟨total.toNat, hdeep, hdepth, ?_⟩
    rw [isComplete, hdepth]
    exact beq_eq_false_iff_ne.mpr (by omega)

/-- A call and a group in it are left open. -/
theorem complete_of_read_nested :
    Expression.read Host.idle {} 0 "sum(1, (2 + x" () =
        some (.error (.syntactic ⟨.unclosedParenthesis, 7, "sum(1, (2 + x"⟩), ()) ∧
      (∀ t ∈ (tokens "sum(1, (2 + x").1, t.kind ≠ .stray) ∧
      ∃ depth, 0 < depth ∧ openDepth "sum(1, (2 + x" = some depth ∧
        isComplete "sum(1, (2 + x" = false := by
  have hread : Expression.read Host.idle {} 0 "sum(1, (2 + x" () =
      some (.error (.syntactic ⟨.unclosedParenthesis, 7, "sum(1, (2 + x"⟩), ()) := by
    decide +kernel
  have hplaced : ∀ t ∈ (tokens "sum(1, (2 + x").1, t.kind ≠ .stray := by decide +kernel
  exact ⟨hread, hplaced, (complete_of_read Host.idle {} 0 _ () () _ hplaced hread).2 _ rfl rfl⟩

end Expression

end Formulae
