import Formulae.Fault

/-!
# Runs — computations that change a state and may fail

A run takes a state to an outcome and the state it leaves. The outcome is a value or a fault; in both
cases the state that was reached is kept, so what a failing run has read stays read. There is no outcome
at all when the run was given too few steps.

* `Run.bind_apply` and its companions say how the pieces compose.
-/

namespace Formulae

/-- A computation over the state `σ`; `none` when its allowance of steps is used up. -/
def Run (σ α : Type) : Type :=
  σ → Option (Except Fault α × σ)

namespace Run

variable {σ α β : Type}

/-- The run that has no steps left. -/
@[inline] def exhausted : Run σ α :=
  fun _ => none

/-- The run that yields an outcome and leaves the state as it is. -/
@[inline] def ofExcept (outcome : Except Fault α) : Run σ α :=
  fun s => some (outcome, s)

/-- The run that fails. -/
@[inline] def fail (fault : Fault) : Run σ α :=
  fun s => some (.error fault, s)

/-- The run that shows something of the state. -/
@[inline] def read (f : σ → α) : Run σ α :=
  fun s => some (.ok (f s), s)

/-- The run that changes the state. -/
@[inline] def modify (f : σ → σ) : Run σ Unit :=
  fun s => some (.ok (), f s)

/-- One run after another; a fault ends both. -/
@[always_inline, inline] def andThen (x : Run σ α) (f : α → Run σ β) : Run σ β :=
  fun s =>
    match x s with
    | some (.ok a, t) => f a t
    | some (.error fault, t) => some (.error fault, t)
    | none => none

@[always_inline]
instance : Monad (Run σ) where
  pure a := ofExcept (.ok a)
  bind := andThen

theorem pure_apply (a : α) (s : σ) : (pure a : Run σ α) s = some (.ok a, s) := rfl

theorem bind_apply (x : Run σ α) (f : α → Run σ β) (s : σ) :
    (x >>= f) s = match x s with
      | some (.ok a, t) => f a t
      | some (.error fault, t) => some (.error fault, t)
      | none => none := rfl

theorem bind_of_ok {x : Run σ α} {f : α → Run σ β} {s t : σ} {a : α}
    (h : x s = some (.ok a, t)) : (x >>= f) s = f a t := by
  rw [bind_apply, h]

theorem bind_of_error {x : Run σ α} {f : α → Run σ β} {s t : σ} {fault : Fault}
    (h : x s = some (.error fault, t)) : (x >>= f) s = some (.error fault, t) := by
  rw [bind_apply, h]

theorem bind_of_none {x : Run σ α} {f : α → Run σ β} {s : σ} (h : x s = none) :
    (x >>= f) s = none := by
  rw [bind_apply, h]

@[simp] theorem read_apply (f : σ → α) (s : σ) : read f s = some (.ok (f s), s) := rfl

theorem bind_pure (x : Run σ α) : (x >>= pure) = x := by
  funext s
  rw [bind_apply]
  rcases h : x s with _ | ⟨_ | _, _⟩ <;> rfl

theorem bind_assoc {γ : Type} (x : Run σ α) (f : α → Run σ β) (g : β → Run σ γ) :
    (x >>= f >>= g) = (x >>= fun a => f a >>= g) := by
  funext s
  simp only [bind_apply]
  rcases h : x s with _ | ⟨_ | _, _⟩ <;> rfl

instance : LawfulMonad (Run σ) :=
  LawfulMonad.mk' (Run σ) (fun x => bind_pure x) (fun _ _ => rfl) (fun x f g => bind_assoc x f g)

end Run

end Formulae
