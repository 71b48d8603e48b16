import Formulae.Run

/-!
# Proofs.Runs — what a run ends in, and runs that follow each other

* `Run.Ends x s post fails`: the run `x`, started in `s`, is not cut short, and its value and the state
  it leaves satisfy `post`, or its fault satisfies `fails`.
* `Run.Meets x s post fails`: the same, but that the run may be cut short.
* `Run.Follows rel x y`: whatever `x` ends in, `y` ends in too, in the same state, with the same fault or
  with a value that `rel` relates to that of `x`.

All of them are closed under sequencing, so a statement about a reading is put together from its pieces.
-/

namespace Formulae.Run

variable {σ α β γ δ : Type}

theorem ite_apply {p : Prop} [Decidable p] (x y : Run σ α) (s : σ) :
    (if p then x else y : Run σ α) s = if p then x s else y s := by
  split <;> rfl

/-- What one run after another comes to: the fault of the first one, or what the second one makes of its
value. -/
theorem bind_cases {x : Run σ α} {f : α → Run σ β} {s t : σ} {outcome : Except Fault β}
    (h : (x >>= f) s = some (outcome, t)) :
    (∃ fault, outcome = .error fault ∧ x s = some (.error fault, t)) ∨
      ∃ a u, x s = some (.ok a, u) ∧ f a u = some (outcome, t) := by
  rw [bind_apply] at h
  rcases hx : x s with _ | ⟨fault | a, u⟩
  · rw [hx] at h
    cases h
  · rw [hx] at h
    cases h
    exact .inl ⟨fault, rfl, rfl⟩
  · rw [hx] at h
    exact .inr ⟨a, u, rfl, h⟩

/-- The run ends, in a value and a state as `post` says or in a fault as `fails` says. -/
def Ends (x : Run σ α) (s : σ) (post : α → σ → Prop) (fails : Fault → Prop) : Prop :=
  match x s with
  | some (.ok a, t) => post a t
  | some (.error fault, _) => fails fault
  | none => False

section Ends

variable {x : Run σ α} {s : σ} {post post' : α → σ → Prop} {fails fails' : Fault → Prop}

theorem ends_of_ok {a : α} {t : σ} (h : x s = some (.ok a, t)) (hp : post a t) :
    Ends x s post fails := by
  simp [Ends, h, hp]

theorem ends_iff_of_ok {a : α} {t : σ} (h : x s = some (.ok a, t)) :
    Ends x s post fails ↔ post a t := by
  simp [Ends, h]

theorem ends_of_eq {y : Run σ α} {t : σ} (h : x s = y t) (hy : Ends y t post fails) :
    Ends x s post fails := by
  unfold Ends at hy ⊢
  rwa [h]

@[simp] theorem ends_pure {a : α} : Ends (pure a) s post fails ↔ post a s := Iff.rfl

theorem ends_bind {f : α → Run σ β} {post : β → σ → Prop} :
    Ends (x >>= f) s post fails ↔ Ends x s (fun a t => Ends (f a) t post fails) fails := by
  unfold Ends
  rw [bind_apply]
  rcases x s with _ | ⟨_ | _, _⟩ <;> rfl

theorem ends_map {f : α → β} {post : β → σ → Prop} :
    Ends (f <$> x) s post fails ↔ Ends x s (fun a t => post (f a) t) fails := by
  rw [map_eq_pure_bind, ends_bind]
  simp

theorem Ends.mono (h : Ends x s post fails) (hp : ∀ a t, post a t → post' a t)
    (hf : ∀ fault, fails fault → fails' fault) : Ends x s post' fails' := by
  unfold Ends at h ⊢
  split at h
  · exact hp _ _ h
  · exact hf _ h
  · exact h

/-- The rule for one run after another. -/
theorem Ends.bind {f : α → Run σ β} {post' : β → σ → Prop} (h : Ends x s post fails)
    (hf : ∀ a t, post a t → Ends (f a) t post' fails) : Ends (x >>= f) s post' fails :=
  ends_bind.mpr (h.mono hf fun _ h => h)

theorem Ends.ne_none (h : Ends x s post fails) : x s ≠ none := by
  intro hx
  unfold Ends at h
  rw [hx] at h
  exact h

theorem Ends.exists_ok (h : Ends x s post fun _ => False) :
    ∃ a t, x s = some (.ok a, t) ∧ post a t := by
  unfold Ends at h
  split at h
  · exact ⟨_, _, ‹_›, h⟩
  · exact h.elim
  · exact h.elim

end Ends

/-- Unless it is cut short, the run ends in a value and a state as `post` says or in a fault as `fails`
says. -/
def Meets (x : Run σ α) (s : σ) (post : α → σ → Prop) (fails : Fault → Prop) : Prop :=
  match x s with
  | some (.ok a, t) => post a t
  | some (.error fault, _) => fails fault
  | none => True

section Meets

variable {x : Run σ α} {s : σ} {post post' : α → σ → Prop} {fails : Fault → Prop}

theorem Meets.mono (h : Meets x s post fails) (hp : ∀ a t, post a t → post' a t) :
    Meets x s post' fails := by
  unfold Meets at h ⊢
  split at h
  · exact hp _ _ h
  · exact h
  · exact h

/-- The rule for one run after another. -/
theorem Meets.bind {f : α → Run σ β} {post' : β → σ → Prop} (h : Meets x s post fails)
    (hf : ∀ a t, post a t → Meets (f a) t post' fails) : Meets (x >>= f) s post' fails := by
  unfold Meets at h ⊢
  rw [bind_apply]
  rcases hx : x s with _ | ⟨fault | a, t⟩
  · trivial
  · rw [hx] at h
    exact h
  · rw [hx] at h
    exact hf a t h

/-- A run goes on behind its first step. -/
theorem Meets.of_ok {f : α → Run σ β} {post' : β → σ → Prop} {a : α} {t : σ}
    (h : x s = some (.ok a, t)) (hf : Meets (f a) t post' fails) : Meets (x >>= f) s post' fails := by
  unfold Meets at hf ⊢
  rw [bind_of_ok h]
  exact hf

end Meets

/-- Whatever the first run ends in, the second one ends in too, up to `rel` between the values. -/
def Follows (rel : α → β → Prop) (x : Run σ α) (y : Run σ β) : Prop :=
  ∀ s, match x s with
    | some (.ok a, t) => ∃ b, y s = some (.ok b, t) ∧ rel a b
    | some (.error fault, t) => y s = some (.error fault, t)
    | none => True

section Follows

variable {rel : α → β → Prop} {x : Run σ α} {y : Run σ β}

theorem follows_refl (x : Run σ α) : Follows Eq x x := by
  intro s
  rcases h : x s with _ | ⟨_ | a, t⟩
  · trivial
  · rfl
  · exact ⟨a, rfl, rfl⟩

theorem follows_exhausted : Follows rel exhausted y := fun _ => trivial

theorem follows_pure {a : α} {b : β} (h : rel a b) : Follows rel (pure a : Run σ α) (pure b) :=
  fun _ => ⟨b, rfl, h⟩

theorem follows_fail (fault : Fault) : Follows rel (fail fault : Run σ α) (fail fault) :=
  fun _ => rfl

theorem Follows.bind {rel' : γ → δ → Prop} {f : α → Run σ γ} {g : β → Run σ δ}
    (h : Follows rel x y) (hf : ∀ a b, rel a b → Follows rel' (f a) (g b)) :
    Follows rel' (x >>= f) (y >>= g) := by
  intro s
  have hs := h s
  rw [bind_apply]
  rcases hx : x s with _ | ⟨fault | a, t⟩
  · trivial
  · rw [hx] at hs
    exact bind_of_error hs
  · rw [hx] at hs
    obtain ⟨b, hb, hr⟩ := hs
    rw [bind_of_ok hb]
    exact hf a b hr t

theorem Follows.ok {s t : σ} {a : α} (h : Follows rel x y) (hx : x s = some (.ok a, t)) :
    ∃ b, y s = some (.ok b, t) ∧ rel a b := by
  have hs := h s
  rwa [hx] at hs

theorem Follows.error {s t : σ} {fault : Fault} (h : Follows rel x y)
    (hx : x s = some (.error fault, t)) : y s = some (.error fault, t) := by
  have hs := h s
  rwa [hx] at hs

/-- A run that is not cut short is what follows it. -/
theorem Follows.eq_of_ne_none {s : σ} {x y : Run σ α} (h : Follows Eq x y) (hx : x s ≠ none) :
    x s = y s := by
  rcases hrun : x s with _ | ⟨fault | a, t⟩
  · exact absurd hrun hx
  · exact (h.error hrun).symm
  · obtain ⟨_, hy, rfl⟩ := h.ok hrun
    exact hy.symm

/-- Two runs that follow each other are one. -/
theorem eq_of_follows {x y : Run σ α} (h : Follows Eq x y) (h' : Follows Eq y x) : x = y := by
  funext s
  by_cases hx : x s = none
  · by_cases hy : y s = none
    · exact hx.trans hy.symm
    · exact (h'.eq_of_ne_none hy).symm
  · exact h.eq_of_ne_none hx

end Follows

end Formulae.Run
