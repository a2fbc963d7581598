import PegScribe.Recorder

/-!
Computations that keep their state when a fault breaks them off: recording, and lowering.

A sequence of two goes well when both go well (`bind_eq_ok`), and breaks off in the first or in the
second (`bind_eq_error`).
-/
namespace PegScribe.Keeping
variable {ε σ α β : Type}

theorem bind_run (x : ExceptT ε (StateM σ) α) (f : α → ExceptT ε (StateM σ) β) (s : σ) :
    (x >>= f) s = match x s with
      | (.ok a, s') => f a s'
      | (.error e, s') => (.error e, s') := by
  show (match x s with | (p, s') => ExceptT.bindCont f p s') = _
  rcases x s with ⟨a | e, s'⟩ <;> rfl

theorem bind_of_ok {x : ExceptT ε (StateM σ) α} {f : α → ExceptT ε (StateM σ) β} {s s' : σ} {a : α}
    (h : x s = (.ok a, s')) : (x >>= f) s = f a s' := by
  rw [bind_run, h]

theorem bind_of_error {x : ExceptT ε (StateM σ) α} {f : α → ExceptT ε (StateM σ) β} {s s' : σ}
    {e : ε} (h : x s = (.error e, s')) : (x >>= f) s = (.error e, s') := by
  rw [bind_run, h]

theorem bind_eq_ok {x : ExceptT ε (StateM σ) α} {f : α → ExceptT ε (StateM σ) β} {s s' : σ}
    {b : β} : (x >>= f) s = (.ok b, s') ↔ ∃ a s₁, x s = (.ok a, s₁) ∧ f a s₁ = (.ok b, s') := by
  constructor
  · intro h
    rcases hx : x s with ⟨e | a, s₁⟩
    · rw [bind_of_error hx] at h; cases h
    · rw [bind_of_ok hx] at h
      exact ⟨a, s₁, rfl, h⟩
  · rintro ⟨a, s₁, hx, h⟩
    rw [bind_of_ok hx, h]

theorem bind_eq_error {x : ExceptT ε (StateM σ) α} {f : α → ExceptT ε (StateM σ) β} {s s' : σ}
    {e : ε} : (x >>= f) s = (.error e, s') ↔
      x s = (.error e, s') ∨ ∃ a s₁, x s = (.ok a, s₁) ∧ f a s₁ = (.error e, s') := by
  constructor
  · intro h
    rcases hx : x s with ⟨e' | a, s₁⟩
    · rw [bind_of_error hx] at h; cases h; exact .inl rfl
    · rw [bind_of_ok hx] at h
      exact .inr ⟨a, s₁, rfl, h⟩
  · rintro (hx | ⟨a, s₁, hx, h⟩)
    · exact bind_of_error hx
    · rw [bind_of_ok hx, h]

theorem pure_eq_ok {a b : α} {s s' : σ} :
    (pure a : ExceptT ε (StateM σ) α) s = (.ok b, s') ↔ a = b ∧ s = s' := by
  show ((Except.ok a, s) : Except ε α × σ) = _ ↔ _
  simp

theorem map_eq_ok {x : ExceptT ε (StateM σ) α} {f : α → β} {s s' : σ} {b : β}
    (h : (f <$> x) s = (.ok b, s')) : ∃ a, x s = (.ok a, s') ∧ f a = b := by
  rw [map_eq_pure_bind] at h
  obtain ⟨a, s₁, hx, h⟩ := bind_eq_ok.mp h
  obtain ⟨hb, rfl⟩ := pure_eq_ok.mp h
  exact ⟨a, hx, hb⟩

end PegScribe.Keeping
