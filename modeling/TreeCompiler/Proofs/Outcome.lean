namespace TreeCompiler

variable {σ ε ε' α α' β β' : Type}

variable {x : Except ε α} {f : α → Except ε β} {b : β} {a : α} {s : σ}

/-- A sequence succeeds exactly if its parts do. -/
theorem bind_eq_ok_iff :
    (x >>= f) = .ok b ↔ ∃ a, x = .ok a ∧ f a = .ok b := by
  cases x <;> simp [bind, Except.bind]

/-- A sequence fails where its first part fails, or its second part behind the first. -/
theorem bind_eq_error_iff {e : ε} :
    (x >>= f) = .error e ↔ x = .error e ∨ ∃ a, x = .ok a ∧ f a = .error e := by
  cases x <;> simp [bind, Except.bind]

/-- If both parts of a sequence give what those of another one give, but for a function that is
    applied to it, so do the sequences. -/
theorem bind_eq_map_bind {y : Except ε α'} {f' : α' → Except ε β'}
    {h : α → α'} {k : β → β'} (hxy : y = x.map h) (hf : ∀ a, x = .ok a → f' (h a) = (f a).map k) :
    (y >>= f') = (x >>= f).map k := by
  subst hxy
  cases x with
  | error e => rfl
  | ok a => exact hf a rfl

theorem bind_eq_map_bind_same {f' : α → Except ε β'} {k : β → β'}
    (hf : ∀ a, x = .ok a → f' a = (f a).map k) : (x >>= f') = (x >>= f).map k := by
  cases x with
  | error e => rfl
  | ok a => exact hf a rfl

theorem eq_ok_of_isSome (hx : x.toOption.isSome = true) :
    x = .ok (x.toOption.getD a) := by
  cases x with
  | error e => cases hx
  | ok b => rfl

theorem eq_ok_of_toOption (hx : x.toOption = some a) : x = .ok a := by
  cases x with
  | ok b => exact congrArg _ (Option.some.inj hx)
  | error e => cases hx

theorem map_eq_ok_iff {f : α → β} :
    x.map f = .ok b ↔ ∃ a, x = .ok a ∧ f a = b := by
  cases x <;> simp [Except.map]

theorem functor_map_eq_ok_iff {f : α → β} :
    f <$> x = .ok b ↔ ∃ a, x = .ok a ∧ f a = b :=
  map_eq_ok_iff

theorem mapError_eq_ok_iff {f : ε → ε'} :
    x.mapError f = .ok a ↔ x = .ok a := by
  cases x with
  | error e => exact iff_of_false (by rintro ⟨⟩) (by rintro ⟨⟩)
  | ok b => exact ⟨by rintro ⟨⟩; rfl, by rintro ⟨⟩; rfl⟩

theorem mapError_eq_error_iff {f : ε → ε'} {e' : ε'} :
    x.mapError f = .error e' ↔ ∃ e, x = .error e ∧ f e = e' := by
  cases x with
  | error e =>
    constructor
    · rintro ⟨⟩
      exact ⟨e, rfl, rfl⟩
    · rintro ⟨_, ⟨⟩, rfl⟩
      rfl
  | ok a => exact iff_of_false (by rintro ⟨⟩) (by rintro ⟨_, ⟨⟩, _⟩)

/-- A sequence of computations with a state succeeds exactly if its parts do, each in the state
    the one before it leaves. -/
theorem state_bind_eq_ok_iff {m : StateT σ (Except ε) α} {f : α → StateT σ (Except ε) β}
    {r : β × σ} : (m >>= f) s = .ok r ↔ ∃ a t, m s = .ok (a, t) ∧ f a t = .ok r := by
  change (m s >>= fun p => f p.1 p.2) = .ok r ↔ _
  rw [bind_eq_ok_iff]
  constructor
  · rintro ⟨⟨a, t⟩, hm, hf⟩
    exact ⟨a, t, hm, hf⟩
  · rintro ⟨a, t, hm, hf⟩
    exact ⟨(a, t), hm, hf⟩

theorem state_pure_eq_ok_iff {b : α} {t : σ} :
    (pure a : StateT σ (Except ε) α) s = .ok (b, t) ↔ a = b ∧ s = t := by
  change (Except.ok (a, s) : Except ε (α × σ)) = .ok (b, t) ↔ _
  simp

theorem state_get_eq_ok_iff {a t : σ} :
    (get : StateT σ (Except ε) σ) s = .ok (a, t) ↔ s = a ∧ s = t := by
  change (Except.ok (s, s) : Except ε (σ × σ)) = .ok (a, t) ↔ _
  simp

end TreeCompiler
