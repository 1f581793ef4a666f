/-!
Results that may be faults: what is known of the parts when the whole is a value, and when it is
none.
-/

namespace PageBuilder

variable {ε ε' α β γ : Type}

/-- A call that goes on after another one has a value just if both have. -/
theorem bind_eq_ok_iff {x : Except ε α} {f : α → Except ε β} {b : β} :
    (x >>= f) = .ok b ↔ ∃ a, x = .ok a ∧ f a = .ok b := by
  cases x with
  | error e =>
    constructor
    · intro h
      cases h
    · rintro ⟨a, h, -⟩
      cases h
  | ok a =>
    refine ⟨fun h => ⟨a, rfl, h⟩, ?_⟩
    rintro ⟨a', h, hf⟩
    cases h
    exact hf

theorem map_eq_ok_iff {x : Except ε α} {f : α → β} {b : β} :
    x.map f = .ok b ↔ ∃ a, x = .ok a ∧ f a = b := by
  cases x with
  | error e =>
    constructor
    · intro h
      cases h
    · rintro ⟨a, h, -⟩
      cases h
  | ok a =>
    refine ⟨fun h => ⟨a, rfl, Except.ok.inj h⟩, ?_⟩
    rintro ⟨a', h, hf⟩
    cases h
    exact congrArg Except.ok hf

/-! ## Calls one after the other -/

theorem map_bind (x : Except ε α) (f : α → β) (g : β → Except ε γ) :
    x.map f >>= g = x >>= fun a => g (f a) := by
  cases x <;> rfl

theorem bind_map (x : Except ε α) (f : α → Except ε β) (g : β → γ) :
    (x >>= f).map g = x >>= fun a => (f a).map g := by
  cases x <;> rfl

/-- How a call goes on matters only for the values that it has. -/
theorem bind_congr {x : Except ε α} {f g : α → Except ε β} (h : ∀ a, x = .ok a → f a = g a) :
    x >>= f = x >>= g := by
  cases x with
  | error e => rfl
  | ok a => exact h a rfl

/-! ## Failures -/

/-- The call has no value. -/
def Fails (x : Except ε α) : Prop := ∃ e, x = .error e

@[simp] theorem fails_error (e : ε) : Fails (.error e : Except ε α) := ⟨e, rfl⟩

@[simp] theorem not_fails_ok (a : α) : ¬ Fails (.ok a : Except ε α) := by
  rintro ⟨e, h⟩
  cases h

@[simp] theorem not_fails_pure (a : α) : ¬ Fails (pure a : Except ε α) := not_fails_ok a

@[simp] theorem fails_map_iff {x : Except ε α} {f : α → β} : Fails (x.map f) ↔ Fails x := by
  cases x with
  | error e => exact iff_of_true (fails_error e) (fails_error e)
  | ok a => exact iff_of_false (not_fails_ok _) (not_fails_ok a)

/-- What goes on without failing fails just if it fails at the start. -/
theorem fails_bind_iff {x : Except ε α} {f : α → Except ε β} (h : ∀ a, ¬ Fails (f a)) :
    Fails (x >>= f) ↔ Fails x := by
  cases x with
  | error e => exact iff_of_true (fails_error e) (fails_error e)
  | ok a => exact iff_of_false (h a) (not_fails_ok a)

/-- Two calls and what is made of their values: it fails just if one of the calls does. -/
theorem fails_both_iff {x : Except ε α} {y : Except ε β} {f : α → β → Except ε γ}
    (h : ∀ a b, ¬ Fails (f a b)) : Fails (x >>= fun a => y >>= f a) ↔ Fails x ∨ Fails y := by
  cases x with
  | error e => exact iff_of_true (fails_error e) (.inl (fails_error e))
  | ok a => exact (fails_bind_iff (h a)).trans (or_iff_right (not_fails_ok a)).symm

/-! ## Other errors -/

theorem mapError_eq_ok_iff {x : Except ε α} {f : ε → ε'} {a : α} :
    x.mapError f = .ok a ↔ x = .ok a := by
  cases x with
  | error e =>
    constructor
    · intro h
      cases h
    · intro h
      cases h
  | ok b =>
    constructor
    · intro h
      cases h
      rfl
    · intro h
      cases h
      rfl

@[simp] theorem mapError_ok (a : α) (f : ε → ε') :
    (Except.ok a : Except ε α).mapError f = .ok a := rfl

@[simp] theorem mapError_error (e : ε) (f : ε → ε') :
    (Except.error e : Except ε α).mapError f = .error (f e) := rfl

theorem mapError_bind (x : Except ε α) (f : α → Except ε β) (e : ε → ε') :
    (x >>= f).mapError e = x.mapError e >>= fun a => (f a).mapError e := by
  cases x <;> rfl

theorem mapError_map (x : Except ε α) (f : α → β) (e : ε → ε') :
    (x.map f).mapError e = (x.mapError e).map f := by
  cases x <;> rfl

end PageBuilder
