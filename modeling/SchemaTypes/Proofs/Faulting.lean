import SchemaTypes.Fault

/-!
# Computations that may stop with a fault

The computations of this library run over a state and may stop with a fault. The state survives a
fault. The equations below say how each of their building blocks runs.
-/

namespace SchemaTypes.Faulting

variable {σ α β : Type}

/-- A finished computation changes nothing. -/
@[simp]
theorem run_pure (a : α) (state : σ) :
    (pure a : ExceptT Fault (StateM σ) α).run state = (.ok a, state) := rfl

/-- A result from elsewhere changes nothing. -/
@[simp]
theorem run_lift (result : Except Fault α) (state : σ) :
    (liftM result : ExceptT Fault (StateM σ) α).run state = (result, state) := by
  cases result <;> rfl

/-- Reading the state changes nothing. -/
@[simp]
theorem run_get (state : σ) : (get : ExceptT Fault (StateM σ) σ).run state = (.ok state, state) := rfl

/-- Setting the state replaces it. -/
@[simp]
theorem run_set (next state : σ) :
    (set next : ExceptT Fault (StateM σ) PUnit).run state = (.ok ⟨⟩, next) := rfl

/-- The second computation runs where the first one ended, unless that one stopped with a fault. -/
theorem run_bind (first : ExceptT Fault (StateM σ) α) (second : α → ExceptT Fault (StateM σ) β)
    (state : σ) :
    (first >>= second).run state =
      match first.run state with
      | (.ok a, next) => (second a).run next
      | (.error fault, next) => (.error fault, next) := by
  simp only [ExceptT.run, bind, ExceptT.bind, ExceptT.mk, StateT.bind]
  rcases first state with ⟨result, next⟩
  cases result <;> rfl

/-- Both computations of a sequence that succeeds have succeeded. -/
theorem run_bind_ok {first : ExceptT Fault (StateM σ) α} {second : α → ExceptT Fault (StateM σ) β}
    {state final : σ} {b : β} (h : (first >>= second).run state = (.ok b, final)) :
    ∃ a middle, first.run state = (.ok a, middle) ∧ (second a).run middle = (.ok b, final) := by
  rw [run_bind] at h
  rcases hfirst : first.run state with ⟨result, middle⟩
  rw [hfirst] at h
  cases result with
  | error fault => cases h
  | ok a => exact ⟨a, middle, rfl, h⟩

/-- Both results of a sequence that succeeds are values. -/
theorem bind_eq_ok {ε : Type} {first : Except ε α} {second : α → Except ε β} {b : β}
    (h : first >>= second = .ok b) : ∃ a, first = .ok a ∧ second a = .ok b := by
  cases first with
  | error fault => cases h
  | ok a => exact ⟨a, rfl, h⟩

/-- A value that is not refused is a result. -/
theorem ofMalformed_eq_ok {result : Except Malformed α} {a : α}
    (h : Fault.ofMalformed result = .ok a) : result = .ok a := by
  cases result with
  | error cause => cases h
  | ok b =>
    cases h
    rfl

/-- A result that is not a fault is a value. -/
theorem exists_eq_ok {ε : Type} {result : Except ε α} (h : result.toOption.isSome = true) :
    ∃ a, result = .ok a := by
  cases result with
  | error fault => cases h
  | ok a => exact ⟨a, rfl⟩

/-- A result made from another one is a value if the other one is. -/
theorem exists_eq_ok_of_map {ε : Type} {result : Except ε α} {f : α → β} {b : β}
    (h : result.map f = .ok b) : ∃ a, result = .ok a := by
  cases result with
  | error fault => cases h
  | ok a => exact ⟨a, rfl⟩

/-- A result made from another one has its fault. -/
theorem eq_error_of_map {ε : Type} {result : Except ε α} {f : α → β} {fault : ε}
    (h : result.map f = .error fault) : result = .error fault := by
  cases result with
  | error cause => exact congrArg Except.error (Except.error.inj h)
  | ok a => cases h

/-- A run stops with a fault if it has no value. -/
theorem exists_error_iff {action : ExceptT Fault (StateM σ) α} {state : σ} :
    (∃ fault final, action.run state = (.error fault, final)) ↔
      ¬∃ a final, action.run state = (.ok a, final) := by
  rcases action.run state with ⟨result, final⟩
  cases result with
  | error fault =>
    apply iff_of_true ⟨fault, final, rfl⟩
    rintro ⟨a, other, h⟩
    cases h
  | ok a =>
    apply iff_of_false
    · rintro ⟨fault, other, h⟩
      cases h
    · exact not_not_intro ⟨a, final, rfl⟩

/-- A run whose result is not a fault has a value. -/
theorem exists_run_eq_ok {action : ExceptT Fault (StateM σ) α} {state : σ}
    (h : (action.run state).1.toOption.isSome = true) :
    ∃ a final, action.run state = (.ok a, final) := by
  obtain ⟨a, ha⟩ := exists_eq_ok h
  exact ⟨a, (action.run state).2, Prod.ext ha rfl⟩

/-- A run whose result is not a value has a fault. -/
theorem exists_run_eq_error {action : ExceptT Fault (StateM σ) α} {state : σ}
    (h : (action.run state).1.toOption.isSome = false) :
    ∃ fault final, action.run state = (.error fault, final) := by
  rw [exists_error_iff]
  rintro ⟨a, final, hrun⟩
  rw [hrun] at h
  cases h

end SchemaTypes.Faulting
