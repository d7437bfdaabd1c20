import SchemaTypes.Proofs.Faulting

/-!
# Computations in lockstep

Two computations run in lockstep if they end in the same state from every state, and either both finish, with
results that are related in a given way, or both stop, with faults that differ in nothing but the part of a
document that they show. There is one rule for each way to put computations together.
-/

namespace SchemaTypes

/-- What cannot be given, without the part of a document that asks for it. -/
def SchemaFault.erased : SchemaFault → SchemaFault
  | unsupportedSchema _ reason => unsupportedSchema .null reason
  | unsupportedType _ => unsupportedType .null
  | unsupportedEnum _ => unsupportedEnum .null
  | other => other

/-- A fault without the part of a document that it shows: its kind, its reason and its place. -/
def Fault.erased : Fault → Fault
  | schema cause path => schema cause.erased path
  | malformed cause => malformed cause

namespace Faulting

variable {σ α β γ δ : Type} {R : α → β → Prop} {S : γ → δ → Prop}

/-- Results that are both related values, or both faults that differ in the part of a document alone. -/
inductive Matching (R : α → β → Prop) : Except Fault α → Except Fault β → Prop where
  | ok {a : α} {b : β} : R a b → Matching R (.ok a) (.ok b)
  | error {fault other : Fault} : fault.erased = other.erased → Matching R (.error fault) (.error other)

/-- Every result matches itself. -/
theorem Matching.refl {R : α → α → Prop} (h : ∀ a, R a a) (result : Except Fault α) :
    Matching R result result := by
  cases result with
  | ok a => exact .ok (h a)
  | error fault => exact .error rfl

/-- Results made from results that match. -/
theorem Matching.map {result : Except Fault α} {other : Except Fault β} {f : α → γ} {g : β → δ}
    (h : Matching R result other) (hmap : ∀ a b, R a b → S (f a) (g b)) :
    Matching S (result.map f) (other.map g) := by
  cases h with
  | ok hab => exact .ok (hmap _ _ hab)
  | error herased => exact .error herased

/-- Computations that end in the same state, with results that match. -/
def Lockstep (R : α → β → Prop) (first : ExceptT Fault (StateM σ) α)
    (second : ExceptT Fault (StateM σ) β) : Prop :=
  ∀ state, (first.run state).2 = (second.run state).2 ∧
    Matching R (first.run state).1 (second.run state).1

namespace Lockstep

/-- A computation runs in lockstep with itself. -/
theorem refl {R : α → α → Prop} (h : ∀ a, R a a) (action : ExceptT Fault (StateM σ) α) :
    Lockstep R action action :=
  fun state => ⟨rfl, .refl h (action.run state).1⟩

/-- Finished computations with related results. -/
theorem pure {a : α} {b : β} (h : R a b) :
    Lockstep R (Pure.pure a : ExceptT Fault (StateM σ) α) (Pure.pure b) :=
  fun _ => ⟨rfl, .ok h⟩

/-- Computations that have stopped with faults that match. -/
theorem throw {fault other : Fault} (h : fault.erased = other.erased) :
    Lockstep R (MonadExcept.throw fault : ExceptT Fault (StateM σ) α) (MonadExcept.throw other) :=
  fun _ => ⟨rfl, .error h⟩

/-- Results from elsewhere that match. -/
theorem lift {result : Except Fault α} {other : Except Fault β} (h : Matching R result other) :
    Lockstep R (liftM result : ExceptT Fault (StateM σ) α) (liftM other) := by
  intro state
  rw [run_lift, run_lift]
  exact ⟨rfl, h⟩

/-- Sequences run in lockstep if their parts do. -/
theorem bind {first : ExceptT Fault (StateM σ) α} {second : ExceptT Fault (StateM σ) β}
    {next : α → ExceptT Fault (StateM σ) γ} {other : β → ExceptT Fault (StateM σ) δ}
    (h : Lockstep R first second) (hnext : ∀ a b, R a b → Lockstep S (next a) (other b)) :
    Lockstep S (first >>= next) (second >>= other) := by
  intro state
  obtain ⟨hstate, hmatch⟩ := h state
  rw [run_bind, run_bind]
  rcases hfirst : first.run state with ⟨result, middle⟩
  rcases hsecond : second.run state with ⟨result', middle'⟩
  rw [hfirst, hsecond] at hstate hmatch
  cases hstate
  cases hmatch with
  | ok hab => exact hnext _ _ hab middle
  | error herased => exact ⟨rfl, .error herased⟩

/-- Sequences that begin alike run in lockstep if they go on so. -/
theorem bind_same {first : ExceptT Fault (StateM σ) α} {next : α → ExceptT Fault (StateM σ) γ}
    {other : α → ExceptT Fault (StateM σ) δ} (h : ∀ a, Lockstep S (next a) (other a)) :
    Lockstep S (first >>= next) (first >>= other) :=
  (refl (R := Eq) (fun _ => rfl) first).bind fun a _ heq => heq ▸ h a

end Lockstep

end Faulting

end SchemaTypes
