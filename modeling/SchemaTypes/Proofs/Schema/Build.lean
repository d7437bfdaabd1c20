import SchemaTypes.Proofs.Faulting
import SchemaTypes.Schema.Discovery

/-!
# What building does to the discovered references

Building never looks at what was discovered before. An action therefore has one outcome and one
list of visited paths, whatever state it starts in, and what it leaves behind is that state with
the visited paths remembered one after the other. The place that faults are reported at shows in
the faults alone.

`Explores` says this of an action, together with the paths that it visits if it succeeds. `Yields`
is the plain statement about results: whatever the action returns has a property. `Accepts` says
when there is a result.
-/

namespace SchemaTypes

/-- The same fault, reported at the given place. A malformed value has no place. -/
def Fault.reportedAt (place : Option Text) : Fault → Fault
  | schema cause _ => schema cause place
  | malformed cause => malformed cause

/-- A fault that is reported at a place has that place. -/
theorem Fault.place_eq_of_mapError {α : Type} {outcome : Except Fault α} {place other : Option Text}
    {cause : SchemaFault} (h : outcome.mapError (reportedAt place) = .error (schema cause other)) :
    other = place := by
  cases outcome with
  | ok a => cases h
  | error fault =>
    cases fault with
    | malformed cause => cases h
    | schema cause own =>
      cases h
      rfl

/-- Remember several paths, one after the other. -/
def Discovery.addAll (d : Discovery) (paths : List (List Text)) : Discovery := paths.foldl add d

/-- Remembering no path changes nothing. -/
@[simp]
theorem Discovery.addAll_nil (d : Discovery) : d.addAll [] = d := rfl

/-- Two lists of paths are remembered one after the other. -/
theorem Discovery.addAll_append (d : Discovery) (first second : List (List Text)) :
    d.addAll (first ++ second) = (d.addAll first).addAll second := List.foldl_append

namespace Build

open Faulting

variable {α β : Type}

/-- An action, given for each place of faults, that visits the given paths if it succeeds and some
of the first of them otherwise, in every state with the same outcome. -/
def Explores (action : Option Text → Build α) (paths : List (List Text)) : Prop :=
  ∃ (outcome : Except Fault α) (visited : List (List Text)),
    visited <+: paths ∧ (∀ a, outcome = .ok a → visited = paths) ∧
      ∀ place d, (action place).run d =
        (outcome.mapError (Fault.reportedAt place), d.addAll visited)

/-- An action whose results have a property. -/
def Yields (action : Build α) (property : α → Prop) : Prop :=
  ∀ d a d', action.run d = (.ok a, d') → property a

/-- An action that succeeds under a condition and only then, in every state alike. -/
def Accepts (action : Build α) (condition : Prop) : Prop :=
  ∀ d, (∃ a d', action.run d = (.ok a, d')) ↔ condition

namespace Explores

/-- A finished action visits nothing. -/
theorem pure (a : α) : Explores (fun _ => Pure.pure a) [] :=
  ⟨.ok a, [], List.prefix_rfl, fun _ _ => rfl, fun _ _ => rfl⟩

/-- A fault visits the beginning of any list of paths, which is nothing. -/
theorem throw (fault : Fault) (paths : List (List Text)) :
    Explores (fun place => (MonadExcept.throw (fault.reportedAt place) : Build α)) paths :=
  ⟨.error fault, [], List.nil_prefix, nofun, fun _ _ => rfl⟩

/-- A result from elsewhere that depends on the place in its faults alone visits nothing. -/
theorem lift {result : Option Text → Except Fault α} (outcome : Except Fault α)
    (h : ∀ place, result place = outcome.mapError (Fault.reportedAt place)) :
    Explores (fun place => (liftM (result place) : Build α)) [] :=
  ⟨outcome, [], List.prefix_rfl, fun _ _ => rfl, fun place d => by simp [h place]⟩

/-- A sequence visits what its first action visits and then what its second one does. -/
theorem bind {first : Option Text → Build α} {second : Option Text → α → Build β}
    {before after : List (List Text)} (hfirst : Explores first before)
    (hsecond : ∀ a, Explores (fun place => second place a) after) :
    Explores (fun place => first place >>= second place) (before ++ after) := by
  obtain ⟨outcome, visited, hfront, hall, hrun⟩ := hfirst
  cases outcome with
  | error fault =>
    refine ⟨.error fault, visited, hfront.trans (List.prefix_append _ _),
      nofun, fun place d => ?_⟩
    rw [run_bind, hrun place d]
    rfl
  | ok a =>
    obtain ⟨outcome, visited', hfront', hall', hrun'⟩ := hsecond a
    have hvisited : visited = before := hall a rfl
    refine ⟨outcome, visited ++ visited', ?_, ?_, fun place d => ?_⟩
    · rw [hvisited]
      exact List.prefix_append_right_inj _ |>.mpr hfront'
    · intro b hb
      rw [hvisited, hall' b hb]
    · rw [run_bind, hrun place d, Discovery.addAll_append]
      exact hrun' place (d.addAll visited)

/-- Finishing with a value made from the result visits nothing more. -/
theorem map {action : Option Text → Build α} {paths : List (List Text)}
    (h : Explores action paths) (f : α → β) :
    Explores (fun place => action place >>= fun a => Pure.pure (f a)) paths := by
  simpa only [List.append_nil] using h.bind fun a => Explores.pure (f a)

/-- An action that succeeds once succeeds everywhere, with the same result. -/
theorem run_of_ok {action : Option Text → Build α} {paths : List (List Text)}
    (h : Explores action paths) {place : Option Text} {d d' : Discovery} {a : α}
    (hrun : (action place).run d = (.ok a, d')) (other : Option Text) (e : Discovery) :
    (action other).run e = (.ok a, e.addAll paths) := by
  obtain ⟨outcome, visited, -, hall, hruns⟩ := h
  have hresult : outcome.mapError (Fault.reportedAt place) = .ok a :=
    congrArg Prod.fst ((hruns place d).symm.trans hrun)
  cases outcome with
  | error fault => cases hresult
  | ok b =>
    cases hresult
    rw [hruns other e, hall a rfl]
    rfl

end Explores

namespace Yields

/-- A finished action yields its value. -/
theorem pure {a : α} {property : α → Prop} (h : property a) :
    Yields (Pure.pure a) property := by
  intro d b d' hrun
  cases hrun
  exact h

/-- A fault yields nothing. -/
theorem throw (fault : Fault) (property : α → Prop) :
    Yields (MonadExcept.throw fault : Build α) property := by
  intro d a d' hrun
  cases hrun

/-- A result from elsewhere yields its value if it has one. -/
theorem lift {result : Except Fault α} {property : α → Prop}
    (h : ∀ a, result = .ok a → property a) : Yields (liftM result : Build α) property := by
  intro d a d' hrun
  rw [run_lift] at hrun
  cases hrun
  exact h a rfl

/-- What the second action of a sequence yields may depend on what the first one yields. -/
theorem bind {first : Build α} {second : α → Build β} {property : α → Prop} {result : β → Prop}
    (hfirst : Yields first property) (hsecond : ∀ a, property a → Yields (second a) result) :
    Yields (first >>= second) result := by
  intro d b d' hrun
  obtain ⟨a, middle, hrun₁, hrun₂⟩ := run_bind_ok hrun
  exact hsecond a (hfirst d a middle hrun₁) middle b d' hrun₂

/-- What is yielded has every property that follows. -/
theorem mono {action : Build α} {property other : α → Prop} (h : Yields action property)
    (himp : ∀ a, property a → other a) : Yields action other :=
  fun d a d' hrun => himp a (h d a d' hrun)

/-- Every result has a property that holds of all values. -/
theorem of_forall {action : Build α} {property : α → Prop} (h : ∀ a, property a) :
    Yields action property := fun _ a _ _ => h a

end Yields

namespace Accepts

/-- A finished action succeeds. -/
theorem pure (a : α) : Accepts (Pure.pure a) True :=
  fun d => ⟨fun _ => trivial, fun _ => ⟨a, d, rfl⟩⟩

/-- A fault is no success. -/
theorem throw (fault : Fault) : Accepts (MonadExcept.throw fault : Build α) False := by
  intro d
  refine ⟨?_, False.elim⟩
  rintro ⟨a, d', hrun⟩
  cases hrun

/-- A result from elsewhere succeeds if it is a value. -/
theorem lift {result : Except Fault α} {condition : Prop} (h : (∃ a, result = .ok a) ↔ condition) :
    Accepts (liftM result : Build α) condition := by
  intro d
  rw [← h]
  constructor
  · rintro ⟨a, d', hrun⟩
    rw [run_lift] at hrun
    exact ⟨a, congrArg Prod.fst hrun⟩
  · rintro ⟨a, rfl⟩
    exact ⟨a, d, run_lift (.ok a) d⟩

/-- A condition may be replaced by an equivalent one. -/
theorem congr {action : Build α} {condition other : Prop} (h : Accepts action condition)
    (hiff : condition ↔ other) : Accepts action other :=
  fun d => (h d).trans hiff

/-- A sequence succeeds if its first action does and its second one does with every result of the
first. -/
theorem bind_of_yields {first : Build α} {second : α → Build β} {condition further : Prop}
    {property : α → Prop} (hfirst : Accepts first condition) (hyields : Yields first property)
    (hsecond : ∀ a, property a → Accepts (second a) further) :
    Accepts (first >>= second) (condition ∧ further) := by
  intro d
  constructor
  · rintro ⟨b, d', hrun⟩
    obtain ⟨a, middle, hrun₁, hrun₂⟩ := run_bind_ok hrun
    exact ⟨(hfirst d).mp ⟨a, middle, hrun₁⟩,
      (hsecond a (hyields d a middle hrun₁) middle).mp ⟨b, d', hrun₂⟩⟩
  · rintro ⟨hcondition, hfurther⟩
    obtain ⟨a, middle, hrun₁⟩ := (hfirst d).mpr hcondition
    obtain ⟨b, d', hrun₂⟩ := (hsecond a (hyields d a middle hrun₁) middle).mpr hfurther
    refine ⟨b, d', ?_⟩
    rw [run_bind, hrun₁]
    exact hrun₂

/-- A sequence of actions that do not depend on each other succeeds if both do. -/
theorem bind {first : Build α} {second : α → Build β} {condition further : Prop}
    (hfirst : Accepts first condition) (hsecond : ∀ a, Accepts (second a) further) :
    Accepts (first >>= second) (condition ∧ further) :=
  hfirst.bind_of_yields (Yields.of_forall fun _ => trivial) fun a (_ : True) => hsecond a

/-- A sequence whose second action always succeeds does if the first one does. -/
theorem bind_true {first : Build α} {second : α → Build β} {condition : Prop}
    (hfirst : Accepts first condition) (hsecond : ∀ a, Accepts (second a) True) :
    Accepts (first >>= second) condition :=
  (hfirst.bind hsecond).congr (iff_of_eq (and_true condition))

/-- Finishing with a value made from the result succeeds whenever there is a result. -/
theorem map {action : Build α} {condition : Prop} (h : Accepts action condition) (f : α → β) :
    Accepts (action >>= fun a => Pure.pure (f a)) condition :=
  h.bind_true fun a => Accepts.pure (f a)

end Accepts

end Build

end SchemaTypes
