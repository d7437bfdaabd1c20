import SchemaTypes.Proofs.Schema.Discovery
import SchemaTypes.Proofs.Schema.References

/-!
# Building does not depend on what was built before

An action that explores has one outcome for all states and all places, but for the place that its
faults are reported at. Two such actions over one state can therefore change places: each keeps its
outcome, and since both only add what they visit, the same references are known in the end.
-/

namespace SchemaTypes

namespace Build.Explores

variable {α β : Type}

/-- The outcome of an action shows neither the state it starts in nor, apart from the place of its
fault, the place it is given. -/
theorem outcome_eq {action : Option Text → Build α} {paths : List (List Text)}
    (h : Explores action paths) (place other : Option Text) (d e : Discovery) :
    ((action place).run d).1.mapError (Fault.reportedAt none) =
      ((action other).run e).1.mapError (Fault.reportedAt none) := by
  obtain ⟨outcome, visited, -, -, hrun⟩ := h
  rw [hrun place d, hrun other e]
  cases outcome with
  | ok a => rfl
  | error fault => cases fault <;> rfl

/-- At one place the outcome of an action is the same in every state. -/
theorem run_fst_eq {action : Option Text → Build α} {paths : List (List Text)}
    (h : Explores action paths) (place : Option Text) (d e : Discovery) :
    ((action place).run d).1 = ((action place).run e).1 := by
  obtain ⟨outcome, visited, -, -, hrun⟩ := h
  rw [hrun place d, hrun place e]

/-- After two actions that succeed, the same references are known in either order. -/
theorem mem_keys_swap {first : Option Text → Build α} {second : Option Text → Build β}
    {before after : List (List Text)} (hfirst : Explores first before)
    (hsecond : Explores second after) {place : Option Text} {d : Discovery} {a : α} {b : β}
    (ha : ((first place).run d).1 = .ok a) (hb : ((second place).run d).1 = .ok b) (key : Text) :
    key ∈ ((second place).run ((first place).run d).2).2.keys ↔
      key ∈ ((first place).run ((second place).run d).2).2.keys := by
  have hfirst_run := hfirst.run_of_ok (Prod.ext ha rfl) place
  have hsecond_run := hsecond.run_of_ok (Prod.ext hb rfl) place
  simp only [hfirst_run, hsecond_run, Discovery.mem_keys_addAll]
  exact or_right_comm

end Build.Explores

namespace Schema

open Build

/-- What two schemas give when their types are built one after the other over one state, whether or
not the first ones can be built, and what is discovered in the end. -/
structure InTurn where
  first : Except Fault (List TypeExpr)
  second : Except Fault (List TypeExpr)
  discovery : Discovery

/-- Build the types of two schemas one after the other. -/
def typesInTurn (scope : Scope) (first second : Value) (d : Discovery) : InTurn :=
  let (outcome, middle) := (types scope first).run d
  let (other, final) := (types scope second).run middle
  ⟨outcome, other, final⟩

/-- The types of a schema are the same in every state of discovery and at every place, and where they
cannot be built the fault is the same but for its place. So two schemas that are built one after the
other over one state have the same outcomes in either order, and the same references are known in the
end if both succeed. -/
theorem types_history_independent (naming : Naming) (rootName : Option Value) :
    (∀ (schema : Value) (place other : Option Text) (d e : Discovery),
      ((types ⟨naming, rootName, place⟩ schema).run d).1.mapError (Fault.reportedAt none) =
        ((types ⟨naming, rootName, other⟩ schema).run e).1.mapError (Fault.reportedAt none)) ∧
      ∀ (first second : Value) (place : Option Text) (d : Discovery),
        let forth := typesInTurn ⟨naming, rootName, place⟩ first second d
        let back := typesInTurn ⟨naming, rootName, place⟩ second first d
        forth.first = back.second ∧ forth.second = back.first ∧
          ∀ ts us, forth.first = .ok ts → forth.second = .ok us →
            ∀ key, key ∈ forth.discovery.keys ↔ key ∈ back.discovery.keys := by
  have hexplores (place : Option Text) (schema : Value) :
      Explores (fun place => types ⟨naming, rootName, place⟩ schema) (references schema) :=
    types_explores ⟨naming, rootName, place⟩ schema
  refine ⟨fun schema place other => (hexplores place schema).outcome_eq place other,
    fun first second place d => ?_⟩
  have hfirst := hexplores place first
  have hsecond := hexplores place second
  refine ⟨hfirst.run_fst_eq place _ _, hsecond.run_fst_eq place _ _, fun ts us hts hus => ?_⟩
  exact hfirst.mem_keys_swap hsecond hts ((hsecond.run_fst_eq place _ _).trans hus)

/-- A schema that refers to one definition. -/
def leafSchema : Value := .record [("$ref", .text "#/definitions/leaf")]

/-- A schema that refers to two definitions, one of them known from the other schema. -/
def nodeSchema : Value :=
  .record [("oneOf", .list [.record [("$ref", .text "#/definitions/node")], leafSchema])]

/-- Two schemas that refer to the same definition discover the same references in either order, though
not in the same order. -/
theorem types_history_independent_leafNode :
    let forth := typesInTurn ⟨.standard, none, none⟩ leafSchema nodeSchema .empty
    let back := typesInTurn ⟨.standard, none, none⟩ nodeSchema leafSchema .empty
    (∃ ts us, forth.first = .ok ts ∧ forth.second = .ok us) ∧
      (∀ key, key ∈ forth.discovery.keys ↔ key ∈ back.discovery.keys) ∧
      forth.discovery.keys ≠ back.discovery.keys := by
  obtain ⟨ts, hts⟩ :
      ∃ ts, (typesInTurn ⟨.standard, none, none⟩ leafSchema nodeSchema .empty).first = .ok ts :=
    Faulting.exists_eq_ok (by decide +kernel)
  obtain ⟨us, hus⟩ :
      ∃ us, (typesInTurn ⟨.standard, none, none⟩ leafSchema nodeSchema .empty).second = .ok us :=
    Faulting.exists_eq_ok (by decide +kernel)
  obtain ⟨-, -, hkeys⟩ :=
    (types_history_independent .standard none).2 leafSchema nodeSchema none .empty
  exact ⟨⟨ts, us, hts, hus⟩, hkeys ts us hts hus, by decide +kernel⟩

end Schema

end SchemaTypes
