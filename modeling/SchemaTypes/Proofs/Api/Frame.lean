import SchemaTypes.Api.Operation
import SchemaTypes.Proofs.Api.Scratch

/-!
# The overlay outside the scratch area

The overlay differs from the document by the scratch area alone. A path leads to the same place in both, or
to nothing in both, whatever has been put aside: so it does at every point of the walk over the operations and
of the declarations after it. The exceptions are the paths into the scratch area, and those to the component
schemas, to the components and to the whole document, which hold the scratch area.

The overlay makes components and component schemas where the document has none. Nothing is found below them
but the scratch area, as nothing is found below a member that is missing or null.
-/

namespace SchemaTypes

namespace Members

/-- A member that is missing, null or an object. -/
def MissingOrObject (name : Text) (members : Members) : Prop :=
  members.field? name = none ∨ members.field? name = some .null ∨
    ∃ object, members.field? name = some (.object object)

variable {members object : Members} {name : Text}

/-- The object under a name is the value of the member. -/
theorem inner_of_object (h : members.field? name = some (.object object)) : members.inner name = object := by
  rw [inner, h]

/-- There is no object under a name that is missing. -/
theorem inner_of_missing (h : members.field? name = none) : members.inner name = [] := by
  rw [inner, h]

/-- There is no object under a name whose member is null. -/
theorem inner_of_null (h : members.field? name = some .null) : members.inner name = [] := by
  rw [inner, h]

end Members

namespace Pointer

variable {members : Members} {name : Text} {rest : List Text} {v : Value}

/-- A path that starts with a member goes on from its value. -/
theorem find?_of_field? (h : members.field? name = some v) :
    find? (.object members) (name :: rest) = find? v rest := by
  rw [Members.field?_eq_get?] at h
  simp [find?, follow, step, h, bind, Except.bind]

/-- A path that starts with a missing member leads to nothing. -/
theorem find?_of_field?_none (h : members.field? name = none) :
    find? (.object members) (name :: rest) = .ok none := by
  rw [Members.field?_eq_get?] at h
  simp [find?, follow, step, h, bind, Except.bind, pure, Except.pure]

/-- A path does not depend on the members that it does not start with. -/
theorem find?_congr {others : Members} (h : members.field? name = others.field? name) :
    find? (.object members) (name :: rest) = find? (.object others) (name :: rest) := by
  cases hfield : others.field? name with
  | none => rw [find?_of_field?_none (h.trans hfield), find?_of_field?_none hfield]
  | some v => rw [find?_of_field? (h.trans hfield), find?_of_field? hfield]

/-- A path leads below a member that was set. -/
theorem find?_insert_self : find? (.object (members.insert (.text name) v)) (name :: rest) = find? v rest := by
  apply find?_of_field?
  rw [Members.field?_insert, if_pos rfl]

/-- A path that starts with another member leads where it led before one was set. -/
theorem find?_insert_of_ne {other : Text} (hne : other ≠ name) :
    find? (.object (members.insert (.text name) v)) (other :: rest) = find? (.object members) (other :: rest) := by
  apply find?_congr
  rw [Members.field?_insert, if_neg hne]

/-- A path of several segments leads below the object under its first one, and to nothing if there is none. -/
theorem find?_inner (h : members.MissingOrObject name) (hrest : rest ≠ []) :
    find? (.object members) (name :: rest) = find? (.object (members.inner name)) rest := by
  obtain ⟨second, others, rfl⟩ := List.exists_cons_of_ne_nil hrest
  have hnone : find? (.object []) (second :: others) = .ok none := find?_of_field?_none rfl
  rcases h with hmissing | hnull | ⟨object, hobject⟩
  · rw [find?_of_field?_none hmissing, Members.inner_of_missing hmissing, hnone]
  · rw [find?_of_field? hnull, Members.inner_of_null hnull, hnone]
    rfl
  · rw [find?_of_field? hobject, Members.inner_of_object hobject]

end Pointer

namespace Api

namespace Scratch

/-- The names of the parts of the scratch area among the component schemas. -/
def keys : List Text := [requestBodiesKey, responsesKey, parametersKey]

end Scratch

/-- Documents whose components and component schemas are missing, null or objects. -/
structure Openable (document : Members) : Prop where
  components : document.MissingOrObject "components"
  schemas : (document.inner "components").MissingOrObject "schemas"

/-- Paths to what holds the scratch area, and into it. -/
def ReachesScratch (path : List Text) : Prop :=
  path ∈ ([[], ["components"], ["components", "schemas"]] : List (List Text)) ∨
    ∃ key ∈ Scratch.keys, [("components" : Text), "schemas", key] <+: path

instance : DecidablePred ReachesScratch := fun path =>
  inferInstanceAs (Decidable (path ∈ ([[], ["components"], ["components", "schemas"]] : List (List Text)) ∨
    ∃ key ∈ Scratch.keys, [("components" : Text), "schemas", key] <+: path))

namespace Overlay

/-- The object under a name is opened, and an empty one if there is none. -/
theorem toMembers_fieldOrNull {members : Members} {name : Text} (h : members.MissingOrObject name) :
    ((members.fieldOrNull name).orElse (.object [])).toMembers = .ok (members.inner name) := by
  rw [Members.fieldOrNull]
  rcases h with hmissing | hnull | ⟨object, hobject⟩
  · rw [hmissing, Members.inner_of_missing hmissing]
    rfl
  · rw [hnull, Members.inner_of_null hnull]
    rfl
  · rw [hobject, Members.inner_of_object hobject]
    cases object <;> rfl

/-- A document whose components and component schemas are missing, null or objects is opened. -/
theorem ofDocument_eq {document : Members} (h : Openable document) :
    ofDocument (.object document) =
      .ok ⟨document, document.inner "components", (document.inner "components").inner "schemas"⟩ := by
  unfold ofDocument
  change (do
    let components ← ((document.fieldOrNull "components").orElse (.object [])).toMembers
    let schemas ← ((components.fieldOrNull "schemas").orElse (.object [])).toMembers
    return (⟨document, components, schemas⟩ : Overlay)) = _
  rw [toMembers_fieldOrNull h.components]
  change (do
    let schemas ← (((document.inner "components").fieldOrNull "schemas").orElse (.object [])).toMembers
    return (⟨document, document.inner "components", schemas⟩ : Overlay)) = _
  rw [toMembers_fieldOrNull h.schemas]
  rfl

/-- The component schemas of the overlay are those of the document outside the scratch area. -/
theorem find?_schemas_of_not_mem {schemas : Members} {name : Text} (scratch : Scratch) (rest : List Text)
    (h : name ∉ Scratch.keys) :
    Pointer.find? (.object (schemas.insertAll scratch.members)) (name :: rest) =
      Pointer.find? (.object schemas) (name :: rest) := by
  simp only [Scratch.keys, List.mem_cons, List.not_mem_nil, or_false, not_or] at h
  obtain ⟨hbodies, hresponses, hparameters⟩ := h
  rw [Scratch.members, Members.insertAll, List.foldl_cons, List.foldl_cons, List.foldl_cons, List.foldl_nil,
    Pointer.find?_insert_of_ne hparameters, Pointer.find?_insert_of_ne hresponses,
    Pointer.find?_insert_of_ne hbodies]

/-- The components of the overlay are those of the document, but for the schemas and the scratch area. -/
theorem find?_components {components : Members} (h : components.MissingOrObject "schemas") (scratch : Scratch)
    {path : List Text} (hpath : ¬ ReachesScratch ("components" :: path)) :
    Pointer.find? (.object (components.insert (.text "schemas")
        (.object ((components.inner "schemas").insertAll scratch.members)))) path =
      Pointer.find? (.object components) path := by
  cases path with
  | nil => exact absurd (Or.inl (by simp)) hpath
  | cons name rest =>
    by_cases hname : name = "schemas"
    · subst hname
      cases rest with
      | nil => exact absurd (Or.inl (by simp)) hpath
      | cons key rest =>
        have hkey : key ∉ Scratch.keys := fun hmem => hpath (Or.inr ⟨key, hmem, by simp⟩)
        rw [Pointer.find?_insert_self, Pointer.find?_inner h (List.cons_ne_nil key rest),
          find?_schemas_of_not_mem scratch rest hkey]
    · rw [Pointer.find?_insert_of_ne hname]

/-- The overlay is the document, but for the components, the schemas and the scratch area. -/
theorem find?_document {document : Members} (h : Openable document) (scratch : Scratch) {path : List Text}
    (hpath : ¬ ReachesScratch path) :
    Pointer.find? (value ⟨document, document.inner "components", (document.inner "components").inner "schemas"⟩
      scratch) path = Pointer.find? (.object document) path := by
  cases path with
  | nil => exact absurd (Or.inl List.mem_cons_self) hpath
  | cons name rest =>
    unfold value
    by_cases hname : name = "components"
    · subst hname
      have hrest : rest ≠ [] := by
        rintro rfl
        exact hpath (Or.inl (by simp))
      rw [Pointer.find?_insert_self, Pointer.find?_inner h.components hrest]
      exact find?_components h.schemas scratch hpath
    · exact Pointer.find?_insert_of_ne hname

end Overlay

/-- The overlay of a document adds the scratch area and nothing else. A document whose components and component
schemas are missing, null or objects is opened. Whatever is put aside, at every point of the walk over the
operations and of the declarations after it, a path leads to the same place in the overlay and in the document,
or to nothing in both, unless it leads into the scratch area or to the component schemas, the components or the
document, which hold it. -/
theorem overlay_adds_scratch {document : Members} (h : Openable document) :
    ∃ overlay, Overlay.ofDocument (.object document) = .ok overlay ∧
      ∀ (state : State) (path : List Text), ¬ ReachesScratch path →
        Pointer.find? (overlay.value state.scratch) path = Pointer.find? (.object document) path := by
  exact ⟨_, Overlay.ofDocument_eq h, fun state _ hpath => Overlay.find?_document h state.scratch hpath⟩

/-- A document with a schema. -/
def schemaDocument : Members :=
  [(.text "components", .record [("schemas", .record [("Pet", .record [("type", .text "string")])])])]

/-- A part of a schema of the document is found in the overlay, also after a parameter of the same name was put
aside. -/
theorem overlay_adds_scratch_schema :
    Openable schemaDocument ∧ ¬ ReachesScratch ["components", "schemas", "Pet", "type"] ∧
      ∃ overlay, Overlay.ofDocument (.object schemaDocument) = .ok overlay ∧
        Pointer.find? (overlay.value (Scratch.empty.addParameter "Pet" (.bool true)))
          ["components", "schemas", "Pet", "type"] = .ok (some (.text "string")) := by
  have hopenable : Openable schemaDocument := ⟨Or.inr (Or.inr ⟨_, rfl⟩), Or.inr (Or.inr ⟨_, rfl⟩)⟩
  have hpath : ¬ ReachesScratch ["components", "schemas", "Pet", "type"] := by decide
  obtain ⟨overlay, hoverlay, hfind⟩ := overlay_adds_scratch hopenable
  refine ⟨hopenable, hpath, overlay, hoverlay, ?_⟩
  exact hfind ⟨.empty, Scratch.empty.addParameter "Pet" (.bool true), [], []⟩ _ hpath

/-- A document without components. -/
def versionDocument : Members := [(.text "openapi", .text "3.0.0")]

/-- The whole overlay is not the whole document, even before anything is put aside: it has components. -/
theorem overlay_whole_differs :
    Openable versionDocument ∧
      ¬ [] ∈ ([["components"], ["components", "schemas"]] : List (List Text)) ∧
      (¬ ∃ key ∈ Scratch.keys, [("components" : Text), "schemas", key] <+: []) ∧
      ∃ overlay, Overlay.ofDocument (.object versionDocument) = .ok overlay ∧
        Pointer.find? (overlay.value .empty) [] ≠ Pointer.find? (.object versionDocument) [] := by
  have hopenable : Openable versionDocument := ⟨Or.inl rfl, Or.inl rfl⟩
  refine ⟨hopenable, by decide, by decide, _, Overlay.ofDocument_eq hopenable, fun hsame => ?_⟩
  have hvalue := Option.some.inj (Except.ok.inj hsame)
  have hmembers := congrArg List.length (Value.object.inj hvalue)
  exact absurd hmembers (by decide)

end Api

end SchemaTypes
