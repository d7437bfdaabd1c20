import SchemaTypes.Proofs.Schema.Types
import Mathlib.Tactic.SplitIfs

/-!
# How a schema is read

An object is read by one keyword: the first of `$ref`, `const`, `enum` and `type` that it has, and
without any of these the one combinator that it has. The keyword decides which inner schemas are
visited. Those of properties and pattern properties are where the type may be an object, those of
items where it may be an array of some length, and those of branches under a combinator.
-/

namespace SchemaTypes

namespace Schema

/-- None of the keywords is a member. -/
def Lacks (keywords : List Text) (members : Members) : Prop :=
  ∀ keyword ∈ keywords, members.has keyword = false

/-- The keyword that an object is read by. -/
def Decides (members : Members) : Shape → Prop
  | .boolean => False
  | .reference => members.has "$ref" = true
  | .const => Lacks ["$ref"] members ∧ members.has "const" = true
  | .enum => Lacks ["$ref", "const"] members ∧ members.has "enum" = true
  | .typed => Lacks ["$ref", "const", "enum"] members ∧ members.has "type" = true
  | .combined c => Lacks ["$ref", "const", "enum", "type"] members ∧
      ∀ other : Combinator, members.has other.keyword = true ↔ other = c

/-- Whether a word is among the tags of an object. -/
def hasTag (word : Text) (members : Members) : Bool :=
  (tags (members.fieldOrNull "type")).any (isTag word)

/-- The schemas by name that a member holds. -/
def namedSchemas (name : Text) (members : Members) : Members :=
  match members.field? name with
  | some (.object schemas) => schemas
  | _ => []

/-- The schemas for the items of an array. -/
def itemSchemas (members : Members) : List Value :=
  match members.field? "items" with
  | none => []
  | some (.list schemas) => schemas
  | some schema => [schema]

/-- The branches of a combinator. -/
def branchSchemas (c : Combinator) (members : Members) : List Value :=
  match members.field? c.keyword with
  | some (.list branches) => branches
  | _ => []

/-- The inner schemas that are visited in an object, by the keyword that it is read by. -/
def parts (members : Members) : Shape → List Value
  | .typed =>
    (if hasTag "object" members then
      (namedSchemas "properties" members ++ namedSchemas "patternProperties" members).map (·.2)
    else []) ++
      if hasTag "array" members && !unsatisfiable members then itemSchemas members else []
  | .combined c => branchSchemas c members
  | _ => []

/-- One combinator is picked out if it is the only one with a property. -/
theorem filter_all_eq_singleton_iff (p : Combinator → Bool) (c : Combinator) :
    Combinator.all.filter p = [c] ↔ ∀ other, p other = true ↔ other = c := by
  constructor
  · intro h other
    have hall : other ∈ Combinator.all := by cases other <;> decide
    have hmem : other ∈ Combinator.all.filter p ↔ other ∈ [c] := by rw [h]
    simpa [hall] using hmem
  · intro h
    have honeOf := h .oneOf
    have hanyOf := h .anyOf
    have hallOf := h .allOf
    cases c <;> simp_all [Combinator.all]

/-- The shape of an object is the one that its keywords decide. -/
theorem ofMembers_eq_ok_iff (members : Members) (shape : Shape) :
    Shape.ofMembers members = .ok shape ↔ Decides members shape := by
  rw [Shape.ofMembers]
  split_ifs with href hconst henum htype
  · cases shape <;> simp [Decides, Lacks, href]
  · cases shape <;> simp_all [Decides, Lacks]
  · cases shape <;> simp_all [Decides, Lacks]
  · cases shape <;> simp_all [Decides, Lacks]
  · have hlacks : Lacks ["$ref", "const", "enum", "type"] members := by simp_all [Lacks]
    have honly := filter_all_eq_singleton_iff fun c => members.has c.keyword
    cases shape with
    | combined c =>
      rw [Decides, ← honly c]
      generalize Combinator.all.filter (fun c => members.has c.keyword) = found
      rcases found with _ | ⟨d, _ | ⟨e, rest⟩⟩ <;> simp [hlacks]
    | _ => split <;> simp_all [Decides]

/-- A tag is a word if it is the text. -/
theorem isTag_iff (word : Text) (tag : Value) : isTag word tag = true ↔ tag = .text word := by
  rcases tag with s | items | members
  · cases s <;> simp [isTag, Scalar.isText]
  · simp [isTag]
  · simp [isTag]

/-- A word is among the tags if its text is. -/
theorem hasTag_iff (word : Text) (members : Members) :
    hasTag word members = true ↔ .text word ∈ tags (members.fieldOrNull "type") := by
  simp [hasTag, isTag_iff]

/-- What is visited for a `type` keyword: properties and pattern properties of objects, and items of
arrays of some length. -/
theorem mem_parts_typed_iff {members : Members} {part : Value} :
    part ∈ parts members .typed ↔
      (hasTag "object" members = true ∧
        ∃ property ∈ namedSchemas "properties" members ++ namedSchemas "patternProperties" members,
          property.2 = part) ∨
      (hasTag "array" members = true ∧ unsatisfiable members = false ∧ part ∈ itemSchemas members) := by
  rw [parts, List.mem_append]
  apply or_congr
  · split_ifs with hobject
    · rw [List.mem_map]
      simp [hobject]
    · simp [hobject]
  · by_cases harray : hasTag "array" members <;> by_cases hbounds : unsatisfiable members <;>
      simp [harray, hbounds]

/-- A schema that a member holds by name is smaller than the object. -/
theorem sizeOf_namedSchemas_lt {name : Text} {members : Members} {property : Scalar × Value}
    (h : property ∈ namedSchemas name members) : sizeOf property.2 < sizeOf (Value.object members) := by
  rw [namedSchemas] at h
  split at h
  · rename_i hfield
    exact Value.sizeOf_property_lt hfield h
  · cases h

/-- A schema for items is smaller than the object. -/
theorem sizeOf_itemSchemas_lt {members : Members} {part : Value} (h : part ∈ itemSchemas members) :
    sizeOf part < sizeOf (Value.object members) := by
  rw [itemSchemas] at h
  split at h
  · cases h
  · rename_i hfield
    exact Value.sizeOf_item_lt hfield h
  · rename_i hfield
    rw [List.mem_singleton] at h
    exact h ▸ Value.sizeOf_field?_lt hfield

/-- A branch is smaller than the object. -/
theorem sizeOf_branchSchemas_lt {c : Combinator} {members : Members} {part : Value}
    (h : part ∈ branchSchemas c members) : sizeOf part < sizeOf (Value.object members) := by
  rw [branchSchemas] at h
  split at h
  · rename_i hfield
    exact Value.sizeOf_item_lt hfield h
  · cases h

/-- The inner schemas that are visited are smaller than the object. -/
theorem sizeOf_parts_lt {members : Members} {shape : Shape} {part : Value}
    (h : part ∈ parts members shape) : sizeOf part < sizeOf (Value.object members) := by
  cases shape with
  | typed =>
    rcases mem_parts_typed_iff.mp h with ⟨-, property, hproperty, rfl⟩ | ⟨-, -, hmem⟩
    · rcases List.mem_append.mp hproperty with hmem | hmem
      · exact sizeOf_namedSchemas_lt hmem
      · exact sizeOf_namedSchemas_lt hmem
    · exact sizeOf_itemSchemas_lt hmem
  | combined c => exact sizeOf_branchSchemas_lt h
  | _ => cases h

end Schema

end SchemaTypes
