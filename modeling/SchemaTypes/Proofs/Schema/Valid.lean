import Mathlib.Logic.ExistsUnique
import SchemaTypes.Proofs.Document.Value
import SchemaTypes.Proofs.TypeExpr.Admits
import SchemaTypes.Schema.Types

/-!
# The values that a schema describes

A value is valid for a schema if it meets every keyword of the schema: `$ref`, `const`, `enum`,
`type`, `properties`, `required`, `items`, `minItems`, `maxItems`, `allOf`, `anyOf` and `oneOf`. A
keyword about objects or lists asks nothing of other values, and one that does not hold what it is
meant to hold asks nothing at all. Other keywords are not read.

References are read by an interpretation of qualified names, as they are in types. Schemas for the
items of a list hold position by position, and say nothing about later items.
-/

namespace SchemaTypes

namespace Schema

/-- The value of each reference is among those of the name that the reference is built as. -/
def RefersTo (ρ : List Value → Value → Prop) (scope : Scope) (ref v : Value) : Prop :=
  ∀ target parts, scope.target ref = .ok target →
    scope.naming.applyAll target.segments = .ok parts → ρ parts v

/-- What the keywords without inner schemas ask of a value. -/
structure MeetsPlain (ρ : List Value → Value → Prop) (scope : Scope) (members : Members) (v : Value) :
    Prop where
  reference : ∀ ref, members.field? "$ref" = some ref → RefersTo ρ scope ref v
  const : ∀ c, members.field? "const" = some c → v.equals c = true
  enum : ∀ values, members.field? "enum" = some (.list values) → ∃ c ∈ values, v.equals c = true
  type : ∀ keyword, members.field? "type" = some keyword →
    ∃ word, .text word ∈ tags keyword ∧ v.hasType word = true
  required : ∀ (names : List Value) (own : Members), members.field? "required" = some (.list names) →
    v = .object own → ∀ name, .scalar name ∈ names → ∃ w, own.get? name = some w
  minItems : ∀ least items, bound? (members.field? "minItems") = some least → v = .list items →
    least.order (.scaled items.length 0) ≠ .gt
  maxItems : ∀ most items, bound? (members.field? "maxItems") = some most → v = .list items →
    (Extended.scaled items.length 0).order most ≠ .gt

/-- A value is valid for a schema. -/
def Valid (ρ : List Value → Value → Prop) (scope : Scope) (schema v : Value) : Prop :=
  match schema with
  | .scalar s => s ≠ .bool false
  | .list _ => True
  | .object members =>
    MeetsPlain ρ scope members v ∧
      (∀ properties own : Members, (hheld : Members.field? "properties" members = some (.object properties)) →
        v = .object own → ∀ name inner w, (hinner : (name, inner) ∈ properties) →
          own.get? name = some w → Valid ρ scope inner w) ∧
      (∀ inner items, (hheld : Members.field? "items" members = some inner) →
        (∀ schemas, inner ≠ .list schemas) → v = .list items → ∀ w ∈ items, Valid ρ scope inner w) ∧
      (∀ schemas items, (hheld : Members.field? "items" members = some (.list schemas)) →
        v = .list items → ∀ inner w, (hinner : (inner, w) ∈ schemas.zip items) → Valid ρ scope inner w) ∧
      (∀ schemas, (hheld : Members.field? "allOf" members = some (.list schemas)) →
        ∀ inner, (hinner : inner ∈ schemas) → Valid ρ scope inner v) ∧
      (∀ schemas, (hheld : Members.field? "anyOf" members = some (.list schemas)) →
        ∃ i : Fin schemas.length, Valid ρ scope (schemas.get i) v) ∧
      (∀ schemas, (hheld : Members.field? "oneOf" members = some (.list schemas)) →
        ∃! i : Fin schemas.length, Valid ρ scope (schemas.get i) v)
termination_by sizeOf schema
decreasing_by
  · exact Value.sizeOf_property_lt hheld hinner
  · exact Value.sizeOf_field?_lt hheld
  · exact Value.sizeOf_item_lt hheld (List.of_mem_zip hinner).1
  · exact Value.sizeOf_item_lt hheld hinner
  · exact Value.sizeOf_item_lt hheld (List.get_mem schemas i)
  · exact Value.sizeOf_item_lt hheld (List.get_mem schemas i)

namespace Valid

variable {ρ : List Value → Value → Prop} {scope : Scope} {members : Members} {v : Value}

/-- A valid value meets the keywords without inner schemas. -/
theorem plain (h : Valid ρ scope (.object members) v) : MeetsPlain ρ scope members v := by
  rw [Valid] at h
  exact h.1

/-- The members of a valid object are valid for the properties of their names. -/
theorem property {own : Members} (h : Valid ρ scope (.object members) (.object own))
    {properties : Members} (hheld : members.field? "properties" = some (.object properties))
    {name : Scalar} {inner w : Value} (hinner : (name, inner) ∈ properties)
    (hw : own.get? name = some w) : Valid ρ scope inner w := by
  rw [Valid] at h
  exact h.2.1 properties own hheld rfl name inner w hinner hw

/-- The items of a valid list are valid for the schema of items. -/
theorem item {items : List Value} (h : Valid ρ scope (.object members) (.list items)) {inner : Value}
    (hheld : members.field? "items" = some inner) (hinner : ∀ schemas, inner ≠ .list schemas)
    {w : Value} (hw : w ∈ items) : Valid ρ scope inner w := by
  rw [Valid] at h
  exact h.2.2.1 inner items hheld hinner rfl w hw

/-- The items of a valid list are valid for the schemas at their positions. -/
theorem itemAt {items : List Value} (h : Valid ρ scope (.object members) (.list items))
    {schemas : List Value} (hheld : members.field? "items" = some (.list schemas)) {inner w : Value}
    (hinner : (inner, w) ∈ schemas.zip items) : Valid ρ scope inner w := by
  rw [Valid] at h
  exact h.2.2.2.1 schemas items hheld rfl inner w hinner

/-- A valid value is valid for all branches of `allOf`. -/
theorem allOf (h : Valid ρ scope (.object members) v) {schemas : List Value}
    (hheld : members.field? "allOf" = some (.list schemas)) {inner : Value} (hinner : inner ∈ schemas) :
    Valid ρ scope inner v := by
  rw [Valid] at h
  exact h.2.2.2.2.1 schemas hheld inner hinner

/-- A valid value is valid for some branch of `anyOf`, and for the one of `oneOf`. -/
theorem exists_branch (h : Valid ρ scope (.object members) v) {c : Combinator} (hc : c ≠ .allOf)
    {schemas : List Value} (hheld : members.field? c.keyword = some (.list schemas)) :
    ∃ inner ∈ schemas, Valid ρ scope inner v := by
  rw [Valid] at h
  cases c with
  | allOf => exact absurd rfl hc
  | anyOf =>
    obtain ⟨i, hi⟩ := h.2.2.2.2.2.1 schemas hheld
    exact ⟨schemas.get i, List.get_mem schemas i, hi⟩
  | oneOf =>
    obtain ⟨i, hi, -⟩ := h.2.2.2.2.2.2 schemas hheld
    exact ⟨schemas.get i, List.get_mem schemas i, hi⟩

end Valid

end Schema

end SchemaTypes
