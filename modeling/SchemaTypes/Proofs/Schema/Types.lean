import SchemaTypes.Proofs.Document.Value
import SchemaTypes.Schema.Types

/-!
# The recursion of building

Properties, items and branches are built from the member that holds them. The recursions that look
for this member give what the member found by its name gives. The types of tags are built one tag
after the other.
-/

namespace SchemaTypes

namespace Schema

/-- The fields for the value of a member that holds properties. -/
def fieldsHeld (scope : Scope) (required : Value) : Option Value → Build (List (Field TypeExpr))
  | none => pure []
  | some (.object properties) => fieldsOf scope required properties
  | some other => if other.isPresent then throw (.malformed .notObject) else pure []

/-- The types for the value of a member that holds the items of an array. -/
def itemsHeld (scope : Scope) : Option Value → Build (List TypeExpr)
  | none => pure [.any]
  | some (.list schemas) => allTypes scope schemas
  | some schema => types scope schema

/-- The types for the value of a member that holds the branches of a combinator. -/
def branchesHeld (scope : Scope) (otherwise : Fault) : Option Value → Build (List TypeExpr)
  | some (.list schemas) => branchTypes scope schemas
  | _ => throw otherwise

/-- The fields under a name are those of the member of that name. -/
theorem fieldsUnder_eq (scope : Scope) (name : Text) (required : Value) (members : Members) :
    fieldsUnder scope name required members =
      fieldsHeld scope required (members.field? name) := by
  induction members with
  | nil => rfl
  | cons member rest ih =>
    obtain ⟨k, v⟩ := member
    by_cases hk : k.isText name
    · rw [Members.field?, if_pos hk]
      cases v <;> simp [fieldsUnder, fieldsHeld, hk]
    · rw [Members.field?, if_neg hk, ← ih]
      cases v <;> simp [fieldsUnder, hk]

/-- The types of items are those of the member `items`. -/
theorem itemTypes_eq (scope : Scope) (members : Members) :
    itemTypes scope members = itemsHeld scope (members.field? "items") := by
  induction members with
  | nil => rfl
  | cons member rest ih =>
    obtain ⟨k, v⟩ := member
    by_cases hk : k.isText "items"
    · rw [Members.field?, if_pos hk]
      cases v <;> simp [itemTypes, itemsHeld, hk]
    · rw [Members.field?, if_neg hk, ← ih]
      cases v <;> simp [itemTypes, hk]

/-- The types of branches are those of the member named like the combinator. -/
theorem branchesUnder_eq (scope : Scope) (c : Combinator) (otherwise : Fault) (members : Members) :
    branchesUnder scope c otherwise members =
      branchesHeld scope otherwise (members.field? c.keyword) := by
  induction members with
  | nil => rfl
  | cons member rest ih =>
    obtain ⟨k, v⟩ := member
    by_cases hk : k.isText c.keyword
    · rw [Members.field?, if_pos hk]
      cases v <;> simp [branchesUnder, branchesHeld, hk]
    · rw [Members.field?, if_neg hk, ← ih]
      cases v <;> simp [branchesUnder, hk]

/-- The type of one tag, given how object and array types are built. -/
def tagType (scope : Scope) (object array : Build TypeExpr) (tag : Value) : Build TypeExpr :=
  if isTag "object" tag then object
  else if isTag "array" tag then array
  else
    match keywordOf? tag with
    | some type => pure type
    | none => throw (scope.fault (.unsupportedType tag))

/-- The types of tags are those of the first tag and of the others. -/
theorem tagTypes_cons (scope : Scope) (object array : Build TypeExpr) (tag : Value)
    (rest : List Value) :
    tagTypes scope object array (tag :: rest) = (do
      let type ← tagType scope object array tag
      let types ← tagTypes scope object array rest
      return type :: types) := by
  rw [tagTypes, tagType]
  by_cases hobject : isTag "object" tag
  · simp only [if_pos hobject]
  · by_cases harray : isTag "array" tag
    · simp only [if_neg hobject, if_pos harray]
    · simp only [if_neg hobject, if_neg harray]
      cases keywordOf? tag <;> rfl

end Schema

end SchemaTypes
