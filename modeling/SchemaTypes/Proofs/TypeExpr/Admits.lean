import SchemaTypes.TypeExpr.Basic

/-!
# The values of a type

A type stands for a set of values. Every type admits null unless it is marked as never null, or is the
type without values. An object type asks only for what it names: a field that is present has the type
of the field, a required field is present, and where there is an index signature every other member
has its type.

References are read by an interpretation, which says for each qualified name what values it stands
for. A union and an intersection made from a list of types are the union and the intersection of
their sets, also when the list has one type or none.
-/

namespace SchemaTypes

/-- Whether a number has no fractional part. -/
def Double.isIntegral : Double → Bool
  | finite _ m e => m % Nat.pow 2 (-e).toNat == 0
  | _ => false

/-- Whether a scalar is a boolean. -/
def Scalar.isBool : Scalar → Bool
  | bool _ => true
  | _ => false

/-- Whether two scalars are equal values. Booleans are no numbers here, unlike among keys. -/
def Scalar.equals (a b : Scalar) : Bool := a.isBool == b.isBool && a.same b

namespace Value

mutual

/-- Whether two values are equal. -/
def equals : Value → Value → Bool
  | scalar a, scalar b => a.equals b
  | list as, list bs => equalItems as bs
  | object as, object bs => as.length = bs.length && equalMembers as bs
  | _, _ => false

/-- Whether two lists have equal items in the same order. -/
def equalItems : List Value → List Value → Bool
  | [], [] => true
  | a :: as, b :: bs => equals a b && equalItems as bs
  | _, _ => false

/-- Whether every member has a counterpart of the same key with an equal value. -/
def equalMembers : List (Scalar × Value) → List (Scalar × Value) → Bool
  | [], _ => true
  | (k, v) :: rest, others =>
    (match Members.get? k others with
      | some w => equals v w
      | none => false) && equalMembers rest others

end

/-- Whether a value is of the type that a word names. -/
def hasType (v : Value) (word : Text) : Bool :=
  word = "any" ||
    match v with
    | scalar .null => word = "null"
    | scalar (.bool _) => word = "boolean"
    | scalar (.int _) => word = "integer" || word = "number"
    | scalar (.float x) => word = "integer" && x.isIntegral || word = "number"
    | scalar (.text _) => word = "string"
    | list _ => word = "array"
    | object _ => word = "object"

/-- A value counts as null if it is null. -/
theorem isNull_iff (v : Value) : v.isNull = true ↔ v = null := by
  rcases v with s | items | members
  · cases s <;> simp [isNull]
  · simp [isNull]
  · simp [isNull]

/-- Only null equals null. -/
theorem eq_null_of_equals {v : Value} (h : v.equals null = true) : v = null := by
  rcases v with s | items | members
  · cases s <;> simp_all [equals, Scalar.equals, Scalar.same, Scalar.extended?]
  · simp [equals] at h
  · simp [equals] at h

/-- A value of type null is null. -/
theorem eq_null_of_hasType {v : Value} (h : v.hasType "null" = true) : v = null := by
  rcases v with s | items | members
  · cases s <;> simp_all [hasType]
  · simp [hasType] at h
  · simp [hasType] at h

/-- A value of type array is a list. -/
theorem exists_eq_list {v : Value} (h : v.hasType "array" = true) : ∃ items, v = list items := by
  rcases v with s | items | members
  · cases s <;> simp [hasType] at h
  · exact ⟨items, rfl⟩
  · simp [hasType] at h

/-- A value of type object is an object. -/
theorem exists_eq_object {v : Value} (h : v.hasType "object" = true) : ∃ members, v = object members := by
  rcases v with s | items | members
  · cases s <;> simp [hasType] at h
  · simp [hasType] at h
  · exact ⟨members, rfl⟩

/-- Null is of the types null and any alone. -/
theorem word_of_null_hasType {word : Text} (h : null.hasType word = true) :
    word = "null" ∨ word = "any" := by
  have hwords : word = "any" ∨ word = "null" := by simpa [hasType] using h
  exact hwords.symm

/-- Integers are numbers. -/
theorem hasType_number {v : Value} (h : v.hasType "integer" = true) : v.hasType "number" = true := by
  rcases v with s | items | members
  · cases s <;> simp_all [hasType]
  · simp [hasType] at h
  · simp [hasType] at h

end Value

namespace TypeExpr

/-- Whether a keyword admits a value. -/
def keywordAdmits (name : Text) (v : Value) : Bool :=
  if name = "any" ∨ name = "unknown" then true
  else if name = "boolean" ∨ name = "number" ∨ name = "string" then v.isNull || v.hasType name
  else false

/-- The values of the members that are no field. -/
def otherValues (fields : List (Field TypeExpr)) (members : Members) : List Value :=
  (members.filter fun member => !fields.any fun field => field.name.same member.1).map (·.2)

mutual

/-- A type admits a value, where references admit what the interpretation says. -/
def Admits (ρ : List Value → Value → Prop) : TypeExpr → Value → Prop
  | keyword name, v => keywordAdmits name v = true
  | literal c, v => v = .null ∨ v.equals c = true
  | nonNull inner, v => v ≠ .null ∧ Admits ρ inner v
  | array item, v => v = .null ∨ ∃ items, v = .list items ∧ ∀ w ∈ items, Admits ρ item w
  | object fields index, v => v = .null ∨ ∃ members, v = .object members ∧
      FieldsAdmit ρ fields members ∧ IndexAdmits ρ index (otherValues fields members)
  | reference parts, v => ρ parts v
  | union members, v => SomeAdmits ρ members v
  | intersection members, v => AllAdmit ρ members v

/-- Each field that is a member admits its value, and the required ones are members. -/
def FieldsAdmit (ρ : List Value → Value → Prop) : List (Field TypeExpr) → Members → Prop
  | [], _ => True
  | ⟨name, type, required, _⟩ :: rest, members =>
    (∀ w, members.get? name = some w → Admits ρ type w) ∧
      (required = true → ∃ w, members.get? name = some w) ∧ FieldsAdmit ρ rest members

/-- An index signature admits each of several values. -/
def IndexAdmits (ρ : List Value → Value → Prop) : Option (IndexSignature TypeExpr) → List Value → Prop
  | none, _ => True
  | some ⟨type, _, _, _⟩, values => ∀ w ∈ values, Admits ρ type w

/-- One of several types admits a value. -/
def SomeAdmits (ρ : List Value → Value → Prop) : List TypeExpr → Value → Prop
  | [], _ => False
  | t :: rest, v => Admits ρ t v ∨ SomeAdmits ρ rest v

/-- Each of several types admits a value. -/
def AllAdmit (ρ : List Value → Value → Prop) : List TypeExpr → Value → Prop
  | [], _ => True
  | t :: rest, v => Admits ρ t v ∧ AllAdmit ρ rest v

end

variable {ρ : List Value → Value → Prop} {v : Value}

/-- One of several types admits a value if there is one among them that does. -/
theorem someAdmits_iff (ts : List TypeExpr) : SomeAdmits ρ ts v ↔ ∃ t ∈ ts, Admits ρ t v := by
  induction ts with
  | nil => simp [SomeAdmits]
  | cons t rest ih => simp [SomeAdmits, ih]

/-- Each of several types admits a value if every type among them does. -/
theorem allAdmit_iff (ts : List TypeExpr) : AllAdmit ρ ts v ↔ ∀ t ∈ ts, Admits ρ t v := by
  induction ts with
  | nil => simp [AllAdmit]
  | cons t rest ih => simp [AllAdmit, ih]

/-- What fields ask of members is what each field asks. -/
theorem fieldsAdmit_iff (fields : List (Field TypeExpr)) (members : Members) :
    FieldsAdmit ρ fields members ↔ ∀ field ∈ fields,
      (∀ w, members.get? field.name = some w → Admits ρ field.type w) ∧
        (field.required = true → ∃ w, members.get? field.name = some w) := by
  induction fields with
  | nil => simp [FieldsAdmit]
  | cons field rest ih => simp [FieldsAdmit, ih, and_assoc]

/-- A keyword for booleans, numbers or texts admits these and null. -/
theorem admits_keyword {name : Text} (hname : name ∈ [("boolean" : Text), "number", "string"]) :
    Admits ρ (keyword name) v ↔ v = .null ∨ v.hasType name = true := by
  rw [← Value.isNull_iff]
  simp only [List.mem_cons, List.not_mem_nil, or_false] at hname
  rcases hname with rfl | rfl | rfl <;> simp [Admits, keywordAdmits]

/-- The keyword for anything admits every value. -/
theorem admits_any : Admits ρ .any v := by
  rw [Admits]
  rfl

/-- A union admits what one of its types admits. -/
theorem admits_unionOf (ts : List TypeExpr) : Admits ρ (unionOf ts) v ↔ ∃ t ∈ ts, Admits ρ t v := by
  rcases ts with _ | ⟨t, _ | ⟨u, rest⟩⟩
  · simp [unionOf, Admits, keywordAdmits]
  · simp [unionOf]
  · change Admits ρ (union (t :: u :: rest)) v ↔ _
    rw [Admits, someAdmits_iff]

/-- An intersection admits what all of its types admit. -/
theorem admits_intersectionOf (ts : List TypeExpr) :
    Admits ρ (intersectionOf ts) v ↔ ∀ t ∈ ts, Admits ρ t v := by
  rcases ts with _ | ⟨t, _ | ⟨u, rest⟩⟩
  · simp [intersectionOf, Admits, keywordAdmits]
  · simp [intersectionOf]
  · change Admits ρ (intersection (t :: u :: rest)) v ↔ _
    rw [Admits, allAdmit_iff]

end TypeExpr

end SchemaTypes
