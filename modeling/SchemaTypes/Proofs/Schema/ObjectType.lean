import Mathlib.Data.List.Forall2
import SchemaTypes.Proofs.Schema.Parts
import SchemaTypes.Proofs.Schema.References

/-!
# Object types

An object schema gives properties by name and by pattern, and says whether there may be others. Its type has
one field for each property, in order. The patterns and the other properties share one index signature, whose
type is the union of theirs: every pattern is a member of the union, also one that is a union itself, and
other properties add the type of all values. The signature is required or read-only only if every pattern is
and there are no other properties.
-/

namespace SchemaTypes

/-- A text occurs in another one if it is an infix of it. -/
theorem Text.hasInfix_iff (part whole : List CodePoint) : hasInfix part whole = true ↔ part <:+: whole := by
  induction whole with
  | nil => simp [hasInfix]
  | cons c rest ih => rw [hasInfix, Bool.or_eq_true, ih, List.isPrefixOf_iff_prefix, List.infix_cons_iff]

namespace Value

/-- A scalar is held by a value: it is an item of a list, a key of an object, or a part of a text. -/
inductive Holds : Value → Scalar → Prop where
  | item {items : List Value} {s name : Scalar} (hmem : .scalar s ∈ items) (hsame : name.same s = true) :
      Holds (.list items) name
  | key {members : Members} {k name : Scalar} {v : Value} (hmem : (k, v) ∈ members)
      (hsame : name.same k = true) : Holds (.object members) name
  | part {part whole : Text} (h : part.toList <:+: whole.toList) : Holds (.text whole) (.text part)

/-- Where it can be told whether a value holds a scalar, it is told rightly. -/
theorem holds_iff_of_contains {container : Value} {s : Scalar} {answer : Bool}
    (h : container.contains s = .ok answer) : answer = true ↔ container.Holds s := by
  rcases container with whole | items | members
  · cases whole with
    | text whole =>
      cases s with
      | text part =>
        cases h
        rw [Text.hasInfix_iff]
        refine ⟨.part, fun hpart => ?_⟩
        cases hpart with
        | part hpart => exact hpart
      | _ => cases h
    | _ => cases h
  · cases h
    rw [List.any_eq_true]
    constructor
    · rintro ⟨item, hmem, hsame⟩
      cases item with
      | scalar t => exact .item hmem hsame
      | _ => cases hsame
    · intro hitem
      cases hitem with
      | item hmem hsame => exact ⟨_, hmem, hsame⟩
  · cases h
    rw [List.any_eq_true]
    constructor
    · rintro ⟨member, hmem, hsame⟩
      exact .key hmem hsame
    · intro hkey
      cases hkey with
      | key hmem hsame => exact ⟨_, hmem, hsame⟩

end Value

namespace Schema

/-- The types that a schema stands for, whatever has been discovered. -/
def StandsFor (scope : Scope) (schema : Value) (alternatives : List TypeExpr) : Prop :=
  ∀ d, ((types scope schema).run d).1 = .ok alternatives

/-- A schema stands for the types that are built from it once. -/
theorem standsFor_of_run {scope : Scope} {schema : Value} {alternatives : List TypeExpr} {d d' : Discovery}
    (h : (types scope schema).run d = (.ok alternatives, d')) : StandsFor scope schema alternatives :=
  fun e => congrArg Prod.fst ((types_explores scope schema).run_of_ok h scope.path e)

/-- The field of a property: typed by its schema, and required if its name is among the given ones. -/
def HasField (scope : Scope) (required : Value) (property : Scalar × Value) (field : Field TypeExpr) : Prop :=
  ∃ alternatives isRequired, StandsFor scope property.2 alternatives ∧
    required.contains property.1 = .ok isRequired ∧
      field = ⟨property.1, .unionOf alternatives, isRequired, isReadOnly property.2⟩

/-- Properties have one field each, in order. -/
theorem forall₂_hasField {scope : Scope} {required : Value} {properties : Members}
    {fields : List (Field TypeExpr)} {d d' : Discovery}
    (h : (fieldsOf scope required properties).run d = (.ok fields, d')) :
    List.Forall₂ (HasField scope required) properties fields := by
  induction properties generalizing fields d with
  | nil =>
    rw [fieldsOf] at h
    cases h
    exact .nil
  | cons property rest ih =>
    obtain ⟨name, schema⟩ := property
    rw [fieldsOf] at h
    obtain ⟨alternatives, second, htypes, h⟩ := Faulting.run_bind_ok h
    obtain ⟨isRequired, third, hcontains, h⟩ := Faulting.run_bind_ok h
    obtain ⟨others, last, hothers, h⟩ := Faulting.run_bind_ok h
    rw [Faulting.run_lift] at hcontains
    cases h
    refine .cons ⟨alternatives, isRequired, standsFor_of_run htypes, ?_, rfl⟩ (ih hothers)
    exact Faulting.ofMalformed_eq_ok (Prod.mk.inj hcontains).1

/-- The tag of objects stands for the object type. -/
theorem typed_object (scope : Scope) (object array : Build TypeExpr) :
    typed scope (.text "object") object array = object >>= fun type => pure [.nonNull type] := by
  change (tagTypes scope object array [.text "object"] >>= fun types => pure (types.map TypeExpr.nonNull)) = _
  rw [tagTypes_cons]
  simp only [bind_assoc, pure_bind]
  rfl

/-- The one type of a schema: the union of the types it stands for. -/
def TypedAs (scope : Scope) (schema : Value) (type : TypeExpr) : Prop :=
  ∃ alternatives, StandsFor scope schema alternatives ∧ type = .unionOf alternatives

/-- A schema that marks its values as read-only: an object whose mark is present. -/
def MarksReadOnly (schema : Value) : Prop :=
  ∃ (members : Members) (mark : Value), schema = .object members ∧
    members.field? "readOnly" = some mark ∧ mark.isPresent = true

/-- What a property of an object schema becomes. -/
structure Becomes (scope : Scope) (members : Members) (property : Scalar × Value) (field : Field TypeExpr) :
    Prop where
  name_eq : field.name = property.1
  typed : TypedAs scope property.2 field.type
  required_iff : field.required = true ↔ (requiredNames members).Holds property.1
  readOnly_iff : field.readOnly = true ↔ MarksReadOnly property.2

/-- What the patterns of an object schema and its other properties become together. -/
structure Merges (scope : Scope) (members : Members) (others : Bool) (signature : IndexSignature TypeExpr) :
    Prop where
  typed : ∃ types,
    List.Forall₂ (fun pattern type => TypedAs scope pattern.2 type)
      (namedSchemas "patternProperties" members) types ∧
    signature.type = .unionOf (types ++ if others then [.any] else [])
  required_iff : signature.required = true ↔ others = false ∧
    ∀ pattern ∈ namedSchemas "patternProperties" members, (requiredNames members).Holds pattern.1
  readOnly_iff : signature.readOnly = true ↔ others = false ∧
    ∀ pattern ∈ namedSchemas "patternProperties" members, MarksReadOnly pattern.2

/-- A schema is found to mark its values as read-only if it does. -/
theorem isReadOnly_iff (schema : Value) : isReadOnly schema = true ↔ MarksReadOnly schema := by
  cases schema with
  | object members =>
    rw [isReadOnly, Members.fieldOrNull]
    constructor
    · intro h
      cases hmark : Members.field? "readOnly" members with
      | none =>
        rw [hmark] at h
        cases h
      | some mark =>
        rw [hmark] at h
        exact ⟨members, mark, rfl, hmark, h⟩
    · rintro ⟨_, mark, ⟨⟩, hmark, hpresent⟩
      rw [hmark]
      exact hpresent
  | _ => simp [isReadOnly, MarksReadOnly]

/-- The field of a property is what the property becomes. -/
theorem HasField.becomes {scope : Scope} {members : Members} {property : Scalar × Value}
    {field : Field TypeExpr} (h : HasField scope (requiredNames members) property field) :
    Becomes scope members property field := by
  obtain ⟨alternatives, isRequired, htypes, hcontains, rfl⟩ := h
  exact ⟨rfl, ⟨alternatives, htypes, rfl⟩, Value.holds_iff_of_contains hcontains, isReadOnly_iff _⟩

/-- The schemas by name that a member holds become fields, in order. -/
theorem forall₂_becomes {scope : Scope} {name : Text} {members : Members} {fields : List (Field TypeExpr)}
    {d d' : Discovery}
    (h : (fieldsUnder scope name (requiredNames members) members).run d = (.ok fields, d')) :
    List.Forall₂ (Becomes scope members) (namedSchemas name members) fields := by
  rw [fieldsUnder_eq] at h
  rw [namedSchemas]
  cases hfield : members.field? name with
  | none =>
    rw [hfield] at h
    cases h
    exact .nil
  | some v =>
    rw [hfield] at h
    cases v with
    | object properties => exact (forall₂_hasField h).imp fun _ _ => HasField.becomes
    | _ =>
      rw [fieldsHeld] at h
      · split at h
        · cases h
        · cases h
          exact .nil
      · rintro _ ⟨⟩

/-- What holds of all fields holds of all properties if it says the same of each. -/
theorem forall_mem_iff_of_forall₂ {α β : Type} {r : α → β → Prop} {p : α → Prop} {q : β → Prop}
    {as : List α} {bs : List β} (h : List.Forall₂ r as bs) (hiff : ∀ a b, r a b → (q b ↔ p a)) :
    (∀ b ∈ bs, q b) ↔ ∀ a ∈ as, p a := by
  induction h with
  | nil => simp
  | cons hab _ ih => rw [List.forall_mem_cons, List.forall_mem_cons, ih, hiff _ _ hab]

/-- The index signature is what patterns and other properties become together. -/
theorem indexOf_merges {scope : Scope} {members : Members} {sources : List (Field TypeExpr)}
    (h : List.Forall₂ (Becomes scope members) (namedSchemas "patternProperties" members) sources)
    (others : Bool) : Merges scope members others (indexOf sources others) := by
  refine ⟨⟨sources.map (·.type), ?_, rfl⟩, ?_, ?_⟩
  · rw [List.forall₂_map_right_iff]
    exact h.imp fun _ _ hfield => hfield.typed
  · rw [indexOf, Bool.and_eq_true, Bool.not_eq_true', List.all_eq_true]
    exact and_congr_right fun _ => forall_mem_iff_of_forall₂ h fun _ _ hfield => hfield.required_iff
  · rw [indexOf, Bool.and_eq_true, Bool.not_eq_true', List.all_eq_true]
    exact and_congr_right fun _ => forall_mem_iff_of_forall₂ h fun _ _ hfield => hfield.readOnly_iff

/-- An object type that can be built has one field for each property, in order, and one index signature for
all patterns and other properties, unless there are neither. -/
theorem objectType_merges {scope : Scope} {members : Members} {type : TypeExpr} {d d' : Discovery}
    (h : (objectType scope members).run d = (.ok type, d')) :
    let others := (members.fieldOrNull "additionalProperties").isPresent
    ∃ fields index, type = .object fields index ∧
      List.Forall₂ (Becomes scope members) (namedSchemas "properties" members) fields ∧
      (index = none ↔
        (members.fieldOrNull "patternProperties").isPresent = false ∧ others = false) ∧
      ∀ signature, index = some signature → Merges scope members others signature := by
  rw [objectType, objectOf] at h
  obtain ⟨fields, second, hfields, h⟩ := Faulting.run_bind_ok h
  dsimp only at h ⊢
  rw [← Bool.or_eq_false_iff]
  split_ifs at h with hopen
  · obtain ⟨sources, third, hsources, h⟩ := Faulting.run_bind_ok h
    cases h
    refine ⟨fields, _, rfl, forall₂_becomes hfields, iff_of_false (Option.some_ne_none _) (by simp [hopen]), ?_⟩
    rintro _ ⟨⟩
    exact indexOf_merges (forall₂_becomes hsources) _
  · cases h
    refine ⟨fields, none, rfl, forall₂_becomes hfields, iff_of_true rfl (Bool.eq_false_iff.mpr hopen), ?_⟩
    rintro _ ⟨⟩

/-- A schema with two properties and two patterns, of which one stands for two types. -/
def labelledMembers : Members :=
  [(.text "required", .texts ["id", "^x-", "^n-"]),
    (.text "properties", .record [("id", .record [("type", .text "integer"), ("readOnly", .bool true)]),
      ("next", .record [("$ref", .text "#/definitions/next")])]),
    (.text "patternProperties", .record [("^x-", .record [("type", .text "string")]),
      ("^n-", .record [("enum", .list [.int 1, .int 2]), ("readOnly", .bool true)])])]

/-- Both patterns are required, so their signature is; one of them is not read-only, so it is not either. -/
theorem objectType_merges_labelled :
    ∃ type d', (objectType ⟨.standard, none, none⟩ labelledMembers).run .empty = (.ok type, d') ∧
      ∃ fields signature, type = .object fields (some signature) ∧
        List.Forall₂ (Becomes ⟨.standard, none, none⟩ labelledMembers)
          (namedSchemas "properties" labelledMembers) fields ∧
        Merges ⟨.standard, none, none⟩ labelledMembers false signature ∧
        signature.required = true ∧ signature.readOnly = false := by
  obtain ⟨type, d', h⟩ : ∃ type d',
      (objectType ⟨.standard, none, none⟩ labelledMembers).run .empty = (.ok type, d') :=
    Faulting.exists_run_eq_ok (by decide +kernel)
  obtain ⟨fields, index, htype, hfields, hnone, hsignature⟩ := objectType_merges h
  cases index with
  | none => exact absurd (hnone.mp rfl).1 (by decide)
  | some signature =>
    have hmerges : Merges ⟨.standard, none, none⟩ labelledMembers false signature := hsignature signature rfl
    refine ⟨type, d', h, fields, signature, htype, hfields, hmerges, hmerges.required_iff.mpr ⟨rfl, ?_⟩,
      Bool.eq_false_iff.mpr fun hreadOnly => ?_⟩
    · have hpatterns : namedSchemas "patternProperties" labelledMembers =
          [(.text "^x-", .record [("type", .text "string")]),
            (.text "^n-", .record [("enum", .list [.int 1, .int 2]), ("readOnly", .bool true)])] := rfl
      rw [hpatterns, List.forall_mem_cons, List.forall_mem_singleton]
      exact ⟨.item (s := .text "^x-") (by simp) rfl, .item (s := .text "^n-") (by simp) rfl⟩
    · have hmark := (hmerges.readOnly_iff.mp hreadOnly).2 _ List.mem_cons_self
      rw [← isReadOnly_iff] at hmark
      cases hmark

end Schema

end SchemaTypes
