import Mathlib.Tactic.Tauto
import SchemaTypes.Proofs.Schema.Mentions
import SchemaTypes.Proofs.Schema.Parts

/-!
# The supported dialect

Which schemas can be built is a matter of the schema alone, but for references to the document
itself, which need a root declaration. `Supported` is the dialect as a set of rules: the keyword that
an object is read by has to hold what it is meant to hold, and every inner schema visited there has to
be supported too. Whatever else stands beside the keyword may hold anything.

Building succeeds exactly on the supported schemas.
-/

namespace SchemaTypes

/-- Every name that identifiers are made from has one: texts always do, and the name of the root
declaration has to. -/
def Scope.Total (scope : Scope) : Prop :=
  ∀ name, scope.rootName = some name → ∃ identifier, scope.naming.apply name = .ok identifier

namespace Schema

open Build Faulting

/-- The words that name a type. -/
def typeWords : List Text :=
  ["null", "any", "boolean", "integer", "number", "string", "object", "array"]

/-- A tag that names a type. -/
def NamesType (tag : Value) : Prop := ∃ word ∈ typeWords, tag = .text word

/-- A value that can hold schemas by name: an object, or one that counts as absent. -/
def HoldsSchemas : Value → Prop
  | .object _ => True
  | other => other.isPresent = false

/-- A value that can say whether it requires a name: a list, an object, a text for names that are
texts, or one that counts as absent. -/
def AnswersFor : Value → Scalar → Prop
  | .list _, _ => True
  | .object _, _ => True
  | .scalar (.text _), .text _ => True
  | other, _ => other.isPresent = false

/-- A member that holds schemas by name, under names of which it can be said whether they are
required. -/
def HoldsProperties (name : Text) (members : Members) : Prop :=
  HoldsSchemas (members.fieldOrNull name) ∧
    ∀ property ∈ namedSchemas name members, AnswersFor (members.fieldOrNull "required") property.1

/-- What the keyword that an object is read by has to hold. References to the document itself are
allowed where it has a root declaration. -/
def Fits (rooted : Bool) (members : Members) : Shape → Prop
  | .boolean => False
  | .reference => ∃ ref, members.fieldOrNull "$ref" = .text ref ∧ Pointer.isLocal ref = true ∧
      (Pointer.split ref ≠ [] ∨ rooted = true)
  | .const => ∃ s, members.fieldOrNull "const" = .scalar s
  | .enum => ∃ values, members.fieldOrNull "enum" = .list values ∧ ∀ v ∈ values, ∃ s, v = .scalar s
  | .typed => (∀ tag ∈ tags (members.fieldOrNull "type"), NamesType tag) ∧
      (hasTag "object" members = true →
        HoldsProperties "properties" members ∧ HoldsProperties "patternProperties" members)
  | .combined c => ∃ branches, members.field? c.keyword = some (.list branches)

/-- The schemas that can be built: booleans, and objects whose keyword holds what it has to and whose
visited inner schemas are supported. -/
inductive Supported (rooted : Bool) : Value → Prop where
  | boolean (b : Bool) : Supported rooted (.bool b)
  | object {members : Members} {shape : Shape} (hread : Decides members shape)
      (hfits : Fits rooted members shape)
      (hparts : ∀ part ∈ parts members shape, Supported rooted part) :
      Supported rooted (.object members)

/-- An object is supported by the rule for the keyword that it is read by. -/
theorem supported_object_iff {rooted : Bool} {members : Members} {shape : Shape}
    (hread : Decides members shape) :
    Supported rooted (.object members) ↔
      Fits rooted members shape ∧ ∀ part ∈ parts members shape, Supported rooted part := by
  constructor
  · intro h
    cases h with
    | @object _ other hother hfits hparts =>
      rw [← ofMembers_eq_ok_iff] at hread hother
      cases hread.symm.trans hother
      exact ⟨hfits, hparts⟩
  · intro h
    exact .object hread h.1 h.2

/-- What a tag has to satisfy, given what object and array types do: it names a type that can be
built. -/
def TagSupported (object array : Prop) (tag : Value) : Prop :=
  NamesType tag ∧ (tag = .text "object" → object) ∧ (tag = .text "array" → array)

/-- The words with a keyword type. -/
theorem exists_keywordOf?_iff {object array : Prop} {tag : Value} (hnull : isTag "null" tag = false)
    (hobject : isTag "object" tag = false) (harray : isTag "array" tag = false) :
    (∃ t, keywordOf? tag = some t) ↔ TagSupported object array tag := by
  rcases tag with s | items | members
  · cases s with
    | text s =>
      simp only [isTag, Scalar.isText, decide_eq_false_iff_not] at hnull hobject harray
      simp only [TagSupported, NamesType, typeWords, keywordOf?]
      split_ifs with hany hboolean hnumber hstring
      · simp [hany]
      · simp [hboolean]
      · rcases hnumber with rfl | rfl <;> simp
      · simp [hstring]
      · rw [not_or] at hnumber
        simp_all
    | _ => simp [TagSupported, NamesType, keywordOf?]
  · simp [TagSupported, NamesType, keywordOf?]
  · simp [TagSupported, NamesType, keywordOf?]

/-- The type of a tag other than `null` can be built if the tag is supported. -/
theorem tagType_accepts (scope : Scope) {object array : Build TypeExpr} {objectCondition arrayCondition : Prop}
    (hobject : Accepts object objectCondition) (harray : Accepts array arrayCondition)
    {tag : Value} (hnull : isTag "null" tag = false) :
    Accepts (tagType scope object array tag) (TagSupported objectCondition arrayCondition tag) := by
  rw [tagType]
  split_ifs with hobjectTag harrayTag
  · rw [isTag_iff] at hobjectTag
    exact hobject.congr (by simp [hobjectTag, TagSupported, NamesType, typeWords])
  · rw [isTag_iff] at harrayTag
    exact harray.congr (by simp [harrayTag, TagSupported, NamesType, typeWords])
  · have hiff : (∃ t, keywordOf? tag = some t) ↔ TagSupported objectCondition arrayCondition tag :=
      exists_keywordOf?_iff hnull (Bool.eq_false_iff.mpr hobjectTag) (Bool.eq_false_iff.mpr harrayTag)
    cases hkeyword : keywordOf? tag with
    | some type => exact (Accepts.pure type).congr (by simp [← hiff, hkeyword])
    | none => exact (Accepts.throw _).congr (by simp [← hiff, hkeyword])

/-- The types of tags other than `null` can be built if all of them are supported. -/
theorem tagTypes_accepts (scope : Scope) {object array : Build TypeExpr} {objectCondition arrayCondition : Prop}
    (hobject : Accepts object objectCondition) (harray : Accepts array arrayCondition)
    (named : List Value) (hnull : ∀ tag ∈ named, isTag "null" tag = false) :
    Accepts (tagTypes scope object array named)
      (∀ tag ∈ named, TagSupported objectCondition arrayCondition tag) := by
  induction named with
  | nil => exact (Accepts.pure []).congr (by simp)
  | cons tag rest ih =>
    have hfirst := tagType_accepts scope hobject harray (hnull tag List.mem_cons_self)
    have hrest := ih fun t ht => hnull t (List.mem_cons_of_mem _ ht)
    rw [tagTypes_cons, List.forall_mem_cons]
    exact hfirst.bind fun type => hrest.map fun types => type :: types

/-- The types of a `type` keyword can be built if all its tags are supported. -/
theorem typed_accepts (scope : Scope) (keyword : Value) {object array : Build TypeExpr}
    {objectCondition arrayCondition : Prop} (hobject : Accepts object objectCondition)
    (harray : Accepts array arrayCondition) :
    Accepts (typed scope keyword object array)
      (∀ tag ∈ tags keyword, TagSupported objectCondition arrayCondition tag) := by
  have hnull : TagSupported objectCondition arrayCondition (.text "null") := by
    simp [TagSupported, NamesType, typeWords]
  -- the tag `null` is dropped before any type is built, and it is supported
  have hnamed : (∀ tag ∈ (tags keyword).filter fun tag => !isTag "null" tag,
      TagSupported objectCondition arrayCondition tag) ↔
        ∀ tag ∈ tags keyword, TagSupported objectCondition arrayCondition tag := by
    constructor
    · intro h tag htag
      by_cases hword : isTag "null" tag
      · rw [(isTag_iff "null" tag).mp hword]
        exact hnull
      · exact h tag (List.mem_filter.mpr ⟨htag, by simp [hword]⟩)
    · intro h tag htag
      exact h tag (List.mem_filter.mp htag).1
  rw [← hnamed, typed]
  cases hfilter : (tags keyword).filter fun tag => !isTag "null" tag with
  | nil => exact (Accepts.pure _).congr (by simp)
  | cons tag rest =>
    apply Accepts.map
    apply tagTypes_accepts scope hobject harray
    intro t ht
    rw [← hfilter] at ht
    simpa using (List.mem_filter.mp ht).2

/-- An object type can be built if its properties and its pattern properties can, the latter only
where there are any. -/
theorem objectOf_accepts (members : Members) {properties patterns : Build (List (Field TypeExpr))}
    {propertyCondition patternCondition : Prop} (hproperties : Accepts properties propertyCondition)
    (hpatterns : Accepts patterns patternCondition)
    (habsent : (members.fieldOrNull "patternProperties").isPresent = false → patternCondition) :
    Accepts (objectOf members properties patterns) (propertyCondition ∧ patternCondition) := by
  rw [objectOf]
  refine hproperties.bind fun fields => ?_
  dsimp only
  split_ifs with hopen
  · exact hpatterns.map _
  · exact (Accepts.pure _).congr ⟨fun _ => habsent (by simp_all), fun _ => trivial⟩

/-- An array type can be built if its items can, unless no length satisfies its bounds. -/
theorem arrayOf_accepts (members : Members) {items : Build (List TypeExpr)} {condition : Prop}
    (hitems : Accepts items condition) :
    Accepts (arrayOf members items) (unsatisfiable members = false → condition) := by
  rw [arrayOf]
  split_ifs with hbounds
  · exact (Accepts.pure _).congr (by simp [hbounds])
  · refine Accepts.congr (hitems.bind_true fun types => ?_) (by simp [hbounds])
    cases types <;> exact Accepts.pure _

/-- A value that counts as absent requires no name. -/
theorem answersFor_of_absent {required : Value} (h : required.isPresent = false) (name : Scalar) :
    AnswersFor required name := by
  rcases required with s | items | keys
  · cases s <;> cases name <;> simp_all [AnswersFor]
  · trivial
  · trivial

/-- Whether a value that is present holds a name can be told where it answers for the name. -/
theorem exists_contains_iff {required : Value} (h : required.isPresent = true) (name : Scalar) :
    (∃ answer, required.contains name = .ok answer) ↔ AnswersFor required name := by
  rcases required with s | items | keys
  · cases s <;> cases name <;> simp_all [Value.contains, AnswersFor]
  · simp [Value.contains, AnswersFor]
  · simp [Value.contains, AnswersFor]

/-- Whether a property is required can be told where the required names answer for its name. -/
theorem exists_required_iff (members : Members) (name : Scalar) :
    (∃ answer, Fault.ofMalformed ((requiredNames members).contains name) = .ok answer) ↔
      AnswersFor (members.fieldOrNull "required") name := by
  rw [requiredNames, Value.orElse]
  split_ifs with hpresent
  · rw [← exists_contains_iff hpresent]
    cases (Members.fieldOrNull "required" members).contains name <;> simp [Fault.ofMalformed]
  · have habsent := answersFor_of_absent (Bool.eq_false_iff.mpr hpresent) name
    simp [Value.contains, Fault.ofMalformed, habsent]

/-- Asking whether a property is required succeeds where the required names answer for its name. -/
theorem required_accepts (members : Members) (name : Scalar) :
    Accepts (liftM (Fault.ofMalformed ((requiredNames members).contains name)))
      (AnswersFor (members.fieldOrNull "required") name) :=
  Accepts.lift (exists_required_iff members name)

/-- A value that can hold no properties has to count as absent. -/
theorem absent_accepts (other : Value) :
    Accepts (if other.isPresent then throw (.malformed .notObject)
      else pure [] : Build (List (Field TypeExpr))) (other.isPresent = false) := by
  split_ifs with hpresent
  · exact (Accepts.throw _).congr (by simp [hpresent])
  · exact (Accepts.pure []).congr (by simp [hpresent])

section Inner

/-! Where every inner schema is accepted under a condition of its own, so are properties, items and
branches. -/

variable {scope : Scope} {rooted : Bool}

/-- Properties can be built if each of them can and is found out to be required or not. -/
theorem fieldsOf_accepts (members : Members) (properties : List (Scalar × Value))
    (h : ∀ property ∈ properties, Accepts (types scope property.2) (Supported rooted property.2)) :
    Accepts (fieldsOf scope (requiredNames members) properties)
      ((∀ property ∈ properties, AnswersFor (members.fieldOrNull "required") property.1) ∧
        ∀ property ∈ properties, Supported rooted property.2) := by
  induction properties with
  | nil =>
    rw [fieldsOf]
    exact (Accepts.pure []).congr (by simp)
  | cons property rest ih =>
    obtain ⟨name, schema⟩ := property
    have hfirst := h (name, schema) List.mem_cons_self
    have hrest := ih fun p hp => h p (List.mem_cons_of_mem _ hp)
    have hrequired := required_accepts members name
    have hall : Accepts (fieldsOf scope (requiredNames members) ((name, schema) :: rest))
        (Supported rooted schema ∧ AnswersFor (members.fieldOrNull "required") name ∧
          (∀ property ∈ rest, AnswersFor (members.fieldOrNull "required") property.1) ∧
            ∀ property ∈ rest, Supported rooted property.2) := by
      rw [fieldsOf]
      exact hfirst.bind fun alternatives => hrequired.bind fun isRequired => hrest.map _
    apply hall.congr
    simp only [List.forall_mem_cons]
    tauto

/-- Schemas in a list can be built if each of them can. -/
theorem allTypes_accepts (schemas : List Value)
    (h : ∀ schema ∈ schemas, Accepts (types scope schema) (Supported rooted schema)) :
    Accepts (allTypes scope schemas) (∀ schema ∈ schemas, Supported rooted schema) := by
  induction schemas with
  | nil =>
    rw [allTypes]
    exact (Accepts.pure []).congr (by simp)
  | cons schema rest ih =>
    have hrest := ih fun s hs => h s (List.mem_cons_of_mem _ hs)
    rw [allTypes, List.forall_mem_cons]
    exact (h schema List.mem_cons_self).bind fun first => hrest.map _

/-- Branches can be built if each of them can. -/
theorem branchTypes_accepts (schemas : List Value)
    (h : ∀ schema ∈ schemas, Accepts (types scope schema) (Supported rooted schema)) :
    Accepts (branchTypes scope schemas) (∀ schema ∈ schemas, Supported rooted schema) := by
  induction schemas with
  | nil =>
    rw [branchTypes]
    exact (Accepts.pure []).congr (by simp)
  | cons schema rest ih =>
    have hrest := ih fun s hs => h s (List.mem_cons_of_mem _ hs)
    rw [branchTypes, List.forall_mem_cons]
    exact (h schema List.mem_cons_self).bind fun alternatives => hrest.map _

variable {members : Members}

/-- The properties under a name can be built if the member can hold properties and each is
supported. -/
theorem fieldsUnder_accepts (name : Text)
    (ih : ∀ schema, sizeOf schema < sizeOf (Value.object members) →
      Accepts (types scope schema) (Supported rooted schema)) :
    Accepts (fieldsUnder scope name (requiredNames members) members)
      (HoldsProperties name members ∧
        ∀ property ∈ namedSchemas name members, Supported rooted property.2) := by
  rw [fieldsUnder_eq, HoldsProperties, namedSchemas, Members.fieldOrNull]
  cases hfield : members.field? name with
  | none => exact (Accepts.pure []).congr (by simp [HoldsSchemas, Value.isPresent, Scalar.isPresent])
  | some v =>
    cases v with
    | object properties =>
      have hproperties := fieldsOf_accepts members properties fun property hproperty =>
        ih property.2 (Value.sizeOf_property_lt hfield hproperty)
      exact hproperties.congr (by simp [HoldsSchemas])
    | scalar s => exact (absent_accepts (.scalar s)).congr (by simp [HoldsSchemas])
    | list items => exact (absent_accepts (.list items)).congr (by simp [HoldsSchemas])

/-- The items of an array can be built if each schema for them is supported. -/
theorem itemTypes_accepts
    (ih : ∀ schema, sizeOf schema < sizeOf (Value.object members) →
      Accepts (types scope schema) (Supported rooted schema)) :
    Accepts (itemTypes scope members) (∀ schema ∈ itemSchemas members, Supported rooted schema) := by
  rw [itemTypes_eq, itemSchemas]
  cases hfield : members.field? "items" with
  | none => exact (Accepts.pure _).congr (by simp)
  | some v =>
    cases v with
    | list schemas =>
      exact allTypes_accepts schemas fun schema hschema => ih schema (Value.sizeOf_item_lt hfield hschema)
    | scalar s => exact (ih _ (Value.sizeOf_field?_lt hfield)).congr (by simp)
    | object schema => exact (ih _ (Value.sizeOf_field?_lt hfield)).congr (by simp)

/-- The branches of a combinator can be built if they are a list of supported schemas. -/
theorem branchesUnder_accepts (c : Combinator) (otherwise : Fault)
    (ih : ∀ schema, sizeOf schema < sizeOf (Value.object members) →
      Accepts (types scope schema) (Supported rooted schema)) :
    Accepts (branchesUnder scope c otherwise members)
      (∃ branches, members.field? c.keyword = some (.list branches) ∧
        ∀ branch ∈ branches, Supported rooted branch) := by
  rw [branchesUnder_eq]
  cases hfield : members.field? c.keyword with
  | none => exact (Accepts.throw otherwise).congr (by simp)
  | some v =>
    cases v with
    | list schemas =>
      have hbranches := branchTypes_accepts schemas fun schema hschema =>
        ih schema (Value.sizeOf_item_lt hfield hschema)
      exact hbranches.congr (by simp)
    | scalar s => exact (Accepts.throw otherwise).congr (by simp)
    | object schema => exact (Accepts.throw otherwise).congr (by simp)

end Inner

/-- A reference addresses something if it stays inside the document and leads to a part of it, or to
the document itself where that has a name. -/
theorem exists_target_iff (scope : Scope) (ref : Value) :
    (∃ target, scope.target ref = .ok target) ↔
      ∃ s, ref = .text s ∧ Pointer.isLocal s = true ∧
        (Pointer.split s ≠ [] ∨ scope.rootName.isSome = true) := by
  rcases ref with s | items | members
  · cases s with
    | text s =>
      rw [Scope.target]
      split_ifs with hlocal
      · cases hsplit : Pointer.split s with
        | nil => cases hroot : scope.rootName <;> simp [Scope.rootTarget, hroot, hlocal, hsplit]
        | cons segment rest => simp [hlocal, hsplit]
      · simp [hlocal]
    | _ => simp [Scope.target]
  · simp [Scope.target]
  · simp [Scope.target]

/-- Registering a reference succeeds if it addresses something. -/
theorem register_accepts (scope : Scope) (ref : Value) :
    Accepts (scope.register ref) (∃ target, scope.target ref = .ok target) := by
  rw [Scope.register]
  refine (Accepts.lift Iff.rfl).bind_true fun target => ?_
  cases target with
  | root name => exact Accepts.pure _
  | path segments => exact fun d => ⟨fun _ => trivial, fun _ => ⟨.path segments, d.add segments, rfl⟩⟩

/-- What a reference addresses has a qualified name. -/
theorem exists_reference_of_target {scope : Scope} (htotal : scope.Total) {ref : Value} {target : Target}
    (h : scope.target ref = .ok target) : ∃ t, scope.reference target.segments = .ok t := by
  rw [Scope.reference]
  cases target with
  | path segments =>
    rw [Target.segments, scope.naming.applyAll_texts]
    exact ⟨_, rfl⟩
  | root name =>
    obtain ⟨identifier, hidentifier⟩ := htotal name (rootName_of_target h)
    rw [Target.segments, Naming.applyAll, hidentifier]
    exact ⟨_, rfl⟩

/-- A reference can be built if it addresses something. -/
theorem reference_accepts {scope : Scope} (htotal : scope.Total) (ref : Value) :
    Accepts (do
      let target ← scope.register ref
      return [← scope.reference target.segments]) (∃ target, scope.target ref = .ok target) := by
  have hall := (register_accepts scope ref).bind_of_yields (register_yields scope ref)
    fun target htarget =>
      (Accepts.lift (iff_of_true (exists_reference_of_target htotal htarget) trivial)).map fun t => [t]
  exact hall.congr (iff_of_eq (and_true _))

/-- A literal type can be made of a scalar. -/
theorem literal_accepts (scope : Scope) (value : Value) :
    Accepts (liftM (literal scope value)) (∃ s, value = .scalar s) := by
  apply Accepts.lift
  cases value <;> simp [literal]

/-- The types of an enumeration can be made of a list of scalars. -/
theorem enumeration_accepts (scope : Scope) (values : Value) :
    Accepts (liftM (enumeration scope values))
      (∃ items, values = .list items ∧ ∀ v ∈ items, ∃ s, v = .scalar s) := by
  apply Accepts.lift
  have hscalar (v : Value) : isScalar v = true ↔ ∃ s, v = .scalar s := by
    cases v <;> simp [isScalar]
  cases values with
  | scalar s => simp [enumeration]
  | object members => simp [enumeration]
  | list items =>
    rw [enumeration]
    split_ifs with hall <;> simp_all

/-- The tags of an object are supported if they name types and what is visited for them can be
built. -/
theorem tagSupported_iff {rooted : Bool} {members : Members} :
    (∀ tag ∈ tags (members.fieldOrNull "type"), TagSupported
        ((HoldsProperties "properties" members ∧
            ∀ property ∈ namedSchemas "properties" members, Supported rooted property.2) ∧
          HoldsProperties "patternProperties" members ∧
            ∀ property ∈ namedSchemas "patternProperties" members, Supported rooted property.2)
        (unsatisfiable members = false → ∀ schema ∈ itemSchemas members, Supported rooted schema) tag) ↔
      Fits rooted members .typed ∧ ∀ part ∈ parts members .typed, Supported rooted part := by
  constructor
  · intro h
    refine ⟨⟨fun tag htag => (h tag htag).1, fun hobject => ?_⟩, fun part hpart => ?_⟩
    · have hheld := (h _ ((hasTag_iff "object" members).mp hobject)).2.1 rfl
      exact ⟨hheld.1.1, hheld.2.1⟩
    · rcases mem_parts_typed_iff.mp hpart with ⟨hobject, property, hproperty, rfl⟩ | ⟨harray, hbounds, hitem⟩
      · have hheld := (h _ ((hasTag_iff "object" members).mp hobject)).2.1 rfl
        rcases List.mem_append.mp hproperty with hproperty | hproperty
        · exact hheld.1.2 property hproperty
        · exact hheld.2.2 property hproperty
      · exact (h _ ((hasTag_iff "array" members).mp harray)).2.2 rfl hbounds part hitem
  · rintro ⟨⟨hnames, hproperties⟩, hparts⟩ tag htag
    refine ⟨hnames tag htag, ?_, ?_⟩
    · rintro rfl
      have hobject := (hasTag_iff "object" members).mpr htag
      have hschema : ∀ property ∈ namedSchemas "properties" members ++
          namedSchemas "patternProperties" members, Supported rooted property.2 :=
        fun property hproperty =>
          hparts property.2 (mem_parts_typed_iff.mpr (.inl ⟨hobject, property, hproperty, rfl⟩))
      obtain ⟨hnamed, hpatterns⟩ := hproperties hobject
      exact ⟨⟨hnamed, fun property hmem => hschema property (List.mem_append_left _ hmem)⟩,
        hpatterns, fun property hmem => hschema property (List.mem_append_right _ hmem)⟩
    · rintro rfl hbounds schema hschema
      have harray := (hasTag_iff "array" members).mpr htag
      exact hparts schema (mem_parts_typed_iff.mpr (.inr ⟨harray, hbounds, hschema⟩))

/-- A member that is absent holds no schemas, and nothing is asked of it. -/
theorem holdsProperties_of_absent {name : Text} {members : Members}
    (h : (members.fieldOrNull name).isPresent = false) :
    HoldsProperties name members ∧ namedSchemas name members = [] := by
  have hnone : namedSchemas name members = [] := by
    rw [namedSchemas]
    split
    · rename_i schemas hfield
      rw [Members.fieldOrNull, hfield, Option.getD_some] at h
      simpa [Value.isPresent] using h
    · rfl
  refine ⟨⟨?_, by simp [hnone]⟩, hnone⟩
  cases hvalue : members.fieldOrNull name with
  | object schemas => trivial
  | scalar s => rwa [hvalue] at h
  | list items => rwa [hvalue] at h

/-- The condition under which the types of a schema can be built is that it is supported. -/
theorem types_accepts {scope : Scope} (htotal : scope.Total) (schema : Value) :
    Accepts (types scope schema) (Supported scope.rootName.isSome schema) := by
  rcases schema with s | items | members
  · cases s with
    | bool b =>
      rw [types]
      exact (Accepts.pure _).congr (iff_of_true trivial (.boolean b))
    | _ =>
      rw [types]
      · refine (Accepts.throw _).congr (iff_of_false id ?_)
        rintro ⟨⟩
      · rintro b ⟨⟩
  · rw [types]
    refine (Accepts.throw _).congr (iff_of_false id ?_)
    rintro ⟨⟩
  · have ih (inner : Value) (hinner : sizeOf inner < sizeOf (Value.object members)) :=
      types_accepts htotal inner
    rw [types]
    cases hshape : Shape.ofMembers members with
    | error cause =>
      refine (Accepts.throw _).congr (iff_of_false id ?_)
      rintro (_ | ⟨hread, -, -⟩)
      rw [← ofMembers_eq_ok_iff, hshape] at hread
      cases hread
    | ok shape =>
      rw [ofMembers_eq_ok_iff] at hshape
      refine Accepts.congr ?_ (supported_object_iff hshape).symm
      cases shape with
      | boolean => cases hshape
      | reference =>
        refine (reference_accepts htotal _).congr ?_
        simp [exists_target_iff, Fits, parts]
      | const => exact ((literal_accepts scope _).map _).congr (by simp [Fits, parts])
      | enum => exact (enumeration_accepts scope _).congr (by simp [Fits, parts])
      | typed =>
        rw [← tagSupported_iff]
        refine typed_accepts scope _ ?_ (arrayOf_accepts members (itemTypes_accepts ih))
        refine objectOf_accepts members (fieldsUnder_accepts _ ih) (fieldsUnder_accepts _ ih) ?_
        intro habsent
        obtain ⟨hholds, hnone⟩ := holdsProperties_of_absent habsent
        exact ⟨hholds, by simp [hnone]⟩
      | combined c =>
        refine ((branchesUnder_accepts c _ ih).map _).congr ?_
        rw [Fits, parts, branchSchemas]
        split <;> simp_all
termination_by sizeOf schema
decreasing_by exact hinner

/-- Building succeeds on the supported schemas and stops with a fault on all others, whatever was
discovered before. -/
theorem types_succeed_iff_supported {scope : Scope} (htotal : scope.Total) (schema : Value)
    (d : Discovery) :
    ((∃ ts d', (types scope schema).run d = (.ok ts, d')) ↔
      Supported scope.rootName.isSome schema) ∧
    ((∃ fault d', (types scope schema).run d = (.error fault, d')) ↔
      ¬Supported scope.rootName.isSome schema) := by
  have haccepts := types_accepts htotal schema d
  exact ⟨haccepts, exists_error_iff.trans (not_congr haccepts)⟩

/-- A choice between a reference to the document itself, with a type beside it that is not read, and
an object or an array of no possible length, whose items are not read. -/
def partlyReadSchema : Value :=
  .object [(.text "oneOf", .list [
    .object [(.text "$ref", .text "#"), (.text "type", .text "unheard of")],
    .object [(.text "type", .texts ["object", "array", "null"]),
      (.text "properties", .object [(.text "kind", .object [(.text "enum", .list [.text "a", .null])])]),
      (.text "required", .text "kind"), (.text "minItems", .int 3), (.text "maxItems", .int 1),
      (.text "items", .int 5)]])]

/-- Such a schema can be built as soon as the document has a name. -/
theorem types_succeed_iff_supported_partlyRead :
    Scope.Total ⟨.standard, some (.text "Main"), none⟩ ∧ Supported true partlyReadSchema ∧
      Scope.Total ⟨.standard, none, none⟩ ∧ ¬Supported false partlyReadSchema := by
  have hnamed : Scope.Total ⟨.standard, some (.text "Main"), none⟩ := by
    rintro name ⟨⟩
    exact ⟨_, rfl⟩
  have hnameless : Scope.Total ⟨.standard, none, none⟩ := nofun
  refine ⟨hnamed, ?_, hnameless, ?_⟩
  · apply (types_succeed_iff_supported hnamed partlyReadSchema .empty).1.mp
    exact exists_run_eq_ok (by decide +kernel)
  · apply (types_succeed_iff_supported hnameless partlyReadSchema .empty).2.mp
    exact exists_run_eq_error (by decide +kernel)

end Schema

end SchemaTypes
