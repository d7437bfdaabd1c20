import SchemaTypes.Proofs.Schema.Build
import SchemaTypes.Proofs.Schema.Types

/-!
# The references visited in a schema

Building the types of a schema visits some of the references written in it: those at the nodes that
decide the type, in the order of the text. Keywords beside a reference, a constant, an enumeration
or a `type` are not looked at, and neither are the items of an array that no length satisfies.

`references` lists the visited paths by a traversal of its own. Building explores exactly these.
-/

namespace SchemaTypes

namespace Schema

open Build Faulting

/-- The path that a reference addresses, unless it is the document itself. -/
def addressed (ref : Text) : List (List Text) :=
  match Pointer.split ref with
  | [] => []
  | path => [path]

/-- The path that a reference visits. One that leads out of the document visits none. -/
def visitedPath : Value → List (List Text)
  | .scalar (.text ref) => if Pointer.isLocal ref then addressed ref else []
  | _ => []

/-- The paths visited for each of a list of tags, given those of object and of array types. -/
def tagReferences (object array : List (List Text)) : List Value → List (List Text)
  | [] => []
  | tag :: rest =>
    (if isTag "object" tag then object else if isTag "array" tag then array else []) ++
      tagReferences object array rest

mutual

/-- The paths visited in a schema, in order. -/
def references : Value → List (List Text)
  | .scalar _ => []
  | .list _ => []
  | .object members =>
    match Shape.ofMembers members with
    | .ok .reference => visitedPath (Members.fieldOrNull "$ref" members)
    | .ok .typed =>
      tagReferences
        (referencesUnder "properties" members ++ referencesUnder "patternProperties" members)
        (if unsatisfiable members then [] else itemReferences members)
        (tags (Members.fieldOrNull "type" members))
    | .ok (.combined c) => branchReferences c.keyword members
    | _ => []

/-- The paths visited in the properties that the member of the given name holds. -/
def referencesUnder (name : Text) : List (Scalar × Value) → List (List Text)
  | [] => []
  | (k, v) :: rest =>
    if k.isText name then
      match v with
      | .object properties => memberReferences properties
      | _ => []
    else referencesUnder name rest

/-- The paths visited in each of several properties. -/
def memberReferences : List (Scalar × Value) → List (List Text)
  | [] => []
  | (_, schema) :: rest => references schema ++ memberReferences rest

/-- The paths visited in the items of an array schema. -/
def itemReferences : List (Scalar × Value) → List (List Text)
  | [] => []
  | (k, v) :: rest =>
    if k.isText "items" then
      match v with
      | .list schemas => allReferences schemas
      | schema => references schema
    else itemReferences rest

/-- The paths visited in each of several schemas. -/
def allReferences : List Value → List (List Text)
  | [] => []
  | schema :: rest => references schema ++ allReferences rest

/-- The paths visited in the branches that the member of the given name holds. -/
def branchReferences (keyword : Text) : List (Scalar × Value) → List (List Text)
  | [] => []
  | (k, v) :: rest =>
    if k.isText keyword then
      match v with
      | .list schemas => allReferences schemas
      | _ => []
    else branchReferences keyword rest

end

/-- A tag without a type of its own visits nothing. -/
theorem tagReferences_filter (object array : List (List Text)) (named : List Value) :
    tagReferences object array (named.filter fun tag => !isTag "null" tag) =
      tagReferences object array named := by
  induction named with
  | nil => rfl
  | cons tag rest ih =>
    by_cases hnull : isTag "null" tag
    · have hobject : isTag "object" tag = false := by
        cases tag with
        | scalar s => cases s <;> simp_all [isTag, Scalar.isText]
        | list items => rfl
        | object members => rfl
      have harray : isTag "array" tag = false := by
        cases tag with
        | scalar s => cases s <;> simp_all [isTag, Scalar.isText]
        | list items => rfl
        | object members => rfl
      rw [List.filter_cons_of_neg (by simp [hnull]), tagReferences, hobject, harray, ih]
      rfl
    · rw [List.filter_cons_of_pos (by simpa using hnull), tagReferences, tagReferences, ih]

/-- The paths visited in the value of a member that holds properties. -/
def propertyReferencesHeld : Option Value → List (List Text)
  | some (.object properties) => memberReferences properties
  | _ => []

/-- The paths visited in the value of a member that holds the items of an array. -/
def itemReferencesHeld : Option Value → List (List Text)
  | none => []
  | some (.list schemas) => allReferences schemas
  | some schema => references schema

/-- The paths visited in the value of a member that holds the branches of a combinator. -/
def branchReferencesHeld : Option Value → List (List Text)
  | some (.list schemas) => allReferences schemas
  | _ => []

/-- The paths visited in properties are those of the member that holds them. -/
theorem referencesUnder_eq (name : Text) (members : Members) :
    referencesUnder name members = propertyReferencesHeld (members.field? name) := by
  induction members with
  | nil => rfl
  | cons member rest ih =>
    obtain ⟨k, v⟩ := member
    by_cases hk : k.isText name
    · rw [Members.field?, if_pos hk]
      cases v <;> simp [referencesUnder, propertyReferencesHeld, hk]
    · rw [Members.field?, if_neg hk, ← ih]
      cases v <;> simp [referencesUnder, hk]

/-- The paths visited in items are those of the member `items`. -/
theorem itemReferences_eq (members : Members) :
    itemReferences members = itemReferencesHeld (members.field? "items") := by
  induction members with
  | nil => rfl
  | cons member rest ih =>
    obtain ⟨k, v⟩ := member
    by_cases hk : k.isText "items"
    · rw [Members.field?, if_pos hk]
      cases v <;> simp [itemReferences, itemReferencesHeld, hk]
    · rw [Members.field?, if_neg hk, ← ih]
      cases v <;> simp [itemReferences, hk]

/-- The paths visited in branches are those of the member that holds them. -/
theorem branchReferences_eq (keyword : Text) (members : Members) :
    branchReferences keyword members = branchReferencesHeld (members.field? keyword) := by
  induction members with
  | nil => rfl
  | cons member rest ih =>
    obtain ⟨k, v⟩ := member
    by_cases hk : k.isText keyword
    · rw [Members.field?, if_pos hk]
      cases v <;> simp [branchReferences, branchReferencesHeld, hk]
    · rw [Members.field?, if_neg hk, ← ih]
      cases v <;> simp [branchReferences, hk]

/-- A member that is absent holds no properties. -/
theorem propertyReferencesHeld_of_absent {name : Text} {members : Members}
    (h : (members.fieldOrNull name).isPresent = false) :
    propertyReferencesHeld (members.field? name) = [] := by
  rw [Members.fieldOrNull] at h
  cases hfield : members.field? name with
  | none => rfl
  | some v =>
    rw [hfield, Option.getD_some] at h
    cases v with
    | scalar s => rfl
    | list items => rfl
    | object properties =>
      cases properties with
      | nil => simp [propertyReferencesHeld, memberReferences]
      | cons property others => simp [Value.isPresent] at h

/-- What a reference addresses depends on the place in its faults alone. -/
theorem target_reportingAt (scope : Scope) (ref : Value) (place : Option Text) :
    (scope.reportingAt place).target ref =
      (scope.target ref).mapError (Fault.reportedAt place) := by
  rcases ref with s | items | members
  · cases s with
    | text ref =>
      simp only [Scope.target]
      split
      · cases Pointer.split ref with
        | nil =>
          simp only [Scope.rootTarget, Scope.reportingAt]
          cases scope.rootName <;> rfl
        | cons segment rest => rfl
      · rfl
    | _ => rfl
  · rfl
  · rfl

/-- A reference that is not refused visits the path that it addresses. -/
theorem visitedPath_of_target {scope : Scope} {ref : Value} {target : Target}
    (h : scope.target ref = .ok target) :
    visitedPath ref = match target with
      | .root _ => []
      | .path segments => [segments] := by
  rcases ref with s | items | members
  · cases s with
    | text ref =>
      simp only [Scope.target] at h
      simp only [visitedPath, addressed]
      split at h
      · rename_i hlocal
        rw [if_pos hlocal]
        cases hsplit : Pointer.split ref with
        | nil =>
          rw [hsplit] at h
          simp only [Scope.rootTarget] at h
          cases hroot : scope.rootName with
          | none => simp [hroot] at h
          | some name =>
            rw [hroot] at h
            cases h
            rfl
        | cons segment rest =>
          rw [hsplit] at h
          cases h
          rfl
      · cases h
    | _ => cases h
  · cases h
  · cases h

/-- Registering a reference visits its path. -/
theorem register_explores (scope : Scope) (ref : Value) :
    Explores (fun place => (scope.reportingAt place).register ref) (visitedPath ref) := by
  simp only [Scope.register, target_reportingAt]
  cases htarget : scope.target ref with
  | error fault =>
    exact ⟨.error fault, [], List.nil_prefix, nofun, fun place d => by simp [run_bind]; rfl⟩
  | ok target =>
    refine ⟨.ok target, visitedPath ref, List.prefix_rfl, fun _ _ => rfl, fun place d => ?_⟩
    rw [visitedPath_of_target htarget, run_bind]
    cases target <;> rfl

/-- Names made for a path depend on the naming alone. -/
theorem reference_explores (scope : Scope) (segments : List Value) :
    Explores (fun place => (liftM ((scope.reportingAt place).reference segments) : Build TypeExpr))
      [] := by
  refine Explores.lift (scope.reference segments) fun place => ?_
  simp only [Scope.reference, Scope.reportingAt]
  cases scope.naming.applyAll segments <;> rfl

/-- The identifier made from a name depends on the naming alone. -/
theorem identify_explores (scope : Scope) (name : Value) :
    Explores (fun place => (liftM ((scope.reportingAt place).identify name) : Build Value)) [] := by
  refine Explores.lift (scope.identify name) fun place => ?_
  simp only [Scope.identify, Scope.reportingAt]
  cases scope.naming.apply name <;> rfl

/-- A literal type depends on the place in its faults alone. -/
theorem literal_explores (scope : Scope) (value : Value) :
    Explores (fun place => (liftM (literal (scope.reportingAt place) value) : Build TypeExpr)) [] := by
  refine Explores.lift (literal scope value) fun place => ?_
  cases value <;> rfl

/-- The types of an enumeration depend on the place in their faults alone. -/
theorem enumeration_explores (scope : Scope) (values : Value) :
    Explores (fun place =>
      (liftM (enumeration (scope.reportingAt place) values) : Build (List TypeExpr))) [] := by
  refine Explores.lift (enumeration scope values) fun place => ?_
  cases values with
  | scalar s => rfl
  | object members => rfl
  | list items =>
    simp only [enumeration]
    split <;> rfl

/-- The types of tags visit what the types of objects and arrays among them do. -/
theorem tagTypes_explores (scope : Scope) {object array : Option Text → Build TypeExpr}
    {objectPaths arrayPaths : List (List Text)} (hobject : Explores object objectPaths)
    (harray : Explores array arrayPaths) (named : List Value) :
    Explores (fun place => tagTypes (scope.reportingAt place) (object place) (array place) named)
      (tagReferences objectPaths arrayPaths named) := by
  induction named with
  | nil => exact Explores.pure []
  | cons tag rest ih =>
    have hrest (type : TypeExpr) := ih.map fun types => type :: types
    simp only [tagTypes, tagReferences]
    by_cases hobjectTag : isTag "object" tag
    · simpa only [if_pos hobjectTag] using hobject.bind hrest
    · by_cases harrayTag : isTag "array" tag
      · simpa only [if_neg hobjectTag, if_pos harrayTag] using harray.bind hrest
      · simp only [if_neg hobjectTag, if_neg harrayTag, List.nil_append]
        cases keywordOf? tag with
        | some type => exact hrest type
        | none => exact Explores.throw (scope.fault (.unsupportedType tag)) _

/-- The types of a `type` keyword visit what the types of its tags do. -/
theorem typed_explores (scope : Scope) (keyword : Value)
    {object array : Option Text → Build TypeExpr} {objectPaths arrayPaths : List (List Text)}
    (hobject : Explores object objectPaths) (harray : Explores array arrayPaths) :
    Explores (fun place => typed (scope.reportingAt place) keyword (object place) (array place))
      (tagReferences objectPaths arrayPaths (tags keyword)) := by
  rw [← tagReferences_filter]
  simp only [typed]
  cases hnamed : (tags keyword).filter fun tag => !isTag "null" tag with
  | nil => exact Explores.pure _
  | cons tag rest => exact (tagTypes_explores scope hobject harray (tag :: rest)).map _

/-- An object type visits what its properties and then its pattern properties do. -/
theorem objectOf_explores (members : Members)
    {properties patterns : Option Text → Build (List (Field TypeExpr))}
    {propertyPaths patternPaths : List (List Text)} (hproperties : Explores properties propertyPaths)
    (hpatterns : Explores patterns patternPaths)
    (habsent : (members.fieldOrNull "patternProperties").isPresent = false → patternPaths = []) :
    Explores (fun place => objectOf members (properties place) (patterns place))
      (propertyPaths ++ patternPaths) := by
  simp only [objectOf]
  refine hproperties.bind fun fields => ?_
  by_cases hopen : ((members.fieldOrNull "patternProperties").isPresent ||
      (members.fieldOrNull "additionalProperties").isPresent) = true
  · simp only [if_pos hopen]
    exact hpatterns.map _
  · simp only [if_neg hopen]
    rw [habsent (by simp_all)]
    exact Explores.pure _

/-- An array type visits what its items do, unless no length satisfies its bounds. -/
theorem arrayOf_explores (members : Members) {items : Option Text → Build (List TypeExpr)}
    {paths : List (List Text)} (hitems : Explores items paths) :
    Explores (fun place => arrayOf members (items place))
      (if unsatisfiable members then [] else paths) := by
  simp only [arrayOf]
  by_cases hbounds : unsatisfiable members
  · simp only [if_pos hbounds]
    exact Explores.pure _
  · simp only [if_neg hbounds]
    rw [← List.append_nil paths]
    refine hitems.bind fun types => ?_
    cases types <;> exact Explores.pure _

/-- Building properties explores what is visited in each, if this holds of every single one. -/
theorem fieldsOf_explores (scope : Scope) (required : Value) (properties : List (Scalar × Value))
    (h : ∀ name schema, (name, schema) ∈ properties →
      Explores (fun place => types (scope.reportingAt place) schema) (references schema)) :
    Explores (fun place => fieldsOf (scope.reportingAt place) required properties)
      (memberReferences properties) := by
  induction properties with
  | nil =>
    simp only [fieldsOf, memberReferences]
    exact Explores.pure []
  | cons property rest ih =>
    obtain ⟨name, schema⟩ := property
    simp only [fieldsOf, memberReferences]
    refine (h name schema List.mem_cons_self).bind fun alternatives => ?_
    rw [← List.nil_append (memberReferences rest)]
    refine Explores.bind ?_ fun isRequired => ?_
    · refine Explores.lift (Fault.ofMalformed (required.contains name)) fun place => ?_
      cases required.contains name <;> rfl
    · exact (ih fun n s hmem => h n s (List.mem_cons_of_mem _ hmem)).map _

/-- Building several schemas explores what is visited in each, if this holds of every single one. -/
theorem allTypes_explores (scope : Scope) (schemas : List Value)
    (h : ∀ schema ∈ schemas,
      Explores (fun place => types (scope.reportingAt place) schema) (references schema)) :
    Explores (fun place => allTypes (scope.reportingAt place) schemas) (allReferences schemas) := by
  induction schemas with
  | nil =>
    simp only [allTypes, allReferences]
    exact Explores.pure []
  | cons schema rest ih =>
    simp only [allTypes, allReferences]
    refine (h schema List.mem_cons_self).bind fun first => ?_
    exact (ih fun s hs => h s (List.mem_cons_of_mem _ hs)).map _

/-- Building branches explores what is visited in each, if this holds of every single one. -/
theorem branchTypes_explores (scope : Scope) (schemas : List Value)
    (h : ∀ schema ∈ schemas,
      Explores (fun place => types (scope.reportingAt place) schema) (references schema)) :
    Explores (fun place => branchTypes (scope.reportingAt place) schemas)
      (allReferences schemas) := by
  induction schemas with
  | nil =>
    simp only [branchTypes, allReferences]
    exact Explores.pure []
  | cons schema rest ih =>
    simp only [branchTypes, allReferences]
    refine (h schema List.mem_cons_self).bind fun alternatives => ?_
    exact (ih fun s hs => h s (List.mem_cons_of_mem _ hs)).map _

/-- Building the properties under a name explores what is visited in them. -/
theorem fieldsUnder_explores (scope : Scope) (name : Text) (required : Value) (members : Members)
    (h : ∀ schema, sizeOf schema < sizeOf (Value.object members) →
      Explores (fun place => types (scope.reportingAt place) schema) (references schema)) :
    Explores (fun place => fieldsUnder (scope.reportingAt place) name required members)
      (referencesUnder name members) := by
  simp only [fieldsUnder_eq, referencesUnder_eq]
  cases hfield : members.field? name with
  | none => exact Explores.pure []
  | some v =>
    cases v with
    | object properties =>
      exact fieldsOf_explores scope required properties fun k schema hmem =>
        h schema (Value.sizeOf_property_lt hfield hmem)
    | scalar s =>
      simp only [fieldsHeld, propertyReferencesHeld]
      split
      · exact Explores.throw (.malformed .notObject) []
      · exact Explores.pure []
    | list items =>
      simp only [fieldsHeld, propertyReferencesHeld]
      split
      · exact Explores.throw (.malformed .notObject) []
      · exact Explores.pure []

/-- Building items explores what is visited in them. -/
theorem itemTypes_explores (scope : Scope) (members : Members)
    (h : ∀ schema, sizeOf schema < sizeOf (Value.object members) →
      Explores (fun place => types (scope.reportingAt place) schema) (references schema)) :
    Explores (fun place => itemTypes (scope.reportingAt place) members) (itemReferences members) := by
  simp only [itemTypes_eq, itemReferences_eq]
  cases hfield : members.field? "items" with
  | none => exact Explores.pure _
  | some v =>
    cases v with
    | list schemas =>
      exact allTypes_explores scope schemas fun schema hmem =>
        h schema (Value.sizeOf_item_lt hfield hmem)
    | scalar s => exact h _ (Value.sizeOf_field?_lt hfield)
    | object schema => exact h _ (Value.sizeOf_field?_lt hfield)

/-- Building the branches of a combinator explores what is visited in them. -/
theorem branchesUnder_explores (scope : Scope) (c : Combinator) (cause : SchemaFault)
    (members : Members)
    (h : ∀ schema, sizeOf schema < sizeOf (Value.object members) →
      Explores (fun place => types (scope.reportingAt place) schema) (references schema)) :
    Explores (fun place => branchesUnder (scope.reportingAt place) c
        ((scope.reportingAt place).fault cause) members)
      (branchReferences c.keyword members) := by
  simp only [branchesUnder_eq, branchReferences_eq]
  cases hfield : members.field? c.keyword with
  | none => exact Explores.throw (scope.fault cause) []
  | some v =>
    cases v with
    | list schemas =>
      exact branchTypes_explores scope schemas fun schema hmem =>
        h schema (Value.sizeOf_item_lt hfield hmem)
    | scalar s => exact Explores.throw (scope.fault cause) []
    | object schema => exact Explores.throw (scope.fault cause) []

/-- Building the types of a schema explores the references visited in it. -/
theorem types_explores (scope : Scope) (schema : Value) :
    Explores (fun place => types (scope.reportingAt place) schema) (references schema) := by
  rcases schema with s | items | members
  · cases s with
    | bool b =>
      simp only [types, references]
      exact Explores.pure _
    | _ =>
      simp only [types, references]
      exact Explores.throw (scope.fault (.unsupportedSchema _ "")) []
  · simp only [types, references]
    exact Explores.throw (scope.fault (.unsupportedSchema (.list items) "")) []
  · have ih (inner : Value) (hinner : sizeOf inner < sizeOf (Value.object members)) :=
      types_explores scope inner
    simp only [types, references]
    cases Shape.ofMembers members with
    | error cause => exact Explores.throw (scope.fault cause) []
    | ok shape =>
      cases shape with
      | boolean => exact Explores.throw (scope.fault (.unsupportedSchema (.object members) "")) []
      | reference =>
        rw [← List.append_nil (visitedPath _)]
        exact (register_explores scope _).bind fun target =>
          (reference_explores scope target.segments).map _
      | const => exact (literal_explores scope _).map _
      | enum => exact enumeration_explores scope _
      | typed =>
        refine typed_explores scope _ ?_ (arrayOf_explores members (itemTypes_explores scope members ih))
        refine objectOf_explores members (fieldsUnder_explores scope _ _ members ih)
          (fieldsUnder_explores scope _ _ members ih) fun habsent => ?_
        rw [referencesUnder_eq, propertyReferencesHeld_of_absent habsent]
      | combined c => exact (branchesUnder_explores scope c _ members ih).map _
termination_by sizeOf schema
decreasing_by exact hinner

/-- Declaring a schema explores the references visited in it. -/
theorem declare_explores (scope : Scope) (schema name : Value) (ambient : Bool) :
    Explores (fun place => declare (scope.reportingAt place) schema name ambient)
      (references schema) := by
  simp only [declare]
  rw [← List.append_nil (references schema)]
  exact (types_explores scope schema).bind fun alternatives => (identify_explores scope _).map _

end Schema

end SchemaTypes
