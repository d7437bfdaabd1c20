import SchemaTypes.Proofs.Namespace.Lookup
import SchemaTypes.Proofs.Schema.References
import SchemaTypes.Proofs.TypeExpr.Referenced
import Mathlib.Tactic.SplitIfs

/-!
# What the types of a schema mention

Every qualified name in the types built from a schema is the name of a path visited in the schema,
or the name of the document itself. So a name is never mentioned without its path being discovered.
-/

namespace SchemaTypes

open TypeExpr

/-- The qualified names that stand for some paths or for the document itself. -/
inductive Scope.Names (scope : Scope) (paths : List (List Text)) : List Value → Prop where
  | path {path : List Text} :
      path ∈ paths → Names scope paths ((path.map scope.naming.ofText).map .text)
  | root {name : Value} {parts : List Value} :
      scope.rootName = some name → scope.naming.applyAll [name] = .ok parts → Names scope paths parts

/-- Names of some paths are names of more paths. -/
theorem Scope.Names.mono {scope : Scope} {paths more : List (List Text)} {parts : List Value}
    (hsubset : paths ⊆ more) (h : scope.Names paths parts) : scope.Names more parts := by
  cases h with
  | path hmem => exact .path (hsubset hmem)
  | root hname hparts => exact .root hname hparts

namespace Schema

open Build Faulting

/-- All qualified names in a list of types stand for the given paths or for the document. -/
def Mentions (scope : Scope) (paths : List (List Text)) (ts : List TypeExpr) : Prop :=
  ∀ parts ∈ ts.flatMap referenced, scope.Names paths parts

namespace Mentions

variable {scope : Scope} {paths more : List (List Text)} {ts us : List TypeExpr}

/-- Types that mention nothing mention only names of any paths. -/
theorem of_nil (h : ts.flatMap referenced = []) : Mentions scope paths ts := by
  intro parts hparts
  rw [h] at hparts
  cases hparts

/-- Types that mention only names of some paths mention only names of more paths. -/
theorem mono (hsubset : paths ⊆ more) (h : Mentions scope paths ts) : Mentions scope more ts :=
  fun parts hparts => (h parts hparts).mono hsubset

/-- Two lists of types mention what each of them does. -/
theorem append (hts : Mentions scope paths ts) (hus : Mentions scope more us) :
    Mentions scope (paths ++ more) (ts ++ us) := by
  intro parts hparts
  rw [List.flatMap_append, List.mem_append] at hparts
  rcases hparts with hparts | hparts
  · exact (hts parts hparts).mono (List.subset_append_left _ _)
  · exact (hus parts hparts).mono (List.subset_append_right _ _)

/-- One more type is mentioned before the others. -/
theorem cons {t : TypeExpr} (ht : Mentions scope paths [t]) (hts : Mentions scope more ts) :
    Mentions scope (paths ++ more) (t :: ts) := ht.append hts

/-- The union of types mentions what they do. -/
theorem union (h : Mentions scope paths ts) : Mentions scope paths [unionOf ts] := by
  intro parts hparts
  rw [List.flatMap_singleton, referenced_unionOf] at hparts
  exact h parts hparts

/-- The intersection of types mentions what they do. -/
theorem intersection (h : Mentions scope paths ts) : Mentions scope paths [intersectionOf ts] := by
  intro parts hparts
  rw [List.flatMap_singleton, referenced_intersectionOf] at hparts
  exact h parts hparts

/-- Types marked as never null mention what they did before. -/
theorem nonNull (h : Mentions scope paths ts) : Mentions scope paths (ts.map .nonNull) := by
  intro parts hparts
  rw [flatMap_referenced_nonNull] at hparts
  exact h parts hparts

end Mentions

/-- A reference addresses the document itself under the name of the root declaration. -/
theorem rootName_of_target {scope : Scope} {ref name : Value} (h : scope.target ref = .ok (.root name)) :
    scope.rootName = some name := by
  rw [Scope.target.eq_def] at h
  split at h
  · split at h
    · split at h
      · rw [Scope.rootTarget] at h
        cases hroot : scope.rootName with
        | none =>
          rw [hroot] at h
          cases h
        | some root =>
          rw [hroot] at h
          cases h
          rfl
      · cases h
    · cases h
  · cases h

/-- The name of what a reference addresses is that of its path or that of the document. -/
theorem names_of_reference {scope : Scope} {ref : Value} {target : Target} {t : TypeExpr}
    (htarget : scope.target ref = .ok target) (h : scope.reference target.segments = .ok t) :
    Mentions scope (visitedPath ref) [t] := by
  rw [visitedPath_of_target htarget]
  rw [Scope.reference] at h
  cases hparts : scope.naming.applyAll target.segments with
  | error cause =>
    rw [hparts] at h
    cases h
  | ok parts =>
    rw [hparts] at h
    cases h
    intro mentioned hmentioned
    rw [List.flatMap_singleton, referenced, List.mem_singleton] at hmentioned
    subst hmentioned
    cases target with
    | root name => exact .root (rootName_of_target htarget) hparts
    | path segments =>
      rw [Target.segments, scope.naming.applyAll_texts] at hparts
      cases hparts
      exact .path (List.mem_singleton_self segments)

/-- Registering a reference gives what it addresses. -/
theorem register_yields (scope : Scope) (ref : Value) :
    Yields (scope.register ref) fun target => scope.target ref = .ok target := by
  refine Yields.bind (Yields.lift fun target htarget => htarget) fun target htarget => ?_
  cases target with
  | root name => exact Yields.pure htarget
  | path segments =>
    exact Yields.bind (Yields.of_forall fun _ => trivial) fun _ _ => Yields.pure htarget

/-- The type of a reference mentions the name of what it addresses. -/
theorem reference_mentions (scope : Scope) (ref : Value) :
    Yields (do
      let target ← scope.register ref
      return [← scope.reference target.segments]) (Mentions scope (visitedPath ref)) :=
  Yields.bind (register_yields scope ref) fun _ htarget =>
    Yields.bind (Yields.lift fun _ h => names_of_reference htarget h) fun _ h => Yields.pure h

/-- Literal types mention nothing. -/
theorem literal_mentions (scope : Scope) (value : Value) (paths : List (List Text)) :
    Yields (liftM (literal scope value)) fun t => Mentions scope paths [t] := by
  refine Yields.lift fun t h => .of_nil ?_
  cases value with
  | scalar s =>
    cases h
    simp [referenced]
  | list items => cases h
  | object members => cases h

/-- The types of an enumeration mention nothing. -/
theorem enumeration_mentions (scope : Scope) (values : Value) (paths : List (List Text)) :
    Yields (liftM (enumeration scope values)) (Mentions scope paths) := by
  refine Yields.lift fun ts h => .of_nil ?_
  cases values with
  | scalar s => cases h
  | object members => cases h
  | list items =>
    rw [enumeration] at h
    split at h
    · cases h
      simp [List.flatMap_map, referenced]
    · cases h

/-- The keyword type of a tag mentions nothing. -/
theorem keywordOf?_mentions {scope : Scope} {tag : Value} {t : TypeExpr} (h : keywordOf? tag = some t)
    (paths : List (List Text)) : Mentions scope paths [t] := by
  refine .of_nil ?_
  rw [keywordOf?.eq_def] at h
  split at h
  · split_ifs at h <;> cases h <;> simp [referenced]
  · cases h

/-- The types of tags mention what the types of objects and arrays among them do. -/
theorem tagTypes_mentions {scope : Scope} {object array : Build TypeExpr}
    {objectPaths arrayPaths : List (List Text)}
    (hobject : Yields object fun t => Mentions scope objectPaths [t])
    (harray : Yields array fun t => Mentions scope arrayPaths [t]) (named : List Value) :
    Yields (tagTypes scope object array named)
      (Mentions scope (tagReferences objectPaths arrayPaths named)) := by
  induction named with
  | nil => exact Yields.pure (.of_nil rfl)
  | cons tag rest ih =>
    have hrest {t : TypeExpr} {paths : List (List Text)} (ht : Mentions scope paths [t]) :=
      ih.bind fun ts hts => Yields.pure (Mentions.cons ht hts)
    simp only [tagTypes, tagReferences]
    split_ifs with hobjectTag harrayTag
    · exact hobject.bind fun t ht => hrest ht
    · exact harray.bind fun t ht => hrest ht
    · cases hkeyword : keywordOf? tag with
      | some t => exact hrest (keywordOf?_mentions hkeyword _)
      | none => exact Yields.throw _ _

/-- The types of a `type` keyword mention what the types of its tags do. -/
theorem typed_mentions {scope : Scope} (keyword : Value) {object array : Build TypeExpr}
    {objectPaths arrayPaths : List (List Text)}
    (hobject : Yields object fun t => Mentions scope objectPaths [t])
    (harray : Yields array fun t => Mentions scope arrayPaths [t]) :
    Yields (typed scope keyword object array)
      (Mentions scope (tagReferences objectPaths arrayPaths (tags keyword))) := by
  rw [typed, ← tagReferences_filter]
  cases (tags keyword).filter fun tag => !isTag "null" tag with
  | nil =>
    refine Yields.pure (.of_nil ?_)
    split_ifs <;> simp [referenced]
  | cons tag rest =>
    refine (tagTypes_mentions hobject harray (tag :: rest)).bind fun ts hts => Yields.pure ?_
    split_ifs
    · exact hts
    · exact hts.nonNull

/-- An object type without an index signature mentions what the types of its fields do. -/
theorem Mentions.object {scope : Scope} {paths : List (List Text)} {fields : List (Field TypeExpr)}
    (h : Mentions scope paths (fields.map (·.type))) :
    Mentions scope paths [.object fields none] := by
  intro parts hparts
  simp only [List.flatMap_singleton, referenced, referencedInIndex, List.append_nil,
    referencedInFields_eq] at hparts
  exact h parts (by rwa [List.flatMap_map])

/-- An object type mentions what the types of its fields and of its index signature do. -/
theorem Mentions.object_index {scope : Scope} {paths more : List (List Text)}
    {fields : List (Field TypeExpr)} {index : IndexSignature TypeExpr}
    (hfields : Mentions scope paths (fields.map (·.type))) (hindex : Mentions scope more [index.type]) :
    Mentions scope (paths ++ more) [.object fields (some index)] := by
  intro parts hparts
  simp only [List.flatMap_singleton, referenced, referencedInIndex, referencedInFields_eq,
    List.mem_append] at hparts
  rcases hparts with hparts | hparts
  · exact (hfields parts (by rwa [List.flatMap_map])).mono (List.subset_append_left _ _)
  · exact (hindex parts (by rwa [List.flatMap_singleton])).mono (List.subset_append_right _ _)

/-- An object type mentions what the types of its properties and pattern properties do. -/
theorem objectOf_mentions {scope : Scope} (members : Members)
    {properties patterns : Build (List (Field TypeExpr))} {propertyPaths patternPaths : List (List Text)}
    (hproperties : Yields properties fun fields => Mentions scope propertyPaths (fields.map (·.type)))
    (hpatterns : Yields patterns fun fields => Mentions scope patternPaths (fields.map (·.type))) :
    Yields (objectOf members properties patterns)
      fun t => Mentions scope (propertyPaths ++ patternPaths) [t] := by
  refine hproperties.bind fun fields hfields => ?_
  dsimp only
  split_ifs
  · refine hpatterns.bind fun sources hsources => Yields.pure (hfields.object_index ?_)
    have hopen : Mentions scope []
        (if (Members.fieldOrNull "additionalProperties" members).isPresent then [TypeExpr.any] else []) := by
      refine .of_nil ?_
      split_ifs <;> simp [referenced]
    have hall := (hsources.append hopen).union
    rwa [List.append_nil] at hall
  · exact Yields.pure (hfields.object.mono (List.subset_append_left _ _))

/-- An array type mentions what the types of its items do. -/
theorem arrayOf_mentions {scope : Scope} (members : Members) {items : Build (List TypeExpr)}
    {paths : List (List Text)} (hitems : Yields items (Mentions scope paths)) :
    Yields (arrayOf members items)
      fun t => Mentions scope (if unsatisfiable members then [] else paths) [t] := by
  rw [arrayOf]
  split_ifs
  · exact Yields.pure (.of_nil (by simp [referenced]))
  · refine hitems.bind fun ts hts => ?_
    cases ts with
    | nil => exact Yields.pure (.of_nil (by simp [referenced]))
    | cons t rest =>
      refine Yields.pure fun parts hparts => ?_
      rw [List.flatMap_singleton, referenced, referenced_unionOf] at hparts
      exact hts parts hparts

/-- The types of properties mention what each does, if this holds of every single one. -/
theorem fieldsOf_mentions (scope : Scope) (required : Value) (properties : List (Scalar × Value))
    (h : ∀ name schema, (name, schema) ∈ properties →
      Yields (types scope schema) (Mentions scope (references schema))) :
    Yields (fieldsOf scope required properties)
      fun fields => Mentions scope (memberReferences properties) (fields.map (·.type)) := by
  induction properties with
  | nil =>
    rw [fieldsOf, memberReferences]
    exact Yields.pure (.of_nil rfl)
  | cons property rest ih =>
    obtain ⟨name, schema⟩ := property
    rw [fieldsOf, memberReferences]
    refine (h name schema List.mem_cons_self).bind fun alternatives halternatives => ?_
    refine Yields.bind (Yields.of_forall fun _ => trivial) fun isRequired _ => ?_
    refine (ih fun n s hmem => h n s (List.mem_cons_of_mem _ hmem)).bind fun fields hfields => ?_
    exact Yields.pure (halternatives.union.cons hfields)

/-- The types of several schemas mention what each does, if this holds of every single one. -/
theorem allTypes_mentions (scope : Scope) (schemas : List Value)
    (h : ∀ schema ∈ schemas, Yields (types scope schema) (Mentions scope (references schema))) :
    Yields (allTypes scope schemas) (Mentions scope (allReferences schemas)) := by
  induction schemas with
  | nil =>
    rw [allTypes, allReferences]
    exact Yields.pure (.of_nil rfl)
  | cons schema rest ih =>
    rw [allTypes, allReferences]
    refine (h schema List.mem_cons_self).bind fun first hfirst => ?_
    refine (ih fun s hs => h s (List.mem_cons_of_mem _ hs)).bind fun others hothers => ?_
    exact Yields.pure (hfirst.append hothers)

/-- The types of branches mention what each does, if this holds of every single one. -/
theorem branchTypes_mentions (scope : Scope) (schemas : List Value)
    (h : ∀ schema ∈ schemas, Yields (types scope schema) (Mentions scope (references schema))) :
    Yields (branchTypes scope schemas) (Mentions scope (allReferences schemas)) := by
  induction schemas with
  | nil =>
    rw [branchTypes, allReferences]
    exact Yields.pure (.of_nil rfl)
  | cons schema rest ih =>
    rw [branchTypes, allReferences]
    refine (h schema List.mem_cons_self).bind fun alternatives halternatives => ?_
    refine (ih fun s hs => h s (List.mem_cons_of_mem _ hs)).bind fun others hothers => ?_
    exact Yields.pure (halternatives.union.cons hothers)

/-- The types of the properties under a name mention what is visited in them. -/
theorem fieldsUnder_mentions (scope : Scope) (name : Text) (required : Value) (members : Members)
    (h : ∀ schema, sizeOf schema < sizeOf (Value.object members) →
      Yields (types scope schema) (Mentions scope (references schema))) :
    Yields (fieldsUnder scope name required members)
      fun fields => Mentions scope (referencesUnder name members) (fields.map (·.type)) := by
  rw [fieldsUnder_eq, referencesUnder_eq]
  cases hfield : members.field? name with
  | none => exact Yields.pure (.of_nil rfl)
  | some v =>
    cases v with
    | object properties =>
      exact fieldsOf_mentions scope required properties fun k schema hmem =>
        h schema (Value.sizeOf_property_lt hfield hmem)
    | scalar s =>
      rw [fieldsHeld]
      split_ifs
      · exact Yields.throw _ _
      · exact Yields.pure (.of_nil rfl)
      · intro properties hproperties
        cases hproperties
    | list items =>
      rw [fieldsHeld]
      split_ifs
      · exact Yields.throw _ _
      · exact Yields.pure (.of_nil rfl)
      · intro properties hproperties
        cases hproperties

/-- The types of items mention what is visited in them. -/
theorem itemTypes_mentions (scope : Scope) (members : Members)
    (h : ∀ schema, sizeOf schema < sizeOf (Value.object members) →
      Yields (types scope schema) (Mentions scope (references schema))) :
    Yields (itemTypes scope members) (Mentions scope (itemReferences members)) := by
  rw [itemTypes_eq, itemReferences_eq]
  cases hfield : members.field? "items" with
  | none => exact Yields.pure (.of_nil (by simp [referenced]))
  | some v =>
    cases v with
    | list schemas =>
      exact allTypes_mentions scope schemas fun schema hmem =>
        h schema (Value.sizeOf_item_lt hfield hmem)
    | scalar s => exact h _ (Value.sizeOf_field?_lt hfield)
    | object schema => exact h _ (Value.sizeOf_field?_lt hfield)

/-- The types of the branches of a combinator mention what is visited in them. -/
theorem branchesUnder_mentions (scope : Scope) (c : Combinator) (otherwise : Fault) (members : Members)
    (h : ∀ schema, sizeOf schema < sizeOf (Value.object members) →
      Yields (types scope schema) (Mentions scope (references schema))) :
    Yields (branchesUnder scope c otherwise members)
      (Mentions scope (branchReferences c.keyword members)) := by
  rw [branchesUnder_eq, branchReferences_eq]
  cases hfield : members.field? c.keyword with
  | none => exact Yields.throw _ _
  | some v =>
    cases v with
    | list schemas =>
      exact branchTypes_mentions scope schemas fun schema hmem =>
        h schema (Value.sizeOf_item_lt hfield hmem)
    | scalar s => exact Yields.throw _ _
    | object schema => exact Yields.throw _ _

/-- The types of a schema mention the names of paths visited in it, or that of the document. -/
theorem types_mentions (scope : Scope) (schema : Value) :
    Yields (types scope schema) (Mentions scope (references schema)) := by
  rcases schema with s | items | members
  · cases s with
    | bool b =>
      rw [types]
      refine Yields.pure (.of_nil ?_)
      split_ifs <;> simp [referenced]
    | _ =>
      rw [types]
      · exact Yields.throw _ _
      · intro b hb
        cases hb
  · rw [types]
    exact Yields.throw _ _
  · have ih (inner : Value) (hinner : sizeOf inner < sizeOf (Value.object members)) :=
      types_mentions scope inner
    simp only [types, references]
    cases Shape.ofMembers members with
    | error cause => exact Yields.throw _ _
    | ok shape =>
      cases shape with
      | boolean => exact Yields.throw _ _
      | reference => exact reference_mentions scope _
      | const => exact (literal_mentions scope _ _).bind fun t ht => Yields.pure ht
      | enum => exact enumeration_mentions scope _ _
      | typed =>
        exact typed_mentions _
          (objectOf_mentions members (fieldsUnder_mentions scope _ _ members ih)
            (fieldsUnder_mentions scope _ _ members ih))
          (arrayOf_mentions members (itemTypes_mentions scope members ih))
      | combined c =>
        refine (branchesUnder_mentions scope c _ members ih).bind fun branches hbranches => ?_
        cases c with
        | allOf => exact Yields.pure hbranches.intersection
        | oneOf => exact Yields.pure hbranches.union
        | anyOf => exact Yields.pure hbranches.union
termination_by sizeOf schema
decreasing_by exact hinner

/-- A declaration mentions the names of paths visited in its schema, or that of the document. -/
theorem declare_mentions (scope : Scope) (schema name : Value) (ambient : Bool) :
    Yields (declare scope schema name ambient)
      fun declaration => Mentions scope (references schema) [declaration.type] :=
  (types_mentions scope schema).bind fun _ halternatives =>
    Yields.bind (Yields.of_forall fun _ => trivial) fun _ _ => Yields.pure halternatives.union

/-- A declaration has the identifier made from its name, from its title or from the fallback. -/
theorem declare_named (scope : Scope) (schema name : Value) (ambient : Bool) :
    Yields (declare scope schema name ambient) fun declaration =>
      scope.identify (name.orElse ((title schema).orElse (.text fallbackName))) =
        .ok declaration.name :=
  Yields.bind (Yields.of_forall fun _ => trivial) fun _ (_ : True) =>
    Yields.bind (Yields.lift fun _ hidentifier => hidentifier) fun _ hidentifier =>
      Yields.pure hidentifier

end Schema

end SchemaTypes
