import SchemaTypes.Proofs.Schema.Mentions
import SchemaTypes.Proofs.TypeExpr.WellFormed

/-!
# Schemas build well-formed types

Every way to build types from a schema keeps them well-formed: unions and intersections collapse when they
have fewer than two members, and only the types of tags are marked as never null. The fields of an object
type are named by the keys of the properties, so whatever is asked of the names of fields need only hold of
the keys of the objects in the schema.

The types of a schema whose keys are texts can be printed, unless the document itself has a name that is no
text and is referred to by it.
-/

namespace SchemaTypes

namespace Value

mutual

/-- Whether the keys of every object inside a value are as asked. -/
def keysMeet (names : List Scalar → Bool) : Value → Bool
  | scalar _ => true
  | list items => itemsMeet names items
  | object members => names (members.map (·.1)) && membersMeet names members

/-- Whether the keys of every object inside a list of values are as asked. -/
def itemsMeet (names : List Scalar → Bool) : List Value → Bool
  | [] => true
  | v :: rest => keysMeet names v && itemsMeet names rest

/-- Whether the keys of every object inside the values of members are as asked. -/
def membersMeet (names : List Scalar → Bool) : List (Scalar × Value) → Bool
  | [] => true
  | (_, v) :: rest => keysMeet names v && membersMeet names rest

end

variable {names : List Scalar → Bool}

/-- The keys inside a list are as asked if those inside each item are. -/
theorem itemsMeet_iff {items : List Value} :
    itemsMeet names items = true ↔ ∀ v ∈ items, v.keysMeet names = true := by
  induction items with
  | nil => simp [itemsMeet]
  | cons v rest ih => rw [itemsMeet, Bool.and_eq_true, ih, List.forall_mem_cons]

/-- The keys inside members are as asked if those inside each value are. -/
theorem membersMeet_iff {members : Members} :
    membersMeet names members = true ↔ ∀ k v, (k, v) ∈ members → v.keysMeet names = true := by
  induction members with
  | nil => simp [membersMeet]
  | cons member rest ih =>
    obtain ⟨key, value⟩ := member
    rw [membersMeet, Bool.and_eq_true, ih]
    constructor
    · rintro ⟨hvalue, hrest⟩ k v hmem
      rcases List.mem_cons.mp hmem with heq | hmem
      · cases heq
        exact hvalue
      · exact hrest k v hmem
    · intro h
      exact ⟨h key value List.mem_cons_self, fun k v hmem => h k v (List.mem_cons_of_mem _ hmem)⟩

/-- The keys inside a member found by its name are as asked if those inside the object are. -/
theorem keysMeet_of_field? {members : Members} (h : (object members).keysMeet names = true)
    {name : Text} {v : Value} (hfield : members.field? name = some v) : v.keysMeet names = true := by
  rw [keysMeet, Bool.and_eq_true] at h
  obtain ⟨k, hmem⟩ := Members.mem_of_field? hfield
  exact membersMeet_iff.mp h.2 k v hmem

/-- If nothing is asked of keys, those inside every value are as asked. -/
theorem keysMeet_of_forall (h : ∀ keys, names keys = true) (v : Value) : v.keysMeet names = true := by
  induction v using induction_parts with
  | scalar s => rw [keysMeet]
  | list items ih =>
    rw [keysMeet]
    exact itemsMeet_iff.mpr ih
  | object members ih =>
    rw [keysMeet, h, Bool.true_and]
    exact membersMeet_iff.mpr ih

end Value

namespace Schema

open Build TypeExpr

variable {names : List Scalar → Bool} {scope : Scope}

/-- A reference addresses something that has a name. -/
theorem segments_ne_nil {ref : Value} {target : Target} (h : scope.target ref = .ok target) :
    target.segments ≠ [] := by
  cases target with
  | root name => exact List.cons_ne_nil _ _
  | path segments =>
    rw [Scope.target.eq_def] at h
    split at h
    · split at h
      · split at h
        · rw [Scope.rootTarget] at h
          split at h <;> cases h
        · rename_i hsplit
          cases h
          simpa [Target.segments] using hsplit
      · cases h
    · cases h

/-- There are as many identifiers as names that they are made from. -/
theorem ne_nil_of_applyAll {naming : Naming} {segments parts : List Value}
    (h : naming.applyAll segments = .ok parts) (hsegments : segments ≠ []) : parts ≠ [] := by
  obtain ⟨name, rest, rfl⟩ := List.exists_cons_of_ne_nil hsegments
  rw [Naming.applyAll] at h
  obtain ⟨identifier, -, h⟩ := Faulting.bind_eq_ok h
  obtain ⟨identifiers, -, h⟩ := Faulting.bind_eq_ok h
  cases h
  exact List.cons_ne_nil _ _

/-- A reference to something that has a name is well-formed. -/
theorem reference_wellFormed {segments : List Value} (hsegments : segments ≠ []) {t : TypeExpr}
    (h : scope.reference segments = .ok t) : WellFormed names t := by
  obtain ⟨parts, hparts, h⟩ := Faulting.bind_eq_ok h
  cases h
  exact .of_regular (ne_nil_of_applyAll (Faulting.ofMalformed_eq_ok hparts) hsegments) rfl

/-- The literal type of a value is well-formed. -/
theorem literal_wellFormed {value : Value} {t : TypeExpr} (h : literal scope value = .ok t) :
    WellFormed names t := by
  cases value with
  | scalar s =>
    cases h
    exact .literal s
  | list items => cases h
  | object members => cases h

/-- The types of an enumeration are well-formed. -/
theorem enumeration_wellFormed {values : Value} {ts : List TypeExpr}
    (h : enumeration scope values = .ok ts) : ∀ t ∈ ts, WellFormed names t := by
  cases values with
  | scalar s => cases h
  | object members => cases h
  | list items =>
    rw [enumeration] at h
    split at h
    · rename_i hscalars
      cases h
      intro t ht
      obtain ⟨item, hitem, rfl⟩ := List.mem_map.mp ht
      have hscalar := List.all_eq_true.mp hscalars item (List.mem_filter.mp hitem).1
      cases item with
      | scalar s => exact .literal s
      | list items => cases hscalar
      | object members => cases hscalar
    · cases h

/-- A type that is well-formed and may be marked as never null. -/
def Markable (names : List Scalar → Bool) (t : TypeExpr) : Prop :=
  WellFormed names t ∧ t.isMarkable = true

/-- The keyword type of a tag may be marked. -/
theorem keywordOf?_markable {tag : Value} {t : TypeExpr} (h : keywordOf? tag = some t) :
    Markable names t := by
  rw [keywordOf?.eq_def] at h
  split at h
  · split_ifs at h <;> cases h <;> exact ⟨.keyword (by decide), rfl⟩
  · cases h

/-- The types of tags may be marked if those of objects and arrays may. -/
theorem tagTypes_markable {object array : Build TypeExpr} (hobject : Yields object (Markable names))
    (harray : Yields array (Markable names)) (named : List Value) :
    Yields (tagTypes scope object array named) fun ts => ∀ t ∈ ts, Markable names t := by
  induction named with
  | nil => exact Yields.pure (List.forall_mem_nil _)
  | cons tag rest ih =>
    rw [tagTypes_cons]
    have htag : Yields (tagType scope object array tag) (Markable names) := by
      rw [tagType]
      split_ifs
      · exact hobject
      · exact harray
      · cases hkeyword : keywordOf? tag with
        | some t => exact Yields.pure (keywordOf?_markable hkeyword)
        | none => exact Yields.throw _ _
    exact htag.bind fun t ht => ih.bind fun ts hts => Yields.pure (List.forall_mem_cons.mpr ⟨ht, hts⟩)

/-- The types of a `type` keyword are well-formed. -/
theorem typed_wellFormed (keyword : Value) {object array : Build TypeExpr}
    (hobject : Yields object (Markable names)) (harray : Yields array (Markable names)) :
    Yields (typed scope keyword object array) fun ts => ∀ t ∈ ts, WellFormed names t := by
  rw [typed]
  cases (tags keyword).filter fun tag => !isTag "null" tag with
  | nil =>
    refine Yields.pure (List.forall_mem_singleton.mpr ?_)
    split_ifs
    · exact .literal .null
    · exact .keyword (by decide)
  | cons tag rest =>
    refine (tagTypes_markable hobject harray (tag :: rest)).bind fun ts hts => Yields.pure ?_
    split_ifs
    · exact fun t ht => (hts t ht).1
    · intro t ht
      obtain ⟨inner, hinner, rfl⟩ := List.mem_map.mp ht
      exact (hts inner hinner).1.nonNull (hts inner hinner).2

/-- Fields whose types are well-formed. -/
def Fields (names : List Scalar → Bool) (fields : List (Field TypeExpr)) : Prop :=
  ∀ field ∈ fields, WellFormed names field.type

/-- The object type of a schema is well-formed if its properties are named as asked and its properties
and pattern properties have well-formed types. -/
theorem objectOf_markable (members : Members) {properties patterns : Build (List (Field TypeExpr))}
    (hproperties : Yields properties fun fields =>
      names (fields.map (·.name)) = true ∧ Fields names fields)
    (hpatterns : Yields patterns (Fields names)) :
    Yields (objectOf members properties patterns) (Markable names) := by
  refine hproperties.bind fun fields hfields => ?_
  dsimp only
  split_ifs
  · refine hpatterns.bind fun sources hsources => Yields.pure ⟨.object hfields.1 hfields.2 ?_, rfl⟩
    intro signature hsignature
    cases hsignature
    refine .unionOf fun t ht => ?_
    rcases List.mem_append.mp ht with ht | ht
    · obtain ⟨field, hfield, rfl⟩ := List.mem_map.mp ht
      exact hsources field hfield
    · split_ifs at ht
      · rw [List.mem_singleton.mp ht]
        exact .keyword (by decide)
      · cases ht
  · exact Yields.pure ⟨.object hfields.1 hfields.2 (fun _ hnone => by cases hnone), rfl⟩

/-- The array type of a schema is well-formed if the types of its items are. -/
theorem arrayOf_markable (members : Members) {items : Build (List TypeExpr)}
    (hitems : Yields items fun ts => ∀ t ∈ ts, WellFormed names t) :
    Yields (arrayOf members items) (Markable names) := by
  rw [arrayOf]
  split_ifs
  · exact Yields.pure ⟨.keyword (by decide), rfl⟩
  · refine hitems.bind fun ts hts => ?_
    cases ts with
    | nil => exact Yields.pure ⟨.array (.keyword (by decide)), rfl⟩
    | cons t rest => exact Yields.pure ⟨.array (.unionOf hts), rfl⟩

/-- Fields are named by the keys of their properties, and their types are well-formed if those of the
properties are. -/
theorem fieldsOf_wellFormed (required : Value) (properties : List (Scalar × Value))
    (h : ∀ k schema, (k, schema) ∈ properties →
      Yields (types scope schema) fun ts => ∀ t ∈ ts, WellFormed names t) :
    Yields (fieldsOf scope required properties) fun fields =>
      fields.map (·.name) = properties.map (·.1) ∧ Fields names fields := by
  induction properties with
  | nil =>
    rw [fieldsOf]
    exact Yields.pure ⟨rfl, List.forall_mem_nil _⟩
  | cons property rest ih =>
    obtain ⟨k, schema⟩ := property
    rw [fieldsOf]
    refine (h k schema List.mem_cons_self).bind fun alternatives halternatives => ?_
    refine Yields.bind (Yields.of_forall fun _ => trivial) fun isRequired _ => ?_
    refine (ih fun n s hmem => h n s (List.mem_cons_of_mem _ hmem)).bind fun fields hfields => ?_
    exact Yields.pure ⟨congrArg (List.cons k) hfields.1,
      List.forall_mem_cons.mpr ⟨.unionOf halternatives, hfields.2⟩⟩

/-- The types of several schemas are well-formed if those of each are. -/
theorem allTypes_wellFormed (schemas : List Value)
    (h : ∀ schema ∈ schemas, Yields (types scope schema) fun ts => ∀ t ∈ ts, WellFormed names t) :
    Yields (allTypes scope schemas) fun ts => ∀ t ∈ ts, WellFormed names t := by
  induction schemas with
  | nil =>
    rw [allTypes]
    exact Yields.pure (List.forall_mem_nil _)
  | cons schema rest ih =>
    rw [allTypes]
    refine (h schema List.mem_cons_self).bind fun first hfirst => ?_
    refine (ih fun s hs => h s (List.mem_cons_of_mem _ hs)).bind fun others hothers => ?_
    exact Yields.pure (List.forall_mem_append.mpr ⟨hfirst, hothers⟩)

/-- The types of branches are well-formed if those of each are. -/
theorem branchTypes_wellFormed (schemas : List Value)
    (h : ∀ schema ∈ schemas, Yields (types scope schema) fun ts => ∀ t ∈ ts, WellFormed names t) :
    Yields (branchTypes scope schemas) fun ts => ∀ t ∈ ts, WellFormed names t := by
  induction schemas with
  | nil =>
    rw [branchTypes]
    exact Yields.pure (List.forall_mem_nil _)
  | cons schema rest ih =>
    rw [branchTypes]
    refine (h schema List.mem_cons_self).bind fun alternatives halternatives => ?_
    refine (ih fun s hs => h s (List.mem_cons_of_mem _ hs)).bind fun others hothers => ?_
    exact Yields.pure (List.forall_mem_cons.mpr ⟨.unionOf halternatives, hothers⟩)

section Members

variable {members : Members}

/-- The parts of a schema that have keys as asked and are smaller build well-formed types. -/
def PartsWellFormed (scope : Scope) (names : List Scalar → Bool) (members : Members) : Prop :=
  ∀ schema, sizeOf schema < sizeOf (Value.object members) → schema.keysMeet names = true →
    Yields (types scope schema) fun ts => ∀ t ∈ ts, WellFormed names t

/-- The fields under a name are named as asked and have well-formed types. -/
theorem fieldsUnder_wellFormed (hnil : names [] = true) (name : Text) (required : Value)
    (hkeys : (Value.object members).keysMeet names = true)
    (h : PartsWellFormed scope names members) :
    Yields (fieldsUnder scope name required members) fun fields =>
      names (fields.map (·.name)) = true ∧ Fields names fields := by
  have hnone : names (List.map (·.name) ([] : List (Field TypeExpr))) = true ∧ Fields names [] :=
    ⟨hnil, List.forall_mem_nil _⟩
  rw [fieldsUnder_eq]
  cases hfield : members.field? name with
  | none => exact Yields.pure hnone
  | some v =>
    cases v with
    | object properties =>
      have hproperties := Value.keysMeet_of_field? hkeys hfield
      rw [Value.keysMeet, Bool.and_eq_true] at hproperties
      have hfields := fieldsOf_wellFormed required properties fun k schema hmem =>
        h schema (Value.sizeOf_property_lt hfield hmem)
          (Value.membersMeet_iff.mp hproperties.2 k schema hmem)
      exact hfields.mono fun fields hall => ⟨by rw [hall.1, hproperties.1], hall.2⟩
    | scalar s =>
      rw [fieldsHeld]
      split_ifs
      · exact Yields.throw _ _
      · exact Yields.pure hnone
      · intro properties hproperties
        cases hproperties
    | list items =>
      rw [fieldsHeld]
      split_ifs
      · exact Yields.throw _ _
      · exact Yields.pure hnone
      · intro properties hproperties
        cases hproperties

/-- The types of items are well-formed. -/
theorem itemTypes_wellFormed (hkeys : (Value.object members).keysMeet names = true)
    (h : PartsWellFormed scope names members) :
    Yields (itemTypes scope members) fun ts => ∀ t ∈ ts, WellFormed names t := by
  rw [itemTypes_eq]
  cases hfield : members.field? "items" with
  | none => exact Yields.pure (List.forall_mem_singleton.mpr (.keyword (by decide)))
  | some v =>
    have hv := Value.keysMeet_of_field? hkeys hfield
    cases v with
    | list schemas =>
      rw [Value.keysMeet] at hv
      exact allTypes_wellFormed schemas fun schema hmem =>
        h schema (Value.sizeOf_item_lt hfield hmem) (Value.itemsMeet_iff.mp hv schema hmem)
    | scalar s => exact h _ (Value.sizeOf_field?_lt hfield) hv
    | object schema => exact h _ (Value.sizeOf_field?_lt hfield) hv

/-- The types of the branches of a combinator are well-formed. -/
theorem branchesUnder_wellFormed (c : Combinator) (otherwise : Fault)
    (hkeys : (Value.object members).keysMeet names = true)
    (h : PartsWellFormed scope names members) :
    Yields (branchesUnder scope c otherwise members) fun ts => ∀ t ∈ ts, WellFormed names t := by
  rw [branchesUnder_eq]
  cases hfield : members.field? c.keyword with
  | none => exact Yields.throw _ _
  | some v =>
    have hv := Value.keysMeet_of_field? hkeys hfield
    cases v with
    | list schemas =>
      rw [Value.keysMeet] at hv
      exact branchTypes_wellFormed schemas fun schema hmem =>
        h schema (Value.sizeOf_item_lt hfield hmem) (Value.itemsMeet_iff.mp hv schema hmem)
    | scalar s => exact Yields.throw _ _
    | object schema => exact Yields.throw _ _

end Members

/-- The types of a schema whose keys are as asked are well-formed. -/
theorem types_wellFormed (hnil : names [] = true) (schema : Value) :
    schema.keysMeet names = true →
      Yields (types scope schema) fun ts => ∀ t ∈ ts, WellFormed names t := by
  rcases schema with s | items | members <;> intro hkeys
  · cases s with
    | bool b =>
      rw [types]
      refine Yields.pure (List.forall_mem_singleton.mpr ?_)
      split_ifs <;> exact .keyword (by decide)
    | _ =>
      rw [types]
      · exact Yields.throw _ _
      · intro b hb
        cases hb
  · rw [types]
    exact Yields.throw _ _
  · have ih : PartsWellFormed scope names members := fun inner hinner hmeet =>
      types_wellFormed hnil inner hmeet
    rw [types]
    cases Shape.ofMembers members with
    | error cause => exact Yields.throw _ _
    | ok shape =>
      cases shape with
      | boolean => exact Yields.throw _ _
      | reference =>
        refine Yields.bind (register_yields scope _) fun target htarget => ?_
        refine Yields.bind (Yields.lift fun t ht => ?_) fun t ht =>
          Yields.pure (List.forall_mem_singleton.mpr ht)
        exact reference_wellFormed (segments_ne_nil htarget) ht
      | const =>
        exact Yields.bind (Yields.lift fun t ht => literal_wellFormed ht) fun t ht =>
          Yields.pure (List.forall_mem_singleton.mpr ht)
      | enum => exact Yields.lift fun ts hts => enumeration_wellFormed hts
      | typed =>
        have hfields (name : Text) := fieldsUnder_wellFormed hnil name (requiredNames members) hkeys ih
        exact typed_wellFormed _
          (objectOf_markable members (hfields _) ((hfields _).mono fun _ hall => hall.2))
          (arrayOf_markable members (itemTypes_wellFormed hkeys ih))
      | combined c =>
        refine (branchesUnder_wellFormed c _ hkeys ih).bind fun branches hbranches => ?_
        refine Yields.pure (List.forall_mem_singleton.mpr ?_)
        cases c with
        | allOf => exact .intersectionOf hbranches
        | oneOf => exact .unionOf hbranches
        | anyOf => exact .unionOf hbranches
termination_by sizeOf schema
decreasing_by exact hinner

end Schema

end SchemaTypes
