import SchemaTypes.Proofs.Document.Same
import SchemaTypes.Proofs.Schema.Mentions
import SchemaTypes.Proofs.Schema.Parts
import SchemaTypes.Proofs.Schema.Valid

/-!
# No valid value is excluded

The types that a schema is built as admit every value that is valid for the schema, whatever the
references stand for. Types may admit more: keywords beside the one that a schema is read by are left
out, and an exclusive choice becomes a union.

Some schemas ask for what types cannot express, and the types they are built as are too narrow. These
are named by `Expressible`, and none of them may be visited: an enumeration of nulls alone, the tag
`any` without `null`, a nullable array of no possible length and nothing else, pattern properties
without additional ones, required names that are no list, and items by position with no bound on the
length.
-/

namespace SchemaTypes

namespace Schema

open Build Faulting TypeExpr

/-- The schemas that are visited when a schema is built. -/
inductive Visited : Value → Value → Prop where
  | self (schema : Value) : Visited schema schema
  | part {members : Members} {shape : Shape} {part node : Value} (hread : Decides members shape)
      (hpart : part ∈ parts members shape) (hnode : Visited part node) : Visited (.object members) node

/-- Pattern properties stand beside additional ones. -/
def OpensPatterns (members : Members) : Prop :=
  (members.fieldOrNull "patternProperties").isPresent = true →
    (members.fieldOrNull "additionalProperties").isPresent = true

/-- The required names, if there are any, are a list. -/
def ListsNames (members : Members) : Prop :=
  (members.fieldOrNull "required").isPresent = true →
    ∃ names, members.fieldOrNull "required" = .list names

/-- Where items have schemas by position, a list may have no more items than there are schemas. -/
def BoundsPositions (members : Members) : Prop :=
  ∀ schemas, members.field? "items" = some (.list schemas) → schemas ≠ [] →
    ∃ most, bound? (members.field? "maxItems") = some most ∧ most.order (.scaled schemas.length 0) ≠ .gt

/-- What a schema read by `type` must look like for types to express it. -/
structure TypedExpressible (members : Members) : Prop where
  any_nullable : hasTag "any" members = true → hasTag "null" members = true
  null_beside : hasTag "null" members = true → unsatisfiable members = true →
    hasTag "array" members = true →
      ∃ tag ∈ tags (members.fieldOrNull "type"), tag ≠ .text "null" ∧ tag ≠ .text "array"
  patterns : hasTag "object" members = true → OpensPatterns members
  names : hasTag "object" members = true → ListsNames members
  positions : hasTag "array" members = true → unsatisfiable members = false → BoundsPositions members

/-- What an object must look like for types to express it, by the keyword that it is read by. -/
def ExpressibleAs (members : Members) : Shape → Prop
  | .enum => ∀ values, members.field? "enum" = some (.list values) → .null ∈ values →
      ∃ c ∈ values, c ≠ .null
  | .typed => TypedExpressible members
  | _ => True

/-- A schema that types can express, as far as the schema itself goes. -/
def Expressible : Value → Prop
  | .object members => ∀ shape, Decides members shape → ExpressibleAs members shape
  | _ => True

variable {ρ : List Value → Value → Prop} {scope : Scope}

/-- The types that a schema is built as admit every valid value. -/
def Covers (ρ : List Value → Value → Prop) (scope : Scope) (schema : Value) (ts : List TypeExpr) : Prop :=
  ∀ v, Valid ρ scope schema v → ∃ t ∈ ts, Admits ρ t v

/-- A reference admits what it refers to. -/
theorem reference_covers (ρ : List Value → Value → Prop) (scope : Scope) (ref : Value) :
    Yields (do
      let target ← scope.register ref
      return [← scope.reference target.segments]) fun ts =>
        ∀ v, RefersTo ρ scope ref v → ∃ t ∈ ts, Admits ρ t v := by
  refine (register_yields scope ref).bind fun target htarget => ?_
  have hreference : Yields (liftM (scope.reference target.segments) : Build TypeExpr) fun t =>
      ∃ parts, scope.naming.applyAll target.segments = .ok parts ∧ t = .reference parts := by
    apply Yields.lift
    intro t ht
    obtain ⟨parts, hparts, hresult⟩ := bind_eq_ok ht
    cases hresult
    exact ⟨parts, ofMalformed_eq_ok hparts, rfl⟩
  refine hreference.bind fun t ht => Yields.pure fun v hv => ?_
  obtain ⟨parts, hparts, rfl⟩ := ht
  exact ⟨_, List.mem_singleton_self _, by rw [Admits]; exact hv target parts htarget hparts⟩

/-- A literal type admits the value it is made from. -/
theorem literal_covers (ρ : List Value → Value → Prop) (scope : Scope) (c : Value) :
    Yields (do return [← literal scope c]) fun ts =>
      ∀ v, v.equals c = true → ∃ t ∈ ts, Admits ρ t v := by
  have hliteral : Yields (liftM (literal scope c) : Build TypeExpr) fun t => t = .literal c := by
    apply Yields.lift
    intro t ht
    cases c <;> cases ht
    rfl
  refine hliteral.bind fun t ht => Yields.pure fun v hv => ?_
  exact ⟨t, List.mem_singleton_self t, by rw [ht, Admits]; exact Or.inr hv⟩

/-- The types of an enumeration admit its values: null with any other value, and all others by their
own types. -/
theorem enumeration_covers (ρ : List Value → Value → Prop) (scope : Scope) (values : Value)
    (hnull : ∀ items, values = .list items → .null ∈ items → ∃ c ∈ items, c ≠ .null) :
    Yields (liftM (enumeration scope values) : Build (List TypeExpr)) fun ts =>
      ∀ v, (∀ items, values = .list items → ∃ c ∈ items, v.equals c = true) → ∃ t ∈ ts, Admits ρ t v := by
  apply Yields.lift
  intro ts hts v hv
  cases values with
  | scalar s => cases hts
  | object members => cases hts
  | list items =>
    obtain ⟨c, hc, hequal⟩ := hv items rfl
    have hliteral (item : Value) (hitem : item ∈ items) (hother : item ≠ .null) :
        TypeExpr.literal item ∈ (items.filter fun item => !item.isNull).map .literal := by
      refine List.mem_map_of_mem (List.mem_filter.mpr ⟨hitem, ?_⟩)
      rw [Bool.not_eq_true', Bool.eq_false_iff, Ne, Value.isNull_iff]
      exact hother
    rw [enumeration] at hts
    split at hts
    · cases hts
      by_cases hcnull : c = .null
      · rw [hcnull] at hequal hc
        obtain ⟨other, hother, hne⟩ := hnull items rfl hc
        refine ⟨_, hliteral other hother hne, ?_⟩
        rw [Admits]
        exact Or.inl (Value.eq_null_of_equals hequal)
      · refine ⟨_, hliteral c hc hcnull, ?_⟩
        rw [Admits]
        exact Or.inr hequal
    · cases hts

/-- What a field is made from: its name and type from a property, and from the required names whether
it is required. -/
structure FieldCovers (ρ : List Value → Value → Prop) (scope : Scope) (required : Value)
    (property : Scalar × Value) (field : Field TypeExpr) : Prop where
  name_eq : field.name = property.1
  type : ∀ v, Valid ρ scope property.2 v → Admits ρ field.type v
  required_eq : required.contains property.1 = .ok field.required

/-- Every field is made from one of the properties. -/
theorem fieldsOf_covers (required : Value) (properties : List (Scalar × Value))
    (h : ∀ property ∈ properties, Yields (types scope property.2) (Covers ρ scope property.2)) :
    Yields (fieldsOf scope required properties) fun fields =>
      ∀ field ∈ fields, ∃ property ∈ properties, FieldCovers ρ scope required property field := by
  induction properties with
  | nil =>
    rw [fieldsOf]
    exact Yields.pure (List.forall_mem_nil _)
  | cons property rest ih =>
    obtain ⟨name, schema⟩ := property
    rw [fieldsOf]
    refine (h (name, schema) List.mem_cons_self).bind fun alternatives halternatives => ?_
    refine (Yields.lift fun answer hanswer => ofMalformed_eq_ok hanswer).bind fun isRequired hrequired => ?_
    refine (ih fun p hp => h p (List.mem_cons_of_mem _ hp)).bind fun fields hfields => Yields.pure ?_
    rw [List.forall_mem_cons]
    constructor
    · refine ⟨(name, schema), List.mem_cons_self, rfl, fun v hv => ?_, hrequired⟩
      exact (admits_unionOf alternatives).mpr (halternatives v hv)
    · intro field hfield
      obtain ⟨property, hproperty, hcovers⟩ := hfields field hfield
      exact ⟨property, List.mem_cons_of_mem _ hproperty, hcovers⟩

/-- The types of several schemas in one list admit what is valid for one of the schemas. -/
theorem allTypes_covers (schemas : List Value)
    (h : ∀ schema ∈ schemas, Yields (types scope schema) (Covers ρ scope schema)) :
    Yields (allTypes scope schemas) fun ts => ∀ schema ∈ schemas, Covers ρ scope schema ts := by
  induction schemas with
  | nil =>
    rw [allTypes]
    exact Yields.pure (List.forall_mem_nil _)
  | cons schema rest ih =>
    rw [allTypes]
    refine (h schema List.mem_cons_self).bind fun first hfirst => ?_
    refine (ih fun s hs => h s (List.mem_cons_of_mem _ hs)).bind fun others hothers => Yields.pure ?_
    rw [List.forall_mem_cons]
    constructor
    · intro v hv
      obtain ⟨t, ht, hadmits⟩ := hfirst v hv
      exact ⟨t, List.mem_append_left _ ht, hadmits⟩
    · intro s hs v hv
      obtain ⟨t, ht, hadmits⟩ := hothers s hs v hv
      exact ⟨t, List.mem_append_right _ ht, hadmits⟩

/-- A type that admits what is valid for a schema. -/
def BranchCovers (ρ : List Value → Value → Prop) (scope : Scope) (schema : Value) (t : TypeExpr) : Prop :=
  ∀ v, Valid ρ scope schema v → Admits ρ t v

/-- Each branch has its type, and each type its branch. -/
theorem branchTypes_covers (schemas : List Value)
    (h : ∀ schema ∈ schemas, Yields (types scope schema) (Covers ρ scope schema)) :
    Yields (branchTypes scope schemas) fun ts =>
      (∀ schema ∈ schemas, ∃ t ∈ ts, BranchCovers ρ scope schema t) ∧
        ∀ t ∈ ts, ∃ schema ∈ schemas, BranchCovers ρ scope schema t := by
  induction schemas with
  | nil =>
    rw [branchTypes]
    exact Yields.pure ⟨List.forall_mem_nil _, List.forall_mem_nil _⟩
  | cons schema rest ih =>
    rw [branchTypes]
    refine (h schema List.mem_cons_self).bind fun alternatives halternatives => ?_
    refine (ih fun s hs => h s (List.mem_cons_of_mem _ hs)).bind fun others hothers => Yields.pure ?_
    have hfirst : BranchCovers ρ scope schema (unionOf alternatives) := fun v hv =>
      (admits_unionOf alternatives).mpr (halternatives v hv)
    rw [List.forall_mem_cons, List.forall_mem_cons]
    refine ⟨⟨⟨_, List.mem_cons_self, hfirst⟩, fun s hs => ?_⟩, ⟨_, List.mem_cons_self, hfirst⟩, fun t ht => ?_⟩
    · obtain ⟨t, ht, hcovers⟩ := hothers.1 s hs
      exact ⟨t, List.mem_cons_of_mem _ ht, hcovers⟩
    · obtain ⟨s, hs, hcovers⟩ := hothers.2 t ht
      exact ⟨s, List.mem_cons_of_mem _ hs, hcovers⟩

section Inner

/-! Where every inner schema that is visited is covered by its types, so are the schemas that hold
them. -/

variable {members : Members}

/-- The fields under a name are made from the schemas that the member of that name holds. -/
theorem fieldsUnder_covers (name : Text) (required : Value)
    (ih : ∀ property ∈ namedSchemas name members,
      Yields (types scope property.2) (Covers ρ scope property.2)) :
    Yields (fieldsUnder scope name required members) fun fields =>
      ∀ field ∈ fields, ∃ property ∈ namedSchemas name members,
        FieldCovers ρ scope required property field := by
  rw [fieldsUnder_eq]
  rw [namedSchemas] at ih ⊢
  cases hfield : members.field? name with
  | none => exact Yields.pure (List.forall_mem_nil _)
  | some held =>
    rw [hfield] at ih
    have habsent (other : Value) (property : List (Field TypeExpr) → Prop) (hnone : property []) :
        Yields (if other.isPresent then throw (.malformed .notObject) else pure []) property := by
      split
      · exact Yields.throw _ _
      · exact Yields.pure hnone
    cases held with
    | object properties => exact fieldsOf_covers required properties ih
    | scalar s => exact habsent (.scalar s) _ (List.forall_mem_nil _)
    | list items => exact habsent (.list items) _ (List.forall_mem_nil _)

/-- The types of items admit what is valid for one of the schemas of items. Where there is no schema,
there is no type either, or the one that admits everything. -/
def ItemsCover (ρ : List Value → Value → Prop) (scope : Scope) (members : Members) (ts : List TypeExpr) :
    Prop :=
  (itemSchemas members = [] → ts = [] ∨ ts = [.any]) ∧
    ∀ schema ∈ itemSchemas members, Covers ρ scope schema ts

/-- The types of items cover the schemas of items. -/
theorem itemTypes_covers
    (ih : ∀ schema ∈ itemSchemas members, Yields (types scope schema) (Covers ρ scope schema)) :
    Yields (itemTypes scope members) (ItemsCover ρ scope members) := by
  rw [itemTypes_eq]
  unfold ItemsCover
  rw [itemSchemas] at ih ⊢
  cases hfield : members.field? "items" with
  | none => exact Yields.pure ⟨fun _ => Or.inr rfl, List.forall_mem_nil _⟩
  | some held =>
    rw [hfield] at ih
    cases held with
    | scalar s =>
      exact (ih _ (List.mem_singleton_self _)).mono fun ts hts =>
        ⟨(absurd · (List.cons_ne_nil _ _)), List.forall_mem_singleton.mpr hts⟩
    | object inner =>
      exact (ih _ (List.mem_singleton_self _)).mono fun ts hts =>
        ⟨(absurd · (List.cons_ne_nil _ _)), List.forall_mem_singleton.mpr hts⟩
    | list schemas =>
      cases schemas with
      | nil =>
        rw [itemsHeld, allTypes]
        exact Yields.pure ⟨fun _ => Or.inl rfl, List.forall_mem_nil _⟩
      | cons schema rest =>
        exact (allTypes_covers _ ih).mono fun ts hts => ⟨(absurd · (List.cons_ne_nil _ _)), hts⟩

/-- A combinator admits what is valid for all of its branches, or for one of them. -/
theorem branches_cover (c : Combinator) (otherwise : Fault)
    (ih : ∀ branch ∈ branchSchemas c members, Yields (types scope branch) (Covers ρ scope branch)) :
    Yields (do
      let branches ← branchesUnder scope c otherwise members
      return [combine c branches]) (Covers ρ scope (.object members)) := by
  rw [branchesUnder_eq]
  rw [branchSchemas] at ih
  cases hfield : members.field? c.keyword with
  | none => exact (Yields.throw otherwise fun _ => False).bind fun _ => False.elim
  | some held =>
    rw [hfield] at ih
    cases held with
    | scalar s => exact (Yields.throw otherwise fun _ => False).bind fun _ => False.elim
    | object inner => exact (Yields.throw otherwise fun _ => False).bind fun _ => False.elim
    | list schemas =>
      refine (branchTypes_covers schemas ih).bind fun branches hbranches => Yields.pure fun v hv => ?_
      refine ⟨_, List.mem_singleton_self _, ?_⟩
      have hunion (hc : c ≠ .allOf) : Admits ρ (unionOf branches) v := by
        obtain ⟨inner, hinner, hvalid⟩ := hv.exists_branch hc hfield
        obtain ⟨t, ht, hcovers⟩ := hbranches.1 inner hinner
        exact (admits_unionOf branches).mpr ⟨t, ht, hcovers v hvalid⟩
      cases c with
      | anyOf => exact hunion Combinator.noConfusion
      | oneOf => exact hunion Combinator.noConfusion
      | allOf =>
        rw [combine, admits_intersectionOf]
        intro t ht
        obtain ⟨inner, hinner, hcovers⟩ := hbranches.2 t ht
        exact hcovers v (hv.allOf hfield hinner)

/-- A valid object has a member for every name that a list of required names holds. -/
theorem exists_get?_of_required {own : Members} (hlisted : ListsNames members)
    (hvalid : Valid ρ scope (.object members) (.object own)) {name : Scalar}
    (hname : (requiredNames members).contains name = .ok true) : ∃ w, own.get? name = some w := by
  rw [requiredNames, Value.orElse] at hname
  split at hname
  · rename_i hpresent
    obtain ⟨names, hnames⟩ := hlisted hpresent
    have hfield : members.field? "required" = some (.list names) := by
      rw [Members.fieldOrNull] at hnames
      cases hfield : members.field? "required" with
      | none =>
        rw [hfield] at hnames
        cases hnames
      | some held =>
        rw [hfield] at hnames
        exact congrArg some hnames
    rw [hnames, Value.contains] at hname
    obtain ⟨listed, hlisted, hsame⟩ := List.any_eq_true.mp (Except.ok.inj hname)
    cases listed with
    | scalar key =>
      obtain ⟨w, hw⟩ := hvalid.plain.required names own hfield rfl key hlisted
      exact Members.exists_get?_of_same hsame hw
    | list items => cases hsame
    | object inner => cases hsame
  · cases hname

/-- A type that admits null and every valid object. -/
def ObjectCovers (ρ : List Value → Value → Prop) (scope : Scope) (members : Members) (t : TypeExpr) : Prop :=
  Admits ρ t .null ∧ ∀ own, Valid ρ scope (.object members) (.object own) → Admits ρ t (.object own)

/-- The object type of a schema admits null and every valid object. -/
theorem objectOf_covers {properties patterns : Build (List (Field TypeExpr))}
    (hproperties : Yields properties fun fields => ∀ field ∈ fields,
      ∃ property ∈ namedSchemas "properties" members,
        FieldCovers ρ scope (requiredNames members) property field)
    (hopen : OpensPatterns members) (hlisted : ListsNames members) :
    Yields (objectOf members properties patterns) (ObjectCovers ρ scope members) := by
  refine hproperties.bind fun fields hfields => ?_
  have hadmits (index : Option (IndexSignature TypeExpr)) (hindex : ∀ values, IndexAdmits ρ index values) :
      ObjectCovers ρ scope members (.object fields index) := by
    rw [ObjectCovers, Admits]
    refine ⟨Or.inl rfl, fun own hvalid => ?_⟩
    rw [Admits]
    refine Or.inr ⟨own, rfl, (fieldsAdmit_iff fields own).mpr fun field hfield => ?_, hindex _⟩
    obtain ⟨⟨name, inner⟩, hproperty, hcovers⟩ := hfields field hfield
    rw [hcovers.name_eq]
    constructor
    · intro w hw
      rw [namedSchemas] at hproperty
      split at hproperty
      · rename_i hheld
        exact hcovers.type w (hvalid.property hheld hproperty hw)
      · cases hproperty
    · intro hrequired
      have hname := hcovers.required_eq
      rw [hrequired] at hname
      exact exists_get?_of_required hlisted hvalid hname
  dsimp only
  split
  · rename_i hsome
    refine (Yields.of_forall fun _ => trivial).bind fun sources (_ : True) => Yields.pure (hadmits _ ?_)
    intro values
    have hadditional : (members.fieldOrNull "additionalProperties").isPresent = true := by
      rcases Bool.or_eq_true_iff.mp hsome with hpatterns | hadditional
      · exact hopen hpatterns
      · exact hadditional
    simp [indexOf, IndexAdmits, hadditional, admits_unionOf, Admits, keywordAdmits]
  · exact Yields.pure (hadmits none fun _ => trivial)

/-- Bounds that some list satisfies are satisfiable. -/
theorem satisfiable_of_valid {own : List Value} (h : Valid ρ scope (.object members) (.list own)) :
    unsatisfiable members = false := by
  rw [unsatisfiable]
  split
  · rename_i least most hleast hmost
    have hlower := h.plain.minItems least own hleast rfl
    have hupper := h.plain.maxItems most own hmost rfl
    exact decide_eq_false (Extended.order_ne_gt_trans hlower hupper)
  · rfl

/-- Every item of a valid list is valid for a schema of items, where there is one, provided that
schemas by position cover the whole list. -/
theorem exists_itemSchema {own : List Value} (hvalid : Valid ρ scope (.object members) (.list own))
    (hbounded : BoundsPositions members) (hsome : itemSchemas members ≠ []) {w : Value}
    (hw : w ∈ own) :
    ∃ schema ∈ itemSchemas members, Valid ρ scope schema w := by
  rw [itemSchemas] at hsome ⊢
  split at hsome
  · exact absurd rfl hsome
  · rename_i schemas hheld
    obtain ⟨most, hmost, horder⟩ := hbounded schemas hheld hsome
    have hlength : own.length ≤ schemas.length := by
      rw [← Extended.order_natCast_ne_gt_iff]
      exact Extended.order_ne_gt_trans (hvalid.plain.maxItems most own hmost rfl) horder
    obtain ⟨i, hi, rfl⟩ := List.getElem_of_mem hw
    have hposition : i < (schemas.zip own).length := by
      rw [List.length_zip]
      omega
    have hzip : (schemas[i], own[i]) ∈ schemas.zip own := by
      simpa only [List.getElem_zip] using List.getElem_mem hposition
    exact ⟨schemas[i], List.getElem_mem _, hvalid.itemAt hheld hzip⟩
  · rename_i schema hlist hheld
    exact ⟨schema, List.mem_singleton_self _, hvalid.item hheld hlist hw⟩

/-- A type that admits every valid list, and null where some length is possible. -/
def ArrayCovers (ρ : List Value → Value → Prop) (scope : Scope) (members : Members) (t : TypeExpr) : Prop :=
  (unsatisfiable members = false → Admits ρ t .null) ∧
    ∀ own, Valid ρ scope (.object members) (.list own) → Admits ρ t (.list own)

/-- The array type of a schema admits every valid list, and null where some length is possible. -/
theorem arrayOf_covers {items : Build (List TypeExpr)}
    (hitems : unsatisfiable members = false → Yields items (ItemsCover ρ scope members))
    (hbounded : unsatisfiable members = false → BoundsPositions members) :
    Yields (arrayOf members items) (ArrayCovers ρ scope members) := by
  rw [arrayOf]
  split
  · rename_i hunsatisfiable
    refine Yields.pure ⟨fun hsatisfiable => ?_, fun own hvalid => ?_⟩
    · cases hunsatisfiable.symm.trans hsatisfiable
    · cases hunsatisfiable.symm.trans (satisfiable_of_valid hvalid)
  · rename_i hbounds
    have hsatisfiable : unsatisfiable members = false := Bool.eq_false_iff.mpr hbounds
    have harray (item : TypeExpr) (hitem : ∀ own, Valid ρ scope (.object members) (.list own) →
        ∀ w ∈ own, Admits ρ item w) : ArrayCovers ρ scope members (.array item) := by
      rw [ArrayCovers, Admits]
      refine ⟨fun _ => Or.inl rfl, fun own hvalid => ?_⟩
      rw [Admits]
      exact Or.inr ⟨own, rfl, hitem own hvalid⟩
    refine (hitems hsatisfiable).bind fun ts hts => ?_
    cases ts with
    | nil => exact Yields.pure (harray _ fun _ _ _ _ => admits_any)
    | cons t rest =>
      refine Yields.pure (harray _ fun own hvalid w hw => ?_)
      rw [admits_unionOf]
      by_cases hnone : itemSchemas members = []
      · rcases hts.1 hnone with hnil | hany
        · cases hnil
        · rw [hany]
          exact ⟨.any, List.mem_singleton_self _, admits_any⟩
      · obtain ⟨schema, hschema, hw⟩ := exists_itemSchema hvalid (hbounded hsatisfiable) hnone hw
        exact hts.2 schema hschema w hw

/-- What the type of a tag admits: null, unless it is an array of no possible length, and every valid
value of the type that the tag names. -/
structure TagCovers (ρ : List Value → Value → Prop) (scope : Scope) (members : Members) (tag : Value)
    (t : TypeExpr) : Prop where
  null : (tag = .text "array" → unsatisfiable members = false) → Admits ρ t .null
  named : ∀ word v, tag = .text word → v.hasType word = true → Valid ρ scope (.object members) v →
    Admits ρ t v

/-- The keyword type of a tag admits null and every value of the type that the tag names. -/
theorem keywordOf?_covers {tag : Value} {t : TypeExpr} (h : keywordOf? tag = some t) :
    TagCovers ρ scope members tag t := by
  rcases tag with s | items | inner
  · cases s with
    | text s =>
      have hkeyword (name : Text) (hname : name ∈ [("boolean" : Text), "number", "string"])
          (htype : ∀ v : Value, v.hasType s = true → v.hasType name = true) :
          TagCovers ρ scope members (.text s) (.keyword name) := by
        refine ⟨fun _ => (admits_keyword hname).mpr (Or.inl rfl), ?_⟩
        rintro word v htag hv -
        cases htag
        exact (admits_keyword hname).mpr (Or.inr (htype v hv))
      rw [keywordOf?] at h
      split_ifs at h with hany hboolean hnumber hstring <;> cases h
      · exact ⟨fun _ => admits_any, fun _ _ _ _ _ => admits_any⟩
      · exact hkeyword "boolean" (by simp) fun v hv => hboolean ▸ hv
      · refine hkeyword "number" (by simp) fun v hv => ?_
        rcases hnumber with rfl | rfl
        · exact Value.hasType_number hv
        · exact hv
      · exact hkeyword "string" (by simp) fun v hv => hstring ▸ hv
    | _ => cases h
  · cases h
  · cases h

/-- The type of a tag covers the values of the type that the tag names. -/
theorem tagType_covers {object array : Build TypeExpr} {tag : Value}
    (hobject : tag = .text "object" → Yields object (ObjectCovers ρ scope members))
    (harray : tag = .text "array" → Yields array (ArrayCovers ρ scope members)) :
    Yields (tagType scope object array tag) (TagCovers ρ scope members tag) := by
  rw [tagType]
  split_ifs with hobjectTag harrayTag
  · rw [isTag_iff] at hobjectTag
    refine (hobject hobjectTag).mono fun t ht => ⟨fun _ => ht.1, ?_⟩
    rintro word v hword htype hvalid
    cases hobjectTag.symm.trans hword
    obtain ⟨own, rfl⟩ := Value.exists_eq_object htype
    exact ht.2 own hvalid
  · rw [isTag_iff] at harrayTag
    refine (harray harrayTag).mono fun t ht => ⟨fun hsatisfiable => ht.1 (hsatisfiable harrayTag), ?_⟩
    rintro word v hword htype hvalid
    cases harrayTag.symm.trans hword
    obtain ⟨own, rfl⟩ := Value.exists_eq_list htype
    exact ht.2 own hvalid
  · cases hkeyword : keywordOf? tag with
    | none => exact Yields.throw _ _
    | some t => exact Yields.pure (keywordOf?_covers hkeyword)

/-- Every tag has a type that covers it. -/
theorem tagTypes_cover {object array : Build TypeExpr} (named : List Value)
    (h : ∀ tag ∈ named, Yields (tagType scope object array tag) (TagCovers ρ scope members tag)) :
    Yields (tagTypes scope object array named) fun ts =>
      ∀ tag ∈ named, ∃ t ∈ ts, TagCovers ρ scope members tag t := by
  induction named with
  | nil =>
    rw [tagTypes]
    exact Yields.pure (List.forall_mem_nil _)
  | cons tag rest ih =>
    rw [tagTypes_cons]
    refine (h tag List.mem_cons_self).bind fun t ht => ?_
    refine (ih fun other hother => h other (List.mem_cons_of_mem _ hother)).bind fun ts hts => Yields.pure ?_
    rw [List.forall_mem_cons]
    refine ⟨⟨t, List.mem_cons_self, ht⟩, fun other hother => ?_⟩
    obtain ⟨u, hu, hcovers⟩ := hts other hother
    exact ⟨u, List.mem_cons_of_mem _ hu, hcovers⟩

/-- Beside `null` there is a tag whose type admits null, unless there is no other tag. -/
theorem exists_nullable_tag (hexpressible : TypedExpressible members)
    (hnull : hasTag "null" members = true) {first : Value}
    (hfirst : first ∈ tags (members.fieldOrNull "type")) (hother : first ≠ .text "null") :
    ∃ tag ∈ tags (members.fieldOrNull "type"), tag ≠ .text "null" ∧
      (tag = .text "array" → unsatisfiable members = false) := by
  by_cases hbounds : unsatisfiable members = true
  · by_cases harray : hasTag "array" members = true
    · obtain ⟨tag, htag, hne, hnotArray⟩ := hexpressible.null_beside hnull hbounds harray
      exact ⟨tag, htag, hne, fun heq => absurd heq hnotArray⟩
    · refine ⟨first, hfirst, hother, fun heq => absurd ?_ harray⟩
      rw [hasTag_iff]
      exact heq ▸ hfirst
  · exact ⟨first, hfirst, hother, fun _ => Bool.eq_false_iff.mpr hbounds⟩

/-- The types of a `type` keyword admit every valid value. -/
theorem typed_covers {object array : Build TypeExpr} (hhas : members.has "type" = true)
    (hexpressible : TypedExpressible members)
    (htags : ∀ tag ∈ tags (members.fieldOrNull "type"),
      Yields (tagType scope object array tag) (TagCovers ρ scope members tag)) :
    Yields (typed scope (members.fieldOrNull "type") object array) (Covers ρ scope (.object members)) := by
  have hfield := Members.field?_of_has hhas
  have hnamed (tag : Value) : (tag ∈ (tags (members.fieldOrNull "type")).filter fun tag =>
      !isTag "null" tag) ↔ tag ∈ tags (members.fieldOrNull "type") ∧ tag ≠ .text "null" := by
    rw [List.mem_filter, Bool.not_eq_true', Bool.eq_false_iff, Ne, isTag_iff]
  have hnullable : (tags (members.fieldOrNull "type")).any (isTag "null") = hasTag "null" members := rfl
  rw [typed, hnullable]
  cases hfilter : (tags (members.fieldOrNull "type")).filter fun tag => !isTag "null" tag with
  | nil =>
    refine Yields.pure fun v hv => ?_
    obtain ⟨word, hword, htype⟩ := hv.plain.type _ hfield
    have hnull : word = "null" := by
      by_contra hne
      have hmem := (hnamed (.text word)).mpr ⟨hword, by simpa using hne⟩
      rw [hfilter] at hmem
      cases hmem
    rw [hnull] at hword htype
    rw [if_pos ((hasTag_iff "null" members).mpr hword)]
    exact ⟨.null, List.mem_singleton_self _, by rw [Admits]; exact Or.inl (Value.eq_null_of_hasType htype)⟩
  | cons first rest =>
    have hcovers := tagTypes_cover ((tags (members.fieldOrNull "type")).filter fun tag =>
      !isTag "null" tag) fun tag htag => htags tag ((hnamed tag).mp htag).1
    have hfirst := (hnamed first).mp (hfilter ▸ List.mem_cons_self)
    dsimp only
    rw [← hfilter]
    refine hcovers.bind fun ts hts => Yields.pure fun v hv => ?_
    obtain ⟨word, hword, htype⟩ := hv.plain.type _ hfield
    have hadmits (hne : word ≠ "null") : ∃ t ∈ ts, Admits ρ t v := by
      obtain ⟨t, ht, htag⟩ := hts (.text word) ((hnamed _).mpr ⟨hword, by simpa using hne⟩)
      exact ⟨t, ht, htag.named word v rfl htype hv⟩
    by_cases hnull : hasTag "null" members = true
    · rw [if_pos hnull]
      by_cases hne : word = "null"
      · rw [hne] at htype
        obtain ⟨tag, htag, hother, hsatisfiable⟩ := exists_nullable_tag hexpressible hnull hfirst.1 hfirst.2
        obtain ⟨t, ht, hcovered⟩ := hts tag ((hnamed tag).mpr ⟨htag, hother⟩)
        rw [Value.eq_null_of_hasType htype]
        exact ⟨t, ht, hcovered.null hsatisfiable⟩
      · exact hadmits hne
    · rw [if_neg hnull]
      have hne : word ≠ "null" := fun heq => hnull ((hasTag_iff "null" members).mpr (heq ▸ hword))
      obtain ⟨t, ht, hadmits⟩ := hadmits hne
      refine ⟨.nonNull t, List.mem_map_of_mem ht, ?_⟩
      rw [Admits]
      refine ⟨fun hv => ?_, hadmits⟩
      rw [hv] at htype
      have hany := (Value.word_of_null_hasType htype).resolve_left hne
      exact hnull (hexpressible.any_nullable ((hasTag_iff "any" members).mpr (hany ▸ hword)))

end Inner

/-- The types of a schema admit every valid value, provided that types can express every schema that
is visited. -/
theorem types_cover (schema : Value) : (∀ node, Visited schema node → Expressible node) →
    Yields (types scope schema) (Covers ρ scope schema) := by
  rcases schema with s | items | members <;> intro hexpressible
  · cases s with
    | bool b =>
      rw [types]
      refine Yields.pure fun v hv => ⟨_, List.mem_singleton_self _, ?_⟩
      rw [Valid] at hv
      cases b with
      | false => exact absurd rfl hv
      | true => exact admits_any
    | _ =>
      rw [types]
      · exact Yields.throw _ _
      · rintro b ⟨⟩
  · rw [types]
    exact Yields.throw _ _
  · have ih (shape : Shape) (hread : Decides members shape) (part : Value)
        (hpart : part ∈ parts members shape) : Yields (types scope part) (Covers ρ scope part) :=
      types_cover part fun node hnode => hexpressible node (.part hread hpart hnode)
    rw [types]
    cases hshape : Shape.ofMembers members with
    | error cause => exact Yields.throw _ _
    | ok shape =>
      rw [ofMembers_eq_ok_iff] at hshape
      have hself := hexpressible _ (.self _) shape hshape
      have ihparts := ih shape hshape
      cases shape with
      | boolean => cases hshape
      | reference =>
        refine (reference_covers ρ scope (Members.fieldOrNull "$ref" members)).mono fun ts hts v hv => ?_
        exact hts v (hv.plain.reference _ (Members.field?_of_has hshape))
      | const =>
        refine (literal_covers ρ scope (Members.fieldOrNull "const" members)).mono fun ts hts v hv => ?_
        exact hts v (hv.plain.const _ (Members.field?_of_has hshape.2))
      | enum =>
        have hfield := Members.field?_of_has hshape.2
        refine (enumeration_covers ρ scope (Members.fieldOrNull "enum" members) ?_).mono ?_
        · intro items hitems
          exact hself items (hitems ▸ hfield)
        · intro ts hts v hv
          exact hts v fun items hitems => hv.plain.enum items (hitems ▸ hfield)
      | typed =>
        apply typed_covers hshape.2 hself
        intro tag htag
        apply tagType_covers
        · rintro rfl
          have hobject := (hasTag_iff "object" members).mpr htag
          apply objectOf_covers _ (hself.patterns hobject) (hself.names hobject)
          apply fieldsUnder_covers
          intro property hproperty
          apply ihparts
          exact mem_parts_typed_iff.mpr
            (.inl ⟨hobject, property, List.mem_append_left _ hproperty, rfl⟩)
        · rintro rfl
          have harray := (hasTag_iff "array" members).mpr htag
          refine arrayOf_covers (fun hbounds => itemTypes_covers fun schema hschema => ?_)
            (hself.positions harray)
          exact ihparts schema (mem_parts_typed_iff.mpr (.inr ⟨harray, hbounds, hschema⟩))
      | combined c => exact branches_cover c _ ihparts
termination_by sizeOf schema
decreasing_by exact sizeOf_parts_lt hpart

/-- Building never excludes a valid value: whatever the references stand for, the union of the types
that a schema is built as admits every value that is valid for the schema, provided that types can
express every schema that is visited. -/
theorem types_admit_valid (ρ : List Value → Value → Prop) (scope : Scope) {schema v : Value}
    {ts : List TypeExpr} {d d' : Discovery}
    (hexpressible : ∀ node, Visited schema node → Expressible node)
    (hrun : (types scope schema).run d = (.ok ts, d')) (hvalid : Valid ρ scope schema v) :
    Admits ρ (unionOf ts) v :=
  (admits_unionOf ts).mpr (types_cover schema hexpressible d ts d' hrun v hvalid)

/-- The members of a schema for a word or null. -/
def kindMembers : Members := [(.text "enum", .list [.text "a", .null])]

/-- The members of a schema for nullable objects with a required member of this kind. -/
def holderMembers : Members :=
  [(.text "type", .texts ["object", "null"]),
    (.text "properties", .object [(.text "kind", .object kindMembers)]),
    (.text "required", .texts ["kind"])]

/-- Types can express this schema and the one inside it. -/
theorem expressible_of_visited_holder {node : Value} (h : Visited (.object holderMembers) node) :
    Expressible node := by
  have hholder (shape : Shape) (h : Decides holderMembers shape) : shape = .typed := by
    rw [← ofMembers_eq_ok_iff] at h
    exact (Except.ok.inj h).symm
  have hkind (shape : Shape) (h : Decides kindMembers shape) : shape = .enum := by
    rw [← ofMembers_eq_ok_iff] at h
    exact (Except.ok.inj h).symm
  cases h with
  | self =>
    intro shape hread
    cases hholder shape hread
    exact ⟨by decide +kernel, fun _ h => absurd h (by decide +kernel),
      fun _ h => absurd h (by decide +kernel), fun _ _ => ⟨_, rfl⟩, fun h => absurd h (by decide +kernel)⟩
  | @part _ shape inner _ hread hinner hnode =>
    cases hholder shape hread
    have hparts : parts holderMembers .typed = [.object kindMembers] := rfl
    rw [hparts, List.mem_singleton] at hinner
    subst hinner
    cases hnode with
    | self =>
      intro shape hread
      cases hkind shape hread
      rintro values ⟨⟩ -
      exact ⟨.text "a", List.mem_cons_self, nofun⟩
    | @part _ shape _ _ hread hinner _ =>
      cases hkind shape hread
      cases hinner

/-- Null is admitted in place of the word. -/
theorem types_admit_valid_holder :
    ∃ ts d, (types ⟨.standard, none, none⟩ (.object holderMembers)).run .empty = (.ok ts, d) ∧
      (∀ node, Visited (.object holderMembers) node → Expressible node) ∧
      Valid (fun _ _ => False) ⟨.standard, none, none⟩ (.object holderMembers)
        (.object [(.text "kind", .null)]) ∧
      Admits (fun _ _ => False) (unionOf ts) (.object [(.text "kind", .null)]) := by
  obtain ⟨ts, d, hrun⟩ : ∃ ts d, (types ⟨.standard, none, none⟩ (.object holderMembers)).run
      .empty = (.ok ts, d) := exists_run_eq_ok (by decide +kernel)
  have hkind : Valid (fun _ _ => False) ⟨.standard, none, none⟩ (.object kindMembers) .null := by
    rw [Valid]
    refine ⟨⟨?_, ?_, ?enum, ?_, ?_, ?_, ?_⟩, ?_, ?_, ?_, ?_, ?_, ?_⟩
    case enum =>
      rintro values ⟨⟩
      exact ⟨.null, by simp, rfl⟩
    all_goals intros; contradiction
  have hvalid : Valid (fun _ _ => False) ⟨.standard, none, none⟩ (.object holderMembers)
      (.object [(.text "kind", .null)]) := by
    rw [Valid]
    refine ⟨⟨?_, ?_, ?_, ?type, ?required, ?_, ?_⟩, ?properties, ?_, ?_, ?_, ?_, ?_⟩
    case type =>
      rintro keyword ⟨⟩
      exact ⟨"object", List.mem_cons_self, rfl⟩
    case required =>
      rintro names own ⟨⟩ ⟨⟩ name hname
      cases List.mem_singleton.mp hname
      exact ⟨.null, rfl⟩
    case properties =>
      rintro properties own ⟨⟩ ⟨⟩ name inner w hinner hw
      cases List.mem_singleton.mp hinner
      cases hw
      exact hkind
    all_goals intros; contradiction
  exact ⟨ts, d, hrun, fun node => expressible_of_visited_holder, hvalid,
    types_admit_valid _ _ (fun node => expressible_of_visited_holder) hrun hvalid⟩

end Schema

end SchemaTypes
