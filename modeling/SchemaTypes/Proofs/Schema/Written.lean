import SchemaTypes.Proofs.Pointer
import SchemaTypes.Proofs.Schema.References
import SchemaTypes.Schema.Resolution

/-!
# The references written in a document

Every path that building visits in a part of a document is written somewhere in the document, and
there are at most as many of them as references are counted. The number of references that can ever
be discovered is bounded for this reason. The texts of references are collected first, and the paths
written are those that these texts address.
-/

namespace SchemaTypes

namespace Value

/-- The text that a value is, if it is one. -/
def ownText : Value → List Text
  | scalar (.text s) => [s]
  | _ => []

mutual

/-- The texts of the references written anywhere inside a value. -/
def writtenReferences : Value → List Text
  | scalar _ => []
  | list items => writtenReferencesItems items
  | object members => writtenReferencesMembers members

/-- The references written inside the items of a list. -/
def writtenReferencesItems : List Value → List Text
  | [] => []
  | v :: rest => writtenReferences v ++ writtenReferencesItems rest

/-- The references written as members or inside members. -/
def writtenReferencesMembers : List (Scalar × Value) → List Text
  | [] => []
  | (k, v) :: rest =>
    (if k.isText "$ref" then ownText v else []) ++ writtenReferences v ++ writtenReferencesMembers rest

end

/-- The path that the value of a reference addresses, unless it is the document itself. -/
def addressedPath : Value → List (List Text)
  | scalar (.text ref) => Schema.addressed ref
  | _ => []

mutual

/-- The paths that the references written anywhere inside a value address. -/
def writtenPaths : Value → List (List Text)
  | scalar _ => []
  | list items => writtenPathsItems items
  | object members => writtenPathsMembers members

/-- The paths written inside the items of a list. -/
def writtenPathsItems : List Value → List (List Text)
  | [] => []
  | v :: rest => writtenPaths v ++ writtenPathsItems rest

/-- The paths written as members or inside members. -/
def writtenPathsMembers : List (Scalar × Value) → List (List Text)
  | [] => []
  | (k, v) :: rest =>
    (if k.isText "$ref" then addressedPath v else []) ++ writtenPaths v ++ writtenPathsMembers rest

end

/-- The path of a reference is addressed by its text. -/
theorem addressedPath_eq (v : Value) : v.addressedPath = v.ownText.flatMap Schema.addressed := by
  rcases v with s | items | members
  · cases s <;> simp [addressedPath, ownText]
  · rfl
  · rfl

/-- The paths written in items are those of the references written in them. -/
theorem writtenPathsItems_eq {items : List Value}
    (h : ∀ v ∈ items, v.writtenPaths = v.writtenReferences.flatMap Schema.addressed) :
    writtenPathsItems items = (writtenReferencesItems items).flatMap Schema.addressed := by
  induction items with
  | nil => rfl
  | cons v rest ih =>
    obtain ⟨hv, hrest⟩ := List.forall_mem_cons.mp h
    rw [writtenPathsItems, writtenReferencesItems, List.flatMap_append, hv, ih hrest]

/-- The paths written in members are those of the references written in them. -/
theorem writtenPathsMembers_eq {members : Members}
    (h : ∀ k v, (k, v) ∈ members → v.writtenPaths = v.writtenReferences.flatMap Schema.addressed) :
    writtenPathsMembers members = (writtenReferencesMembers members).flatMap Schema.addressed := by
  induction members with
  | nil => rfl
  | cons member rest ih =>
    obtain ⟨k, v⟩ := member
    have hrest := ih fun key w hw => h key w (List.mem_cons_of_mem _ hw)
    rw [writtenPathsMembers, writtenReferencesMembers, List.flatMap_append, List.flatMap_append,
      h k v List.mem_cons_self, hrest, addressedPath_eq]
    split <;> rfl

/-- The written paths are those that the written references address. -/
theorem writtenPaths_eq (v : Value) :
    v.writtenPaths = v.writtenReferences.flatMap Schema.addressed := by
  induction v using Value.induction_parts with
  | scalar s => rfl
  | list items ih => rw [writtenPaths, writtenReferences, writtenPathsItems_eq ih]
  | object members ih => rw [writtenPaths, writtenReferences, writtenPathsMembers_eq ih]

/-- The references that are texts are among those counted. -/
theorem writtenReferences_length_le (v : Value) : v.writtenReferences.length ≤ v.referenceCount := by
  induction v using Value.induction_parts with
  | scalar s => exact Nat.le_refl 0
  | list items ih =>
    simp only [writtenReferences, referenceCount]
    induction items with
    | nil => exact Nat.le_refl 0
    | cons v rest ihRest =>
      have hv := ih v List.mem_cons_self
      have hrest := ihRest fun w hw => ih w (List.mem_cons_of_mem v hw)
      simp only [writtenReferencesItems, referenceCountItems, List.length_append]
      omega
  | object members ih =>
    simp only [writtenReferences, referenceCount]
    induction members with
    | nil => exact Nat.le_refl 0
    | cons member rest ihRest =>
      obtain ⟨k, v⟩ := member
      have hv := ih k v List.mem_cons_self
      have hrest := ihRest fun key w hw => ih key w (List.mem_cons_of_mem _ hw)
      have hone : v.ownText.length ≤ 1 := by
        unfold ownText
        split <;> simp
      simp only [writtenReferencesMembers, referenceCountMembers, List.length_append]
      split
      · omega
      · rw [List.length_nil]
        omega

/-- There are at most as many written paths as written references. -/
theorem writtenPaths_length_le (v : Value) : v.writtenPaths.length ≤ v.referenceCount := by
  have hone (refs : List Text) : (refs.flatMap Schema.addressed).length ≤ refs.length := by
    induction refs with
    | nil => exact Nat.le_refl 0
    | cons ref rest ih =>
      have hpath : (Schema.addressed ref).length ≤ 1 := by
        unfold Schema.addressed
        split <;> simp
      simp only [List.flatMap_cons, List.length_append, List.length_cons]
      omega
  rw [writtenPaths_eq]
  exact Nat.le_trans (hone _) v.writtenReferences_length_le

/-- The path that a reference addresses is proper. -/
theorem proper_of_mem_addressed {ref : Text} {path : List Text} (h : path ∈ Schema.addressed ref) :
    Pointer.Proper path := by
  rw [Schema.addressed] at h
  split at h
  · cases h
  · rename_i hsplit
    rw [List.mem_singleton] at h
    exact h ▸ ⟨hsplit, Pointer.empty_not_mem_split ref⟩

/-- Every addressed path is proper. -/
theorem proper_of_mem_addressedPath {v : Value} {path : List Text} (h : path ∈ v.addressedPath) :
    Pointer.Proper path := by
  rw [addressedPath_eq, List.mem_flatMap] at h
  obtain ⟨ref, -, hpath⟩ := h
  exact proper_of_mem_addressed hpath

/-- Every written path is proper. -/
theorem proper_of_mem_writtenPaths {v : Value} {path : List Text} (h : path ∈ v.writtenPaths) :
    Pointer.Proper path := by
  rw [writtenPaths_eq, List.mem_flatMap] at h
  obtain ⟨ref, -, hpath⟩ := h
  exact proper_of_mem_addressed hpath

/-- The references written inside an item are written inside the list. -/
theorem writtenReferences_subset_items {items : List Value} {v : Value} (h : v ∈ items) :
    v.writtenReferences ⊆ writtenReferencesItems items := by
  induction items with
  | nil => cases h
  | cons w rest ih =>
    rw [writtenReferencesItems]
    rcases List.mem_cons.mp h with rfl | hrest
    · exact List.subset_append_left _ _
    · exact List.subset_append_of_subset_right _ (ih hrest)

/-- The references written inside a member are written inside the object. -/
theorem writtenReferences_subset_members {members : Members} {k : Scalar} {v : Value}
    (h : (k, v) ∈ members) : v.writtenReferences ⊆ writtenReferencesMembers members := by
  induction members with
  | nil => cases h
  | cons member rest ih =>
    obtain ⟨key, w⟩ := member
    rw [writtenReferencesMembers]
    rcases List.mem_cons.mp h with heq | hrest
    · cases heq
      exact List.subset_append_of_subset_left _ (List.subset_append_right _ _)
    · exact List.subset_append_of_subset_right _ (ih hrest)

/-- The reference that a member holds is written inside the object. -/
theorem ownText_subset_members {members : Members} {v : Value}
    (h : members.field? "$ref" = some v) : v.ownText ⊆ writtenReferencesMembers members := by
  induction members with
  | nil => cases h
  | cons member rest ih =>
    obtain ⟨key, w⟩ := member
    rw [Members.field?] at h
    rw [writtenReferencesMembers]
    split at h
    · rename_i hkey
      cases h
      rw [if_pos hkey]
      exact List.subset_append_of_subset_left _ (List.subset_append_left _ _)
    · exact List.subset_append_of_subset_right _ (ih h)

/-- More references address more paths. -/
theorem flatMap_addressed_subset {refs others : List Text} (h : refs ⊆ others) :
    refs.flatMap Schema.addressed ⊆ others.flatMap Schema.addressed := by
  intro path hpath
  obtain ⟨ref, href, haddressed⟩ := List.mem_flatMap.mp hpath
  exact List.mem_flatMap.mpr ⟨ref, h href, haddressed⟩

/-- The paths written inside a member are written inside the object. -/
theorem writtenPaths_subset_members {members : Members} {k : Scalar} {v : Value}
    (h : (k, v) ∈ members) : v.writtenPaths ⊆ writtenPathsMembers members := by
  rw [writtenPaths_eq, writtenPathsMembers_eq fun _ w _ => w.writtenPaths_eq]
  exact flatMap_addressed_subset (writtenReferences_subset_members h)

/-- The path of the reference that a member holds is written inside the object. -/
theorem addressedPath_subset_members {members : Members} {v : Value}
    (h : members.field? "$ref" = some v) : v.addressedPath ⊆ writtenPathsMembers members := by
  rw [addressedPath_eq, writtenPathsMembers_eq fun _ w _ => w.writtenPaths_eq]
  exact flatMap_addressed_subset (ownText_subset_members h)

/-- Following one segment leads to a part, whose references are written in the whole. -/
theorem writtenReferences_subset_of_step {v segment part : Value}
    (h : Pointer.step v segment = .ok (some part)) : part.writtenReferences ⊆ v.writtenReferences := by
  cases v with
  | scalar s => cases segment <;> cases h
  | object members =>
    cases segment with
    | scalar key =>
      obtain ⟨k, hmem⟩ := Members.mem_of_get? (Except.ok.inj h)
      rw [writtenReferences]
      exact writtenReferences_subset_members hmem
    | list items => cases h
    | object inner => cases h
  | list items =>
    cases segment with
    | scalar key =>
      cases key with
      | text s =>
        simp only [Pointer.step] at h
        cases hnumeral : numeral? s with
        | error cause => simp [hnumeral, bind, Except.bind] at h
        | ok position =>
          rw [hnumeral] at h
          obtain ⟨n, -, hitem⟩ := Option.bind_eq_some_iff.mp (Except.ok.inj h)
          rw [writtenReferences]
          exact writtenReferences_subset_items (List.mem_of_getElem? hitem)
      | _ => cases h
    | list segments => cases h
    | object inner => cases h

/-- Following a path leads to a part, whose references are written in the whole. -/
theorem writtenReferences_subset_of_follow {v part : Value} {segments : List Value}
    (h : Pointer.follow v segments = .ok (some part)) :
    part.writtenReferences ⊆ v.writtenReferences := by
  induction segments generalizing v with
  | nil =>
    cases h
    exact List.Subset.refl _
  | cons segment rest ih =>
    rw [Pointer.follow] at h
    cases hstep : Pointer.step v segment with
    | error cause => simp [hstep, bind, Except.bind] at h
    | ok next =>
      rw [hstep] at h
      cases next with
      | none => cases h
      | some w => exact List.Subset.trans (ih h) (writtenReferences_subset_of_step hstep)

end Value

namespace Pointer

/-- What a path leads to without counting null is found there. -/
theorem find?_of_target? {document schema : Value} {path : List Text}
    (h : target? document path = .ok (some schema)) : find? document path = .ok (some schema) := by
  rw [target?] at h
  cases hfind : find? document path with
  | error cause => simp [hfind, bind, Except.bind] at h
  | ok found =>
    rw [hfind] at h
    have hfilter : found.filter (fun value => !value.isNull) = some schema := Except.ok.inj h
    rw [Option.filter_eq_some_iff] at hfilter
    rw [hfilter.1]

/-- The references written in what a reference leads to are written in the document. -/
theorem writtenReferences_subset_of_target? {document schema : Value} {path : List Text}
    (h : target? document path = .ok (some schema)) :
    schema.writtenReferences ⊆ document.writtenReferences :=
  Value.writtenReferences_subset_of_follow (find?_of_target? h)

/-- The paths written in what a reference leads to are written in the document. -/
theorem writtenPaths_subset_of_target? {document schema : Value} {path : List Text}
    (h : target? document path = .ok (some schema)) :
    schema.writtenPaths ⊆ document.writtenPaths := by
  rw [Value.writtenPaths_eq, Value.writtenPaths_eq]
  exact Value.flatMap_addressed_subset (writtenReferences_subset_of_target? h)

end Pointer

namespace Schema

open Value

/-- A visited path is the one that the reference addresses. -/
theorem visitedPath_subset (ref : Value) : visitedPath ref ⊆ ref.addressedPath := by
  rcases ref with s | items | members
  · cases s with
    | text ref =>
      rw [visitedPath, addressedPath]
      split
      · exact List.Subset.refl _
      · exact List.nil_subset _
    | _ => exact List.nil_subset _
  · exact List.nil_subset _
  · exact List.nil_subset _

/-- Tags visit nothing but what object and array types do. -/
theorem tagReferences_subset {object array written : List (List Text)} (hobject : object ⊆ written)
    (harray : array ⊆ written) (named : List Value) :
    tagReferences object array named ⊆ written := by
  induction named with
  | nil => exact List.nil_subset _
  | cons tag rest ih =>
    rw [tagReferences]
    refine List.append_subset.mpr ⟨?_, ih⟩
    split
    · exact hobject
    · split
      · exact harray
      · exact List.nil_subset _

/-- The paths visited in properties are written in them, if this holds of every single one. -/
theorem memberReferences_subset (properties : List (Scalar × Value))
    (h : ∀ name schema, (name, schema) ∈ properties → references schema ⊆ schema.writtenPaths) :
    memberReferences properties ⊆ writtenPathsMembers properties := by
  induction properties with
  | nil =>
    rw [memberReferences]
    exact List.nil_subset _
  | cons property rest ih =>
    obtain ⟨name, schema⟩ := property
    rw [memberReferences, writtenPathsMembers]
    refine List.append_subset.mpr ⟨?_, ?_⟩
    · refine List.subset_append_of_subset_left _ (List.subset_append_of_subset_right _ ?_)
      exact h name schema List.mem_cons_self
    · refine List.subset_append_of_subset_right _ (ih fun n s hmem => ?_)
      exact h n s (List.mem_cons_of_mem _ hmem)

/-- The paths visited in schemas are written in them, if this holds of every single one. -/
theorem allReferences_subset (schemas : List Value)
    (h : ∀ schema ∈ schemas, references schema ⊆ schema.writtenPaths) :
    allReferences schemas ⊆ writtenPathsItems schemas := by
  induction schemas with
  | nil =>
    rw [allReferences]
    exact List.nil_subset _
  | cons schema rest ih =>
    rw [allReferences, writtenPathsItems]
    refine List.append_subset.mpr ⟨?_, ?_⟩
    · exact List.subset_append_of_subset_left _ (h schema List.mem_cons_self)
    · refine List.subset_append_of_subset_right _ (ih fun s hs => ?_)
      exact h s (List.mem_cons_of_mem _ hs)

/-- The paths visited in the properties under a name are written in the object. -/
theorem referencesUnder_subset (name : Text) (members : Members)
    (h : ∀ schema, sizeOf schema < sizeOf (Value.object members) →
      references schema ⊆ schema.writtenPaths) :
    referencesUnder name members ⊆ writtenPathsMembers members := by
  rw [referencesUnder_eq]
  cases hfield : members.field? name with
  | none => exact List.nil_subset _
  | some v =>
    cases v with
    | object properties =>
      obtain ⟨k, hmem⟩ := Members.mem_of_field? hfield
      have hproperties := memberReferences_subset properties fun n s hs =>
        h s (sizeOf_property_lt hfield hs)
      have hwritten := writtenPaths_subset_members hmem
      rw [writtenPaths] at hwritten
      exact List.Subset.trans hproperties hwritten
    | scalar s => exact List.nil_subset _
    | list items => exact List.nil_subset _

/-- The paths visited in items are written in the object. -/
theorem itemReferences_subset (members : Members)
    (h : ∀ schema, sizeOf schema < sizeOf (Value.object members) →
      references schema ⊆ schema.writtenPaths) :
    itemReferences members ⊆ writtenPathsMembers members := by
  rw [itemReferences_eq]
  cases hfield : members.field? "items" with
  | none => exact List.nil_subset _
  | some v =>
    obtain ⟨k, hmem⟩ := Members.mem_of_field? hfield
    have hwritten := writtenPaths_subset_members hmem
    cases v with
    | list schemas =>
      have hschemas := allReferences_subset schemas fun s hs => h s (sizeOf_item_lt hfield hs)
      rw [writtenPaths] at hwritten
      exact List.Subset.trans hschemas hwritten
    | scalar s => exact List.Subset.trans (h _ (sizeOf_field?_lt hfield)) hwritten
    | object schema => exact List.Subset.trans (h _ (sizeOf_field?_lt hfield)) hwritten

/-- The paths visited in branches are written in the object. -/
theorem branchReferences_subset (keyword : Text) (members : Members)
    (h : ∀ schema, sizeOf schema < sizeOf (Value.object members) →
      references schema ⊆ schema.writtenPaths) :
    branchReferences keyword members ⊆ writtenPathsMembers members := by
  rw [branchReferences_eq]
  cases hfield : members.field? keyword with
  | none => exact List.nil_subset _
  | some v =>
    cases v with
    | list schemas =>
      obtain ⟨k, hmem⟩ := Members.mem_of_field? hfield
      have hschemas := allReferences_subset schemas fun s hs => h s (sizeOf_item_lt hfield hs)
      have hwritten := writtenPaths_subset_members hmem
      rw [writtenPaths] at hwritten
      exact List.Subset.trans hschemas hwritten
    | scalar s => exact List.nil_subset _
    | object schema => exact List.nil_subset _

/-- Every path that is visited in a schema is written in it. -/
theorem references_subset_writtenPaths (schema : Value) : references schema ⊆ schema.writtenPaths := by
  rcases schema with s | items | members
  · rw [references]
    exact List.nil_subset _
  · rw [references]
    exact List.nil_subset _
  · have ih (inner : Value) (hinner : sizeOf inner < sizeOf (Value.object members)) :=
      references_subset_writtenPaths inner
    simp only [references, writtenPaths]
    cases Shape.ofMembers members with
    | error cause => exact List.nil_subset _
    | ok shape =>
      cases shape with
      | reference =>
        refine List.Subset.trans (visitedPath_subset _) ?_
        rw [Members.fieldOrNull]
        cases hfield : Members.field? "$ref" members with
        | none => exact List.nil_subset _
        | some v => exact addressedPath_subset_members hfield
      | typed =>
        refine tagReferences_subset (List.append_subset.mpr ⟨?_, ?_⟩) ?_ _
        · exact referencesUnder_subset "properties" members ih
        · exact referencesUnder_subset "patternProperties" members ih
        · split
          · exact List.nil_subset _
          · exact itemReferences_subset members ih
      | combined c => exact branchReferences_subset c.keyword members ih
      | boolean => exact List.nil_subset _
      | const => exact List.nil_subset _
      | enum => exact List.nil_subset _
termination_by sizeOf schema
decreasing_by exact hinner

/-- Every path visited has segments and none of them is empty. -/
theorem proper_of_mem_references {schema : Value} {path : List Text} (h : path ∈ references schema) :
    Pointer.Proper path :=
  Value.proper_of_mem_writtenPaths (references_subset_writtenPaths schema h)

end Schema

end SchemaTypes
