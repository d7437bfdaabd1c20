import SchemaTypes.Proofs.Document.Respelling
import SchemaTypes.Proofs.Lockstep
import SchemaTypes.Proofs.Schema.Types

/-!
# Building from a respelled schema

The types of a schema and of a respelled one are built in lockstep. The same references are visited and the
same types come out, as long as the name of the document is the same in both. That name may be a part of the
document itself, and then it may contain references that are respelled.

Each statement has a condition under which results are equal. Without it they need not be, but still both
computations finish or both of them stop.
-/

namespace SchemaTypes

open Faulting Value

/-- Results that are equal under a condition. -/
def SameIf (condition : Prop) {α : Type} (a b : α) : Prop := condition → a = b

/-- Scopes that differ in the name of the document alone, where both names are accepted or both refused. -/
structure Scope.Alike (condition : Prop) (scope other : Scope) : Prop where
  naming_eq : scope.naming = other.naming
  path_eq : scope.path = other.path
  roots : Option.Rel
    (fun name name' => Matching (SameIf condition) (scope.identify name) (other.identify name'))
    scope.rootName other.rootName

namespace Schema

variable {condition : Prop} {scope other : Scope}

/-- Faults at one place match if their causes do. -/
theorem fault_erased (h : scope.Alike condition other) {cause cause' : SchemaFault}
    (hcause : cause.erased = cause'.erased) : (scope.fault cause).erased = (other.fault cause').erased := by
  rw [Scope.fault, Scope.fault, Fault.erased, Fault.erased, hcause, h.path_eq]

/-- What two spellings of a reference address: the document in both cases, or the same path. -/
inductive TargetsAlike (condition : Prop) (scope other : Scope) : Target → Target → Prop where
  | root {name name' : Value} :
      Matching (SameIf condition) (scope.identify name) (other.identify name') →
      TargetsAlike condition scope other (.root name) (.root name')
  | path (segments : List Text) : TargetsAlike condition scope other (.path segments) (.path segments)

/-- Two spellings of a reference address the same. -/
theorem target_matching (h : scope.Alike condition other) {ref ref' : Value} (href : ref.Akin ref') :
    Matching (TargetsAlike condition scope other) (scope.target ref) (other.target ref') := by
  have hroot (ref ref' : Value) : Matching (TargetsAlike condition scope other) (scope.rootTarget ref)
      (other.rootTarget ref') := by
    have hroots := h.roots
    rw [Scope.rootTarget, Scope.rootTarget]
    generalize scope.rootName = name, other.rootName = name' at hroots ⊢
    cases hroots with
    | none => exact .error (fault_erased h rfl)
    | some hname => exact .ok (.root hname)
  have htext {ref ref' : Text} (hsplit : Pointer.split ref = Pointer.split ref')
      (hlocal : Pointer.isLocal ref = Pointer.isLocal ref') :
      Matching (TargetsAlike condition scope other) (scope.target (.text ref))
        (other.target (.text ref')) := by
    rw [Scope.target, Scope.target, hsplit, hlocal]
    split_ifs
    · cases Pointer.split ref' with
      | nil => exact hroot _ _
      | cons segment rest => exact .ok (.path (segment :: rest))
    · exact .error (fault_erased h rfl)
  cases href with
  | scalar s =>
    cases s with
    | text ref => exact htext rfl rfl
    | _ => exact .error (fault_erased h rfl)
  | spelled hsplit hlocal => exact htext hsplit hlocal
  | list _ => exact .error (fault_erased h rfl)
  | object _ => exact .error (fault_erased h rfl)

/-- The reference to a declaration outside all namespaces consists of its identifier. -/
theorem reference_singleton (scope : Scope) (name : Value) :
    scope.reference [name] = (scope.identify name).map fun identifier => .reference [identifier] := by
  rw [Scope.reference, Scope.identify, Naming.applyAll]
  cases scope.naming.apply name <;> rfl

/-- The names made from what two spellings of a reference address match. -/
theorem reference_matching (h : scope.Alike condition other) {target target' : Target}
    (htarget : TargetsAlike condition scope other target target') :
    Matching (SameIf condition) (scope.reference target.segments) (other.reference target'.segments) := by
  cases htarget with
  | path segments =>
    rw [Scope.reference, Scope.reference, h.naming_eq]
    cases Fault.ofMalformed (other.naming.applyAll (Target.path segments).segments) with
    | error fault => exact .error rfl
    | ok parts => exact .ok fun _ => rfl
  | root hname =>
    rw [Target.segments, Target.segments, reference_singleton, reference_singleton]
    exact hname.map fun a b hsame hcondition => by rw [hsame hcondition]

/-- The type of a reference does not depend on its spelling. -/
theorem reference_lockstep (h : scope.Alike condition other) {ref ref' : Value} (href : ref.Akin ref') :
    Lockstep (SameIf condition)
      (do return [← scope.reference (← scope.register ref).segments] : Build (List TypeExpr))
      (do return [← other.reference (← other.register ref').segments]) := by
  have hregister : Lockstep (TargetsAlike condition scope other) (scope.register ref)
      (other.register ref') := by
    refine (Lockstep.lift (target_matching h href)).bind fun target target' htarget => ?_
    cases htarget with
    | root hname => exact Lockstep.pure (.root hname)
    | path segments => exact Lockstep.bind_same fun _ => Lockstep.pure (.path segments)
  refine hregister.bind fun target target' htarget => ?_
  refine (Lockstep.lift (reference_matching h htarget)).bind fun t t' ht => ?_
  exact Lockstep.pure fun hcondition => congrArg (fun t => [t]) (ht hcondition)

/-- The literal type of a respelled value. -/
theorem literal_matching (h : scope.Alike condition other) {v w : Value} (hv : v.respells w = true) :
    Matching (SameIf condition) (literal scope v) (literal other w) := by
  cases respelled_of_respells hv with
  | scalar s => exact .ok fun _ => rfl
  | list _ => exact .error (fault_erased h rfl)
  | object _ => exact .error (fault_erased h rfl)

/-- Respelled values are scalars alike, and then they are equal. -/
theorem isScalar_of_respells {v w : Value} (h : v.respells w = true) :
    isScalar v = isScalar w ∧ (isScalar v = true → v = w) := by
  cases respelled_of_respells h with
  | scalar s => exact ⟨rfl, fun _ => rfl⟩
  | list _ => exact ⟨rfl, fun hscalar => by cases hscalar⟩
  | object _ => exact ⟨rfl, fun hscalar => by cases hscalar⟩

/-- Respelled items are all scalars alike, and then they are equal. -/
theorem all_isScalar_of_akin {items others : List Value} (h : ItemsAkin items others) :
    items.all isScalar = others.all isScalar ∧ (items.all isScalar = true → items = others) := by
  induction h with
  | nil => exact ⟨rfl, fun _ => rfl⟩
  | @cons v w rest others hitem _ ih =>
    obtain ⟨heq, hsame⟩ := isScalar_of_respells hitem
    refine ⟨by rw [List.all_cons, List.all_cons, heq, ih.1], fun hall => ?_⟩
    rw [List.all_cons, Bool.and_eq_true] at hall
    rw [hsame hall.1, ih.2 hall.2]

/-- The types of a respelled enumeration. -/
theorem enumeration_matching (h : scope.Alike condition other) {v w : Value} (hv : v.respells w = true) :
    Matching (SameIf condition) (enumeration scope v) (enumeration other w) := by
  cases respelled_of_respells hv with
  | scalar s => exact .error (fault_erased h rfl)
  | object _ => exact .error (fault_erased h rfl)
  | list hitems =>
    obtain ⟨heq, hsame⟩ := all_isScalar_of_akin hitems
    rw [enumeration, enumeration, ← heq]
    split_ifs with hall
    · rw [hsame hall]
      exact .ok fun _ => rfl
    · exact .error (fault_erased h rfl)

/-- The tags of a respelled `type` keyword. -/
theorem tags_akin {v w : Value} (h : v.respells w = true) : ItemsAkin (tags v) (tags w) := by
  cases respelled_of_respells h with
  | list hitems => exact hitems
  | scalar s => exact .cons h .nil
  | object _ => exact .cons h .nil

/-- A respelled tag is the same word. -/
theorem isTag_of_respells {v w : Value} (h : v.respells w = true) (word : Text) :
    isTag word v = isTag word w := by
  cases respelled_of_respells h <;> rfl

/-- A respelled tag names the same keyword type. -/
theorem keywordOf?_of_respells {v w : Value} (h : v.respells w = true) : keywordOf? v = keywordOf? w := by
  cases respelled_of_respells h <;> rfl

/-- A word is among respelled tags alike. -/
theorem any_isTag_of_akin {items others : List Value} (h : ItemsAkin items others) (word : Text) :
    items.any (isTag word) = others.any (isTag word) := by
  induction h with
  | nil => rfl
  | cons htag _ ih => rw [List.any_cons, List.any_cons, isTag_of_respells htag, ih]

/-- Leaving a word out of respelled tags leaves respelled tags. -/
theorem filter_isTag_akin {items others : List Value} (h : ItemsAkin items others) (word : Text) :
    ItemsAkin (items.filter fun tag => !isTag word tag) (others.filter fun tag => !isTag word tag) := by
  refine List.rel_filter (fun tag tag' htag => ?_) h
  dsimp only
  rw [isTag_of_respells htag]

section Typed

variable {object object' array array' : Build TypeExpr} {named named' : List Value}

/-- The types of respelled tags are built in lockstep if object and array types are. -/
theorem tagTypes_lockstep (h : scope.Alike condition other)
    (hobject : Lockstep (SameIf condition) object object')
    (harray : Lockstep (SameIf condition) array array') (hnamed : ItemsAkin named named') :
    Lockstep (SameIf condition) (tagTypes scope object array named)
      (tagTypes other object' array' named') := by
  induction hnamed with
  | nil => exact Lockstep.pure fun _ => rfl
  | @cons tag tag' rest rest' htag _ ih =>
    have htype : Lockstep (SameIf condition) (tagType scope object array tag)
        (tagType other object' array' tag') := by
      rw [tagType, tagType, isTag_of_respells htag, isTag_of_respells htag, keywordOf?_of_respells htag]
      split_ifs
      · exact hobject
      · exact harray
      · cases keywordOf? tag' with
        | some t => exact Lockstep.pure fun _ => rfl
        | none => exact Lockstep.throw (fault_erased h rfl)
    rw [tagTypes_cons, tagTypes_cons]
    refine htype.bind fun t t' ht => ih.bind fun ts ts' hts => Lockstep.pure fun hcondition => ?_
    rw [ht hcondition, hts hcondition]

/-- The types of a respelled `type` keyword are built in lockstep. -/
theorem typed_lockstep (h : scope.Alike condition other) {v w : Value} (hv : v.respells w = true)
    (hobject : Lockstep (SameIf condition) object object')
    (harray : Lockstep (SameIf condition) array array') :
    Lockstep (SameIf condition) (typed scope v object array) (typed other w object' array') := by
  have hnamed := filter_isTag_akin (tags_akin hv) "null"
  rw [typed, typed, any_isTag_of_akin (tags_akin hv)]
  generalize ((tags v).filter fun tag => !isTag "null" tag) = named,
    ((tags w).filter fun tag => !isTag "null" tag) = named' at hnamed ⊢
  cases hnamed with
  | nil => exact Lockstep.pure fun _ => rfl
  | cons htag hrest =>
    refine (tagTypes_lockstep h hobject harray (.cons htag hrest)).bind fun ts ts' hts => ?_
    refine Lockstep.pure fun hcondition => ?_
    rw [hts hcondition]

end Typed

section Members

variable {members members' : Members}

/-- Respelled members of a name that is no reference count as present alike. -/
theorem isPresent_fieldOrNull (h : MembersAkin members members') {name : Text} (hname : name ≠ "$ref") :
    (members.fieldOrNull name).isPresent = (members'.fieldOrNull name).isPresent :=
  isPresent_of_respells ((Members.fieldOrNull_akin h name).2 hname)

/-- Counterparts are read-only alike. -/
theorem isReadOnly_of_akin {v w : Value} (h : v.Akin w) : isReadOnly v = isReadOnly w := by
  cases h with
  | object hmembers => exact isPresent_fieldOrNull hmembers (by decide)
  | _ => rfl

/-- The object type of a respelled schema is built in lockstep if its properties are. -/
theorem objectOf_lockstep (h : MembersAkin members members')
    {properties properties' patterns patterns' : Build (List (Field TypeExpr))}
    (hproperties : Lockstep (SameIf condition) properties properties')
    (hpatterns : Lockstep (SameIf condition) patterns patterns') :
    Lockstep (SameIf condition) (objectOf members properties patterns)
      (objectOf members' properties' patterns') := by
  refine hproperties.bind fun fields fields' hfields => ?_
  rw [isPresent_fieldOrNull h (by decide : ("additionalProperties" : Text) ≠ "$ref"),
    isPresent_fieldOrNull h (by decide : ("patternProperties" : Text) ≠ "$ref")]
  dsimp only
  split_ifs
  · refine hpatterns.bind fun sources sources' hsources => Lockstep.pure fun hcondition => ?_
    rw [hfields hcondition, hsources hcondition]
  · refine Lockstep.pure fun hcondition => ?_
    rw [hfields hcondition]

/-- The bounds of a respelled array schema are the same. -/
theorem unsatisfiable_of_akin (h : MembersAkin members members') :
    unsatisfiable members = unsatisfiable members' := by
  have hbound {name : Text} (hname : name ≠ "$ref") :
      bound? (members.field? name) = bound? (members'.field? name) := by
    rcases Members.field?_akin h name with ⟨hnone, hnone'⟩ | ⟨v, w, hv, hw, -, hrespells⟩
    · rw [hnone, hnone']
    · rw [hv, hw]
      cases respelled_of_respells (hrespells hname) <;> rfl
  rw [unsatisfiable, unsatisfiable, hbound (by decide), hbound (by decide)]

/-- The array type of a respelled schema is built in lockstep if the types of its items are. -/
theorem arrayOf_lockstep (h : MembersAkin members members') {items items' : Build (List TypeExpr)}
    (hitems : Lockstep (SameIf condition) items items') :
    Lockstep (SameIf condition) (arrayOf members items) (arrayOf members' items') := by
  rw [arrayOf, arrayOf, unsatisfiable_of_akin h]
  split_ifs
  · exact Lockstep.pure fun _ => rfl
  · refine hitems.bind fun ts ts' hts => ?_
    cases ts with
    | nil =>
      cases ts' with
      | nil => exact Lockstep.pure fun _ => rfl
      | cons t' rest' => exact Lockstep.pure fun hcondition => by cases hts hcondition
    | cons t rest =>
      cases ts' with
      | nil => exact Lockstep.pure fun hcondition => by cases hts hcondition
      | cons t' rest' => exact Lockstep.pure fun hcondition => by rw [hts hcondition]

/-- Respelled members have the same keys. -/
theorem keys_of_akin (h : MembersAkin members members') : members.map (·.1) = members'.map (·.1) := by
  induction h with
  | nil => rfl
  | cons hmember _ ih => rw [List.map_cons, List.map_cons, hmember.1, ih]

/-- Scalars are among respelled items alike. -/
theorem contains_list_of_akin {items others : List Value} (h : ItemsAkin items others) (s : Scalar) :
    (Value.list items).contains s = (Value.list others).contains s := by
  rw [Value.contains, Value.contains]
  refine congrArg Except.ok ?_
  induction h with
  | nil => rfl
  | cons hitem _ ih =>
    rw [List.any_cons, List.any_cons, ih]
    cases respelled_of_respells hitem <;> rfl

/-- Scalars are in respelled containers alike. -/
theorem contains_of_respells {v w : Value} (h : v.respells w = true) (s : Scalar) :
    v.contains s = w.contains s := by
  cases respelled_of_respells h with
  | scalar t => rfl
  | list hitems => exact contains_list_of_akin hitems s
  | object hmembers =>
    have hkeys (ms : Members) : (Value.object ms).contains s = .ok ((ms.map (·.1)).any s.same) := by
      rw [Value.contains, List.any_map]
      rfl
    rw [hkeys, hkeys, keys_of_akin hmembers]

/-- The names that a respelled object schema requires. -/
theorem requiredNames_respells (h : MembersAkin members members') :
    (requiredNames members).respells (requiredNames members') = true :=
  orElse_respells ((Members.fieldOrNull_akin h "required").2 (by decide)) rfl

/-- The fields of respelled properties are built in lockstep if their types are. -/
theorem fieldsOf_lockstep {required required' : Value} (hrequired : required.respells required' = true)
    (h : MembersAkin members members')
    (htypes : ∀ k v, (k, v) ∈ members → ∀ w, v.Akin w →
      Lockstep (SameIf condition) (types scope v) (types other w)) :
    Lockstep (SameIf condition) (fieldsOf scope required members) (fieldsOf other required' members') := by
  induction h with
  | nil =>
    rw [fieldsOf, fieldsOf]
    exact Lockstep.pure fun _ => rfl
  | @cons member member' rest rest' hmember _ ih =>
    obtain ⟨k, v⟩ := member
    obtain ⟨l, w⟩ := member'
    obtain ⟨rfl, hvalue⟩ : k = l ∧ (v.respells w = true ∨ k = .text "$ref" ∧ v.spelledAlike w = true) :=
      hmember
    have hakin : v.Akin w := akin_of_member hvalue
    rw [fieldsOf, fieldsOf, contains_of_respells hrequired, isReadOnly_of_akin hakin]
    refine (htypes k v List.mem_cons_self w hakin).bind fun ts ts' hts => ?_
    refine Lockstep.bind_same fun isRequired => ?_
    refine (ih fun n u hmem => htypes n u (List.mem_cons_of_mem _ hmem)).bind fun fields fields' hfields => ?_
    refine Lockstep.pure fun hcondition => ?_
    rw [hts hcondition, hfields hcondition]

/-- The types of several respelled schemas are built in lockstep if those of each are. -/
theorem allTypes_lockstep {schemas schemas' : List Value} (h : ItemsAkin schemas schemas')
    (htypes : ∀ v ∈ schemas, ∀ w, v.Akin w →
      Lockstep (SameIf condition) (types scope v) (types other w)) :
    Lockstep (SameIf condition) (allTypes scope schemas) (allTypes other schemas') := by
  induction h with
  | nil =>
    rw [allTypes, allTypes]
    exact Lockstep.pure fun _ => rfl
  | @cons v w rest rest' hitem _ ih =>
    rw [allTypes, allTypes]
    refine (htypes v List.mem_cons_self w (akin_of_respells hitem)).bind fun ts ts' hts => ?_
    refine (ih fun u hu => htypes u (List.mem_cons_of_mem _ hu)).bind fun us us' hus => ?_
    refine Lockstep.pure fun hcondition => ?_
    rw [hts hcondition, hus hcondition]

/-- The types of respelled branches are built in lockstep if those of each are. -/
theorem branchTypes_lockstep {schemas schemas' : List Value} (h : ItemsAkin schemas schemas')
    (htypes : ∀ v ∈ schemas, ∀ w, v.Akin w →
      Lockstep (SameIf condition) (types scope v) (types other w)) :
    Lockstep (SameIf condition) (branchTypes scope schemas) (branchTypes other schemas') := by
  induction h with
  | nil =>
    rw [branchTypes, branchTypes]
    exact Lockstep.pure fun _ => rfl
  | @cons v w rest rest' hitem _ ih =>
    rw [branchTypes, branchTypes]
    refine (htypes v List.mem_cons_self w (akin_of_respells hitem)).bind fun ts ts' hts => ?_
    refine (ih fun u hu => htypes u (List.mem_cons_of_mem _ hu)).bind fun us us' hus => ?_
    refine Lockstep.pure fun hcondition => ?_
    rw [hts hcondition, hus hcondition]

/-- The types of the smaller parts of a schema are built in lockstep. -/
def PartsLockstep (condition : Prop) (scope other : Scope) (members : Members) : Prop :=
  ∀ v, sizeOf v < sizeOf (Value.object members) → ∀ w, v.Akin w →
    Lockstep (SameIf condition) (types scope v) (types other w)

/-- The fields under a name are built in lockstep. -/
theorem fieldsUnder_lockstep {name : Text} (hname : name ≠ "$ref") (h : MembersAkin members members')
    (hparts : PartsLockstep condition scope other members) :
    Lockstep (SameIf condition) (fieldsUnder scope name (requiredNames members) members)
      (fieldsUnder other name (requiredNames members') members') := by
  rw [fieldsUnder_eq, fieldsUnder_eq]
  rcases Members.field?_akin h name with ⟨hnone, hnone'⟩ | ⟨v, w, hv, hw, -, hrespells⟩
  · rw [hnone, hnone']
    exact Lockstep.pure fun _ => rfl
  · rw [hv, hw]
    cases respelled_of_respells (hrespells hname) with
    | object hproperties =>
      exact fieldsOf_lockstep (requiredNames_respells h) hproperties fun k u hmem =>
        hparts u (Value.sizeOf_property_lt hv hmem)
    | scalar s => exact Lockstep.refl (fun _ _ => rfl) _
    | list _ =>
      simp only [fieldsHeld, isPresent_of_respells (hrespells hname)]
      exact Lockstep.refl (fun _ _ => rfl) _

/-- The types of items are built in lockstep. -/
theorem itemTypes_lockstep (h : MembersAkin members members')
    (hparts : PartsLockstep condition scope other members) :
    Lockstep (SameIf condition) (itemTypes scope members) (itemTypes other members') := by
  rw [itemTypes_eq, itemTypes_eq]
  rcases Members.field?_akin h "items" with ⟨hnone, hnone'⟩ | ⟨v, w, hv, hw, hakin, -⟩
  · rw [hnone, hnone']
    exact Lockstep.pure fun _ => rfl
  · rw [hv, hw]
    have htypes := hparts v (Value.sizeOf_field?_lt hv) w hakin
    cases hakin with
    | list hitems =>
      exact allTypes_lockstep hitems fun u hu => hparts u (Value.sizeOf_item_lt hv hu)
    | scalar s => exact htypes
    | spelled _ _ => exact htypes
    | object _ => exact htypes

/-- The types of the branches of a combinator are built in lockstep. -/
theorem branchesUnder_lockstep (h : scope.Alike condition other) (c : Combinator)
    (hmembers : MembersAkin members members') (hparts : PartsLockstep condition scope other members) :
    Lockstep (SameIf condition) (branchesUnder scope c (notBranches scope c members) members)
      (branchesUnder other c (notBranches other c members') members') := by
  have hfault : (notBranches scope c members).erased = (notBranches other c members').erased :=
    fault_erased h rfl
  rw [branchesUnder_eq, branchesUnder_eq]
  rcases Members.field?_akin hmembers c.keyword with ⟨hnone, hnone'⟩ | ⟨v, w, hv, hw, hakin, -⟩
  · rw [hnone, hnone']
    exact Lockstep.throw hfault
  · rw [hv, hw]
    cases hakin with
    | list hitems =>
      exact branchTypes_lockstep hitems fun u hu => hparts u (Value.sizeOf_item_lt hv hu)
    | scalar s => exact Lockstep.throw hfault
    | spelled _ _ => exact Lockstep.throw hfault
    | object _ => exact Lockstep.throw hfault

/-- A respelled object has the same shape, or none in the same way. -/
theorem shape_of_akin (h : MembersAkin members members') :
    (∃ shape, Shape.ofMembers members = .ok shape ∧ Shape.ofMembers members' = .ok shape) ∨
      ∃ cause cause', Shape.ofMembers members = .error cause ∧ Shape.ofMembers members' = .error cause' ∧
        cause.erased = cause'.erased := by
  have hcombinators : (Combinator.all.filter fun c => members.has c.keyword) =
      Combinator.all.filter fun c => members'.has c.keyword :=
    List.filter_congr fun c _ => Members.has_of_akin h c.keyword
  rw [Shape.ofMembers, Shape.ofMembers, hcombinators]
  simp only [Members.has_of_akin h]
  split_ifs
  · exact Or.inl ⟨_, rfl, rfl⟩
  · exact Or.inl ⟨_, rfl, rfl⟩
  · exact Or.inl ⟨_, rfl, rfl⟩
  · exact Or.inl ⟨_, rfl, rfl⟩
  · split
    · exact Or.inl ⟨_, rfl, rfl⟩
    · exact Or.inr ⟨_, _, rfl, rfl, rfl⟩
    · exact Or.inr ⟨_, _, rfl, rfl, rfl⟩

end Members

/-- A scalar other than a boolean is no schema. -/
theorem types_scalar (scope : Scope) {s : Scalar} (h : ∀ b, s ≠ .bool b) :
    types scope (.scalar s) = throw (scope.fault (.unsupportedSchema (.scalar s) "")) := by
  rw [types]
  exact h

/-- The types of a schema and of its counterpart are built in lockstep. -/
theorem types_lockstep (h : scope.Alike condition other) (v w : Value) :
    v.Akin w → Lockstep (SameIf condition) (types scope v) (types other w) := by
  rcases v with s | items | members <;> intro hv
  · cases hv with
    | scalar =>
      cases s with
      | bool b =>
        rw [types, types]
        exact Lockstep.pure fun _ => rfl
      | _ =>
        rw [types_scalar scope (by simp), types_scalar other (by simp)]
        exact Lockstep.throw (fault_erased h rfl)
    | spelled _ _ =>
      rw [types_scalar scope (by simp), types_scalar other (by simp)]
      exact Lockstep.throw (fault_erased h rfl)
  · cases hv with
    | list _ =>
      rw [types, types]
      exact Lockstep.throw (fault_erased h rfl)
  · cases hv with
    | @object _ members' hmembers =>
      -- The recursion is on the size of the schema, for parts are found under names and in lists alike.
      have hparts : PartsLockstep condition scope other members := fun u hu w hw => types_lockstep h u w hw
      rw [types, types]
      rcases shape_of_akin hmembers with ⟨shape, hshape, hshape'⟩ | ⟨cause, cause', hcause, hcause', herased⟩
      · rw [hshape, hshape']
        cases shape with
        | boolean => exact Lockstep.throw (fault_erased h rfl)
        | reference => exact reference_lockstep h (Members.fieldOrNull_akin hmembers "$ref").1
        | const =>
          have hvalue := (Members.fieldOrNull_akin hmembers "const").2 (by decide)
          refine (Lockstep.lift (literal_matching h hvalue)).bind fun t t' ht => ?_
          exact Lockstep.pure fun hcondition => by rw [ht hcondition]
        | enum =>
          have hvalues := (Members.fieldOrNull_akin hmembers "enum").2 (by decide)
          exact Lockstep.lift (enumeration_matching h hvalues)
        | typed =>
          refine typed_lockstep h ((Members.fieldOrNull_akin hmembers "type").2 (by decide)) ?_ ?_
          · exact objectOf_lockstep hmembers (fieldsUnder_lockstep (by decide) hmembers hparts)
              (fieldsUnder_lockstep (by decide) hmembers hparts)
          · exact arrayOf_lockstep hmembers (itemTypes_lockstep hmembers hparts)
        | combined c =>
          refine (branchesUnder_lockstep h c hmembers hparts).bind fun ts ts' hts => ?_
          exact Lockstep.pure fun hcondition => by rw [hts hcondition]
      · rw [hcause, hcause']
        exact Lockstep.throw (fault_erased h herased)
termination_by sizeOf v
decreasing_by exact hu

/-- The title of a respelled schema is respelled. -/
theorem title_respells {v w : Value} (h : v.Akin w) : (title v).respells (title w) = true := by
  cases h with
  | object hmembers => exact (Members.fieldOrNull_akin hmembers "title").2 (by decide)
  | _ => rfl

/-- Names that are both accepted, or both refused for the same cause, match. Their identifiers are equal if
the same is made of both. -/
theorem identify_matching {v w : Value}
    (h : ∀ cause, scope.naming.apply v = .error cause ↔ other.naming.apply w = .error cause)
    (hsame : condition → scope.naming.apply v = other.naming.apply w) :
    Matching (SameIf condition) (scope.identify v) (other.identify w) := by
  rw [Scope.identify, Scope.identify]
  cases hv : scope.naming.apply v with
  | error cause =>
    rw [(h cause).mp hv]
    exact .error rfl
  | ok identifier =>
    cases hw : other.naming.apply w with
    | error cause => cases hv.symm.trans ((h cause).mpr hw)
    | ok identifier' =>
      rw [hv, hw] at hsame
      exact .ok fun hcondition => Except.ok.inj (hsame hcondition)

/-- The declarations of a schema and of its counterpart are built in lockstep if their names match. -/
theorem declare_lockstep (h : scope.Alike condition other) {schema schema' : Value}
    (hschema : schema.Akin schema') {name name' : Value}
    (hname : Matching (SameIf condition)
      (scope.identify (name.orElse ((title schema).orElse (.text fallbackName))))
      (other.identify (name'.orElse ((title schema').orElse (.text fallbackName)))))
    (ambient : Bool) :
    Lockstep (SameIf condition) (declare scope schema name ambient) (declare other schema' name' ambient) := by
  refine (types_lockstep h schema schema' hschema).bind fun ts ts' hts => ?_
  refine (Lockstep.lift hname).bind fun identifier identifier' hidentifier => ?_
  refine Lockstep.pure fun hcondition => ?_
  rw [hts hcondition, hidentifier hcondition]

end Schema

end SchemaTypes
