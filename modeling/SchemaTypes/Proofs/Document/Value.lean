import SchemaTypes.Document.Value

/-!
# Parts of a value

A member found by its name is one of the members, so it is a part of the object and smaller than it.
Recursions into the parts of a schema end for this reason.
-/

namespace SchemaTypes

namespace Members

/-- A member found by its name is among the members, with the name as its key. -/
theorem text_mem_of_field? {name : Text} {members : Members} {v : Value}
    (h : members.field? name = some v) : (.text name, v) ∈ members := by
  induction members with
  | nil => cases h
  | cons member rest ih =>
    obtain ⟨k, w⟩ := member
    rw [field?] at h
    split at h
    · rename_i hk
      cases h
      cases k with
      | text s => exact (of_decide_eq_true hk : s = name) ▸ List.mem_cons_self
      | _ => cases hk
    · exact List.mem_cons_of_mem _ (ih h)

/-- A member found by its name is among the members. -/
theorem mem_of_field? {name : Text} {members : Members} {v : Value}
    (h : members.field? name = some v) : ∃ k, (k, v) ∈ members :=
  ⟨.text name, text_mem_of_field? h⟩

/-- A member that is there is found by its name. -/
theorem field?_of_has {name : Text} {members : Members} (h : members.has name = true) :
    members.field? name = some (members.fieldOrNull name) := by
  obtain ⟨v, hv⟩ := Option.isSome_iff_exists.mp h
  rw [fieldOrNull, hv, Option.getD_some]

/-- A member found by its key is among the members. -/
theorem mem_of_get? {key : Scalar} {members : Members} {v : Value}
    (h : members.get? key = some v) : ∃ k, (k, v) ∈ members := by
  induction members with
  | nil => cases h
  | cons member rest ih =>
    obtain ⟨k, w⟩ := member
    rw [get?] at h
    split at h
    · cases h
      exact ⟨k, List.mem_cons_self⟩
    · obtain ⟨key, hkey⟩ := ih h
      exact ⟨key, List.mem_cons_of_mem _ hkey⟩

/-- The value of a member is smaller than the members. -/
theorem sizeOf_lt_of_mem {members : Members} {k : Scalar} {v : Value} (h : (k, v) ∈ members) :
    sizeOf v < sizeOf members := by
  have hmember := List.sizeOf_lt_of_mem h
  simp only [Prod.mk.sizeOf_spec] at hmember
  omega

end Members

namespace Value

/-- What holds of a value as soon as it holds of its direct parts holds of every value. -/
@[elab_as_elim]
theorem induction_parts {motive : Value → Prop} (scalar : ∀ s, motive (scalar s))
    (list : ∀ items, (∀ v ∈ items, motive v) → motive (list items))
    (object : ∀ members : Members, (∀ k v, (k, v) ∈ members → motive v) → motive (object members))
    (v : Value) : motive v := by
  match v with
  | .scalar s => exact scalar s
  | .list items => exact list items fun w hw => induction_parts scalar list object w
  | .object members => exact object members fun k w hw => induction_parts scalar list object w
termination_by sizeOf v
decreasing_by
  · have hlt := List.sizeOf_lt_of_mem hw
    simp only [Value.list.sizeOf_spec]
    omega
  · have hlt := Members.sizeOf_lt_of_mem hw
    simp only [Value.object.sizeOf_spec]
    omega

/-- A member found by its name is smaller than the object. -/
theorem sizeOf_field?_lt {name : Text} {members : Members} {v : Value}
    (h : members.field? name = some v) : sizeOf v < sizeOf (object members) := by
  obtain ⟨k, hmem⟩ := Members.mem_of_field? h
  have hlt := Members.sizeOf_lt_of_mem hmem
  simp only [object.sizeOf_spec]
  omega

/-- An item of a list that is a member is smaller than the object. -/
theorem sizeOf_item_lt {name : Text} {members : Members} {items : List Value} {v : Value}
    (h : members.field? name = some (list items)) (hv : v ∈ items) :
    sizeOf v < sizeOf (object members) := by
  have hlist := sizeOf_field?_lt h
  have hitem := List.sizeOf_lt_of_mem hv
  simp only [list.sizeOf_spec] at hlist
  omega

/-- A member of an object that is a member is smaller than the outer object. -/
theorem sizeOf_property_lt {name : Text} {members properties : Members} {k : Scalar} {v : Value}
    (h : members.field? name = some (object properties)) (hv : (k, v) ∈ properties) :
    sizeOf v < sizeOf (object members) := by
  have hobject := sizeOf_field?_lt h
  have hmember := Members.sizeOf_lt_of_mem hv
  simp only [object.sizeOf_spec] at hobject ⊢
  omega

end Value

end SchemaTypes
