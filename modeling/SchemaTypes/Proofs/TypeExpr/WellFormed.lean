import Mathlib.Logic.Basic
import SchemaTypes.Proofs.TypeExpr.Parse
import SchemaTypes.Proofs.TypeExpr.Referenced

/-!
# Well-formed types

A type is well-formed if every type in it, at any depth, is regular by itself: unions and intersections
have several members, keywords are those of the grammar, literals are scalars, references have parts,
only keywords, object types and array types are marked as never null, and the names of the fields of an
object type are as asked. What is asked of names depends on where the types come from.

A type whose fields are named by texts can be printed if the names that it refers to are texts.
-/

namespace SchemaTypes.TypeExpr

/-- The types that a type is directly made of. -/
def parts : TypeExpr → List TypeExpr
  | keyword _ => []
  | literal _ => []
  | nonNull inner => [inner]
  | array item => [item]
  | object fields index => fields.map (·.type) ++ index.toList.map (·.type)
  | reference _ => []
  | union members => members
  | intersection members => members

/-- A type occurs in every type that it is a part of at some depth, and in itself. -/
inductive Occurs (t : TypeExpr) : TypeExpr → Prop where
  | self : Occurs t t
  | inside {part whole : TypeExpr} : part ∈ whole.parts → Occurs t part → Occurs t whole

/-- Whether a type is a keyword, an object type or an array type. -/
def isMarkable : TypeExpr → Bool
  | keyword _ => true
  | array _ => true
  | object _ _ => true
  | _ => false

/-- What is asked of a type without its parts. -/
def Regular (names : List Scalar → Bool) : TypeExpr → Prop
  | keyword name => name ∈ keywords
  | literal value => ∃ s, value = .scalar s
  | nonNull inner => inner.isMarkable = true
  | array _ => True
  | object fields _ => names (fields.map (·.name)) = true
  | reference parts => parts ≠ []
  | union members => 2 ≤ members.length
  | intersection members => 2 ≤ members.length

/-- Every type that occurs in the type is regular. -/
def WellFormed (names : List Scalar → Bool) (t : TypeExpr) : Prop :=
  ∀ inner, Occurs inner t → Regular names inner

/-- Whether names are texts and no two of them are equal. -/
def distinctTexts (names : List Scalar) : Bool := names.all hasTextName && decide names.Nodup

variable {names : List Scalar → Bool}

/-- What holds of every type that occurs in a type holds of the type and of all that occurs in its parts. -/
theorem forall_occurs_iff {p : TypeExpr → Prop} {t : TypeExpr} :
    (∀ inner, Occurs inner t → p inner) ↔ p t ∧ ∀ part ∈ t.parts, ∀ inner, Occurs inner part → p inner := by
  constructor
  · intro h
    exact ⟨h t .self, fun part hpart inner hinner => h inner (.inside hpart hinner)⟩
  · rintro ⟨hself, hparts⟩ inner hinner
    cases hinner with
    | self => exact hself
    | inside hpart hinside => exact hparts _ hpart inner hinside

/-- A type is well-formed if it is regular and its parts are well-formed. -/
theorem wellFormed_iff {t : TypeExpr} :
    WellFormed names t ↔ Regular names t ∧ ∀ part ∈ t.parts, WellFormed names part :=
  forall_occurs_iff

namespace WellFormed

/-- A regular type without parts is well-formed. -/
theorem of_regular {t : TypeExpr} (h : Regular names t) (hparts : t.parts = []) :
    WellFormed names t := by
  refine wellFormed_iff.mpr ⟨h, ?_⟩
  rw [hparts]
  exact List.forall_mem_nil _

/-- The keywords of the grammar are well-formed. -/
theorem keyword {name : Text} (h : name ∈ keywords) : WellFormed names (.keyword name) :=
  of_regular h rfl

/-- Literals of scalars are well-formed. -/
theorem literal (s : Scalar) : WellFormed names (.literal (.scalar s)) := of_regular ⟨s, rfl⟩ rfl

/-- A keyword, an object type or an array type may be marked as never null. -/
theorem nonNull {t : TypeExpr} (h : WellFormed names t) (hmarkable : t.isMarkable = true) :
    WellFormed names (.nonNull t) :=
  wellFormed_iff.mpr ⟨hmarkable, List.forall_mem_singleton.mpr h⟩

/-- An array type is well-formed if the type of its items is. -/
theorem array {item : TypeExpr} (h : WellFormed names item) : WellFormed names (.array item) :=
  wellFormed_iff.mpr ⟨trivial, List.forall_mem_singleton.mpr h⟩

/-- An object type is well-formed if its fields are named as asked and all its types are well-formed. -/
theorem object {fields : List (Field TypeExpr)} {index : Option (IndexSignature TypeExpr)}
    (hnames : names (fields.map (·.name)) = true)
    (hfields : ∀ field ∈ fields, WellFormed names field.type)
    (hindex : ∀ signature ∈ index, WellFormed names signature.type) :
    WellFormed names (.object fields index) := by
  refine wellFormed_iff.mpr ⟨hnames, fun part hpart => ?_⟩
  rcases List.mem_append.mp hpart with hpart | hpart
  · obtain ⟨field, hfield, rfl⟩ := List.mem_map.mp hpart
    exact hfields field hfield
  · obtain ⟨signature, hsignature, rfl⟩ := List.mem_map.mp hpart
    exact hindex signature (Option.mem_toList.mp hsignature)

/-- The union of well-formed types is well-formed, also when it is none. -/
theorem unionOf {ts : List TypeExpr} (h : ∀ t ∈ ts, WellFormed names t) :
    WellFormed names (TypeExpr.unionOf ts) := by
  rcases ts with _ | ⟨t, _ | ⟨u, rest⟩⟩
  · exact keyword (by decide)
  · exact h t List.mem_cons_self
  · exact wellFormed_iff.mpr ⟨Nat.le_add_left 2 rest.length, h⟩

/-- The intersection of well-formed types is well-formed, also when it is none. -/
theorem intersectionOf {ts : List TypeExpr} (h : ∀ t ∈ ts, WellFormed names t) :
    WellFormed names (TypeExpr.intersectionOf ts) := by
  rcases ts with _ | ⟨t, _ | ⟨u, rest⟩⟩
  · exact keyword (by decide)
  · exact h t List.mem_cons_self
  · exact wellFormed_iff.mpr ⟨Nat.le_add_left 2 rest.length, h⟩

end WellFormed

/-- A part of a type is smaller than the type. -/
theorem sizeOf_part_lt {part whole : TypeExpr} (h : part ∈ whole.parts) :
    sizeOf part < sizeOf whole := by
  cases whole with
  | keyword name => cases h
  | literal value => cases h
  | reference names => cases h
  | nonNull inner =>
    rw [List.mem_singleton.mp h, nonNull.sizeOf_spec]
    omega
  | array item =>
    rw [List.mem_singleton.mp h, array.sizeOf_spec]
    omega
  | union members =>
    have hlt : sizeOf part < sizeOf members := List.sizeOf_lt_of_mem h
    rw [union.sizeOf_spec]
    omega
  | intersection members =>
    have hlt : sizeOf part < sizeOf members := List.sizeOf_lt_of_mem h
    rw [intersection.sizeOf_spec]
    omega
  | object fields index =>
    rw [object.sizeOf_spec]
    rcases List.mem_append.mp h with h | h
    · obtain ⟨⟨name, type, required, readOnly⟩, hfield, rfl⟩ := List.mem_map.mp h
      have hlt := List.sizeOf_lt_of_mem hfield
      rw [Field.mk.sizeOf_spec] at hlt
      dsimp only
      omega
    · obtain ⟨⟨type, required, readOnly, key⟩, hindex, rfl⟩ := List.mem_map.mp h
      rw [Option.mem_toList.mp hindex, Option.some.sizeOf_spec, IndexSignature.mk.sizeOf_spec]
      dsimp only
      omega

/-- What holds of a type as soon as it holds of its parts holds of every type. -/
@[elab_as_elim]
theorem induction_parts {motive : TypeExpr → Prop}
    (h : ∀ t : TypeExpr, (∀ part ∈ t.parts, motive part) → motive t) (t : TypeExpr) : motive t :=
  h t fun part _hpart => induction_parts h part
termination_by sizeOf t
decreasing_by exact sizeOf_part_lt _hpart

/-- What keeps a type from being printed by itself, its parts apart: a name that is no text, or an
integer with too many digits. -/
def ownObstacle? : TypeExpr → Option Malformed
  | literal value => if value.isOverlong then some .overlongInteger else none
  | object fields _ =>
    if fields.all fun field => hasTextName field.name then none else some .unprintableName
  | reference names => if names.all Value.isText then none else some .unprintableName
  | _ => none

/-- What keeps several types from being printed keeps the first such type from being printed. -/
theorem obstacleAll?_eq (ts : List TypeExpr) : obstacleAll? ts = ts.findSome? obstacle? := by
  induction ts with
  | nil => simp [obstacleAll?]
  | cons t rest ih =>
    rw [obstacleAll?, ih, List.findSome?_cons]
    cases t.obstacle? <;> rfl

/-- What keeps fields from being printed is the first name that is no text or the first type that cannot
be printed. -/
theorem obstacleFields?_eq (fields : List (Field TypeExpr)) :
    obstacleFields? fields = fields.findSome? fun field =>
      if hasTextName field.name then field.type.obstacle? else some .unprintableName := by
  induction fields with
  | nil => simp [obstacleFields?]
  | cons field rest ih =>
    rw [obstacleFields?, ih, List.findSome?_cons]
    cases hasTextName field.name with
    | false => rfl
    | true => cases field.type.obstacle? <;> rfl

/-- What keeps an index signature from being printed keeps its type from being printed. -/
theorem obstacleIndex?_eq (index : Option (IndexSignature TypeExpr)) :
    obstacleIndex? index = (index.toList.map (·.type)).findSome? obstacle? := by
  cases index with
  | none => simp [obstacleIndex?]
  | some signature =>
    rw [obstacleIndex?, Option.toList_some, List.map_singleton, List.findSome?_cons]
    cases signature.type.obstacle? <;> rfl

variable {t : TypeExpr} {cause : Malformed}

/-- What keeps a type from being printed keeps it by itself, or keeps one of its parts. -/
theorem obstacle?_eq_some (h : t.obstacle? = some cause) :
    t.ownObstacle? = some cause ∨ ∃ part ∈ t.parts, part.obstacle? = some cause := by
  cases t with
  | keyword name => simp [obstacle?] at h
  | literal value => exact .inl (by rwa [obstacle?] at h)
  | reference names => exact .inl (by rwa [obstacle?] at h)
  | nonNull inner => exact .inr ⟨inner, List.mem_singleton_self inner, by rwa [obstacle?] at h⟩
  | array item => exact .inr ⟨item, List.mem_singleton_self item, by rwa [obstacle?] at h⟩
  | union members =>
    rw [obstacle?, obstacleAll?_eq] at h
    exact .inr (List.exists_of_findSome?_eq_some h)
  | intersection members =>
    rw [obstacle?, obstacleAll?_eq] at h
    exact .inr (List.exists_of_findSome?_eq_some h)
  | object fields index =>
    rw [obstacle?, Option.or_eq_some_iff, obstacleFields?_eq, obstacleIndex?_eq] at h
    rcases h with hfields | ⟨-, hindex⟩
    · obtain ⟨field, hfield, hcause⟩ := List.exists_of_findSome?_eq_some hfields
      split_ifs at hcause with hname
      · exact .inr ⟨field.type, List.mem_append_left _ (List.mem_map_of_mem hfield), hcause⟩
      · have hnames : ¬(fields.all fun field => hasTextName field.name) = true :=
          fun hall => hname (List.all_eq_true.mp hall field hfield)
        exact .inl (by rw [ownObstacle?, if_neg hnames, hcause])
    · obtain ⟨part, hpart, hcause⟩ := List.exists_of_findSome?_eq_some hindex
      exact .inr ⟨part, List.mem_append_right _ hpart, hcause⟩

/-- Nothing keeps a type from being printed if nothing keeps it by itself and nothing keeps its parts. -/
theorem obstacle?_eq_none_iff_parts :
    t.obstacle? = none ↔ t.ownObstacle? = none ∧ ∀ part ∈ t.parts, part.obstacle? = none := by
  cases t with
  | keyword name => simp [obstacle?, ownObstacle?, parts]
  | literal value => simp [obstacle?, ownObstacle?, parts]
  | reference names => simp [obstacle?, ownObstacle?, parts]
  | nonNull inner => simp [obstacle?, ownObstacle?, parts]
  | array item => simp [obstacle?, ownObstacle?, parts]
  | union members => simp [obstacle?, ownObstacle?, parts, obstacleAll?_eq]
  | intersection members => simp [obstacle?, ownObstacle?, parts, obstacleAll?_eq]
  | object fields index =>
    rw [obstacle?, Option.or_eq_none_iff, obstacleFields?_eq, obstacleIndex?_eq,
      List.findSome?_eq_none_iff, List.findSome?_eq_none_iff, ownObstacle?, parts, List.forall_mem_append,
      ← and_assoc]
    refine and_congr_left fun _ => ?_
    have hnames : (¬(fields.all fun field => hasTextName field.name) = true →
        some Malformed.unprintableName = none) ↔ ∀ field ∈ fields, hasTextName field.name = true := by
      simp
    rw [List.forall_mem_map, ite_eq_left_iff, hnames, ← forall₂_and]
    refine forall₂_congr fun field _ => ?_
    cases hasTextName field.name <;> simp

/-- Nothing keeps a type from being printed if nothing keeps any type that occurs in it. -/
theorem obstacle?_eq_none_iff :
    t.obstacle? = none ↔ ∀ inner, Occurs inner t → inner.ownObstacle? = none := by
  induction t using induction_parts with
  | h t ih =>
    rw [obstacle?_eq_none_iff_parts, forall_occurs_iff]
    exact and_congr_right fun _ => forall₂_congr ih

/-- What keeps a type from being printed keeps a type that occurs in it. -/
theorem exists_occurs_of_obstacle? (h : t.obstacle? = some cause) :
    ∃ inner, Occurs inner t ∧ inner.ownObstacle? = some cause := by
  induction t using induction_parts with
  | h t ih =>
    rcases obstacle?_eq_some h with hown | ⟨part, hpart, hcause⟩
    · exact ⟨t, .self, hown⟩
    · obtain ⟨inner, hinner, hown⟩ := ih part hpart hcause
      exact ⟨inner, .inside hpart hinner, hown⟩

/-- A type can be printed if nothing keeps it from that. -/
theorem printable_iff : t.printable = true ↔ t.obstacle? = none := Option.isNone_iff_eq_none

/-- A type that can be printed is printed at every depth. -/
theorem print?_of_printable (h : t.printable = true) (level : Int) : t.print? level = .ok (t.print level) := by
  rw [print?, printable_iff.mp h]

/-- A type that is kept from being printed is not printed at any depth. -/
theorem print?_of_obstacle? (h : t.obstacle? = some cause) (level : Int) : t.print? level = .error cause := by
  rw [print?, h]

/-- A type mentions a name if it is the reference of this name or a part of it mentions the name. -/
theorem mem_referenced_iff_parts {names : List Value} :
    names ∈ t.referenced ↔ t = .reference names ∨ ∃ part ∈ t.parts, names ∈ part.referenced := by
  cases t with
  | keyword name => simp [referenced, parts]
  | literal value => simp [referenced, parts]
  | reference others => simp [referenced, parts, eq_comm]
  | nonNull inner => simp [referenced, parts]
  | array item => simp [referenced, parts]
  | union members => simp [referenced, parts, referencedInAll_eq]
  | intersection members => simp [referenced, parts, referencedInAll_eq]
  | object fields index =>
    have hindex : names ∈ referencedInIndex index ↔
        ∃ signature ∈ index, names ∈ signature.type.referenced := by
      cases index <;> simp [referencedInIndex]
    rw [referenced, referencedInFields_eq, List.mem_append, List.mem_flatMap, hindex, parts]
    constructor
    · rintro (⟨field, hfield, hnames⟩ | ⟨signature, hsignature, hnames⟩)
      · exact .inr ⟨field.type, List.mem_append_left _ (List.mem_map_of_mem hfield), hnames⟩
      · refine .inr ⟨signature.type, List.mem_append_right _ (List.mem_map_of_mem ?_), hnames⟩
        exact Option.mem_toList.mpr hsignature
    · rintro (hsame | ⟨part, hpart, hnames⟩)
      · cases hsame
      · rcases List.mem_append.mp hpart with hpart | hpart
        · obtain ⟨field, hfield, rfl⟩ := List.mem_map.mp hpart
          exact .inl ⟨field, hfield, hnames⟩
        · obtain ⟨signature, hsignature, rfl⟩ := List.mem_map.mp hpart
          exact .inr ⟨signature, Option.mem_toList.mp hsignature, hnames⟩

/-- A type mentions the names of the references that occur in it. -/
theorem mem_referenced_iff {names : List Value} : names ∈ t.referenced ↔ Occurs (.reference names) t := by
  induction t using induction_parts with
  | h t ih =>
    rw [mem_referenced_iff_parts]
    constructor
    · rintro (rfl | ⟨part, hpart, hnames⟩)
      · exact .self
      · exact .inside hpart ((ih part hpart).mp hnames)
    · intro h
      cases h with
      | self => exact .inl rfl
      | inside hpart hinner => exact .inr ⟨_, hpart, (ih _ hpart).mpr hinner⟩

/-- An integer with too many digits occurs in a type. -/
def HoldsOverlong (t : TypeExpr) : Prop :=
  ∃ n : Int, Occurs (.literal (.scalar (.int n))) t ∧ (Scalar.int n).isOverlong = true

/-- The literal of a scalar is kept from being printed exactly if it is an integer with too many digits. -/
theorem ownObstacle?_literal_eq_none_iff (s : Scalar) :
    (literal (.scalar s)).ownObstacle? = none ↔ ∀ n, s = .int n → (Scalar.int n).isOverlong = false := by
  cases s with
  | int n => cases hn : (Scalar.int n).isOverlong <;> simp [ownObstacle?, Value.isOverlong, hn]
  | _ => simp [ownObstacle?, Value.isOverlong, Scalar.isOverlong]

/-- What keeps a well-formed type whose fields are named by texts from being printed is an integer with too
many digits or a reference that is not made of texts. -/
theorem cause_of_wellFormed (h : WellFormed distinctTexts t) (hcause : t.obstacle? = some cause) :
    cause = .overlongInteger ∧ t.HoldsOverlong ∨
      cause = .unprintableName ∧ ∃ names ∈ t.referenced, names.all Value.isText = false := by
  obtain ⟨inner, hinner, hown⟩ := exists_occurs_of_obstacle? hcause
  cases inner with
  | literal value =>
    obtain ⟨s, rfl⟩ : ∃ s, value = .scalar s := h _ hinner
    cases s with
    | int n =>
      cases hn : (Scalar.int n).isOverlong <;> simp [ownObstacle?, Value.isOverlong, hn] at hown
      exact .inl ⟨hown.symm, n, hinner, hn⟩
    | _ => simp [ownObstacle?, Value.isOverlong, Scalar.isOverlong] at hown
  | object fields index =>
    have hnames : distinctTexts (fields.map (·.name)) = true := h _ hinner
    rw [distinctTexts, Bool.and_eq_true, List.all_map] at hnames
    cases (if_pos hnames.1).symm.trans hown
  | reference names =>
    cases hnames : names.all Value.isText <;> simp [ownObstacle?, hnames] at hown
    exact .inr ⟨hown.symm, names, mem_referenced_iff.mpr hinner, hnames⟩
  | _ => cases hown

/-- A well-formed type whose fields are named by texts can be printed exactly if it refers to texts only
and no integer in it has too many digits. -/
theorem printable_iff_of_wellFormed (h : WellFormed distinctTexts t) :
    t.printable = true ↔
      (∀ names ∈ t.referenced, names.all Value.isText = true) ∧ ¬t.HoldsOverlong := by
  rw [printable_iff, obstacle?_eq_none_iff]
  constructor
  · intro hnone
    refine ⟨fun names hnames => ?_, fun ⟨n, hoccurs, hoverlong⟩ => ?_⟩
    · have hown := hnone _ (mem_referenced_iff.mp hnames)
      simpa [ownObstacle?] using hown
    · have hown := (ownObstacle?_literal_eq_none_iff (.int n)).mp (hnone _ hoccurs) n rfl
      rw [hoverlong] at hown
      cases hown
  · rintro ⟨hreferenced, hoverlong⟩ inner hinner
    cases inner with
    | object fields index =>
      have hnames : distinctTexts (fields.map (·.name)) = true := h _ hinner
      rw [distinctTexts, Bool.and_eq_true, List.all_map] at hnames
      exact if_pos hnames.1
    | reference names => exact if_pos (hreferenced names (mem_referenced_iff.mpr hinner))
    | literal value =>
      obtain ⟨s, rfl⟩ : ∃ s, value = .scalar s := h _ hinner
      refine (ownObstacle?_literal_eq_none_iff s).mpr fun n hn => ?_
      subst hn
      exact Bool.eq_false_iff.mpr fun hn => hoverlong ⟨n, hinner, hn⟩
    | _ => rfl

end SchemaTypes.TypeExpr
