import SchemaTypes.Proofs.TypeExpr.WellFormed

/-!
# Types that the grammar can write

A type is writable if its unions and intersections have several members, its keywords are those of
the grammar, its literals are no fractions, lists or objects, its references and index keys are made
of identifiers and no field name ends in a line feed. A name of one part must not be a word that
already stands for another type.

The text of an index signature does not show whether the signature is required. Two types that
differ in such flags only have the same unflagged type. Nor does the text tell a pair of surrogates in a
literal or a field name from the character of the pair, so a type is read back without such pairs.

Nothing but an integer with too many digits keeps a writable type from being printed.
-/

namespace SchemaTypes

/-- A scalar whose text is changed, if it is one. -/
def Scalar.mapText (f : Text → Text) : Scalar → Scalar
  | .text s => .text (f s)
  | s => s

/-- A value whose text is changed, if it is one. -/
def Value.mapText (f : Text → Text) : Value → Value
  | .scalar s => .scalar (s.mapText f)
  | v => v

namespace TypeExpr

/-- The words that stand for a keyword or a literal. -/
def reservedWords : List Text := keywords ++ [("null" : Text), "true", "false"]

/-- Whether a value is null, a boolean, an integer or a text. -/
def isWritableLiteral : Value → Bool
  | .scalar (.float _) => false
  | .scalar _ => true
  | _ => false

/-- Whether a part of a reference is an identifier. -/
def isWritablePart : Value → Bool
  | .scalar (.text s) => isIdentifier s.toList
  | _ => false

/-- Whether a reference has parts, all of them identifiers, and is not a single reserved word. -/
def isWritableName (parts : List Value) : Bool :=
  !parts.isEmpty && parts.all isWritablePart &&
    match parts with
    | [.scalar (.text s)] => !reservedWords.contains s
    | _ => true

/-- Whether the name of a field is a text that does not end in a line feed. -/
def isWritableFieldName : Scalar → Bool
  | .text s => s.toList.getLast? != some ('\n' : CodePoint)
  | _ => false

mutual

/-- Whether the grammar can write a type. -/
def writable : TypeExpr → Bool
  | keyword name => keywords.contains name
  | literal value => isWritableLiteral value
  | nonNull inner => writable inner
  | array item => writable item
  | object fields index => writableFields fields && writableIndex index
  | reference parts => isWritableName parts
  | union members => decide (2 ≤ members.length) && writableAll members
  | intersection members => decide (2 ≤ members.length) && writableAll members

/-- Whether the grammar can write a list of fields. -/
def writableFields : List (Field TypeExpr) → Bool
  | [] => true
  | ⟨name, type, _, _⟩ :: rest => isWritableFieldName name && writable type && writableFields rest

/-- Whether the grammar can write an index signature. -/
def writableIndex : Option (IndexSignature TypeExpr) → Bool
  | none => true
  | some ⟨type, _, _, key⟩ => isIdentifier key.toList && writable type

/-- Whether the grammar can write several types. -/
def writableAll : List TypeExpr → Bool
  | [] => true
  | t :: rest => writable t && writableAll rest

end

mutual

/-- A type whose literals and field names are changed, without the flags of its index signatures. -/
def rewritten (f : Text → Text) : TypeExpr → TypeExpr
  | keyword name => keyword name
  | literal value => literal (value.mapText f)
  | nonNull inner => nonNull (rewritten f inner)
  | array item => array (rewritten f item)
  | object fields index => object (rewrittenFields f fields) (rewrittenIndex f index)
  | reference parts => reference parts
  | union members => union (rewrittenAll f members)
  | intersection members => intersection (rewrittenAll f members)

/-- Fields whose names and types are changed in this way. -/
def rewrittenFields (f : Text → Text) : List (Field TypeExpr) → List (Field TypeExpr)
  | [] => []
  | ⟨name, type, required, readOnly⟩ :: rest =>
    ⟨name.mapText f, rewritten f type, required, readOnly⟩ :: rewrittenFields f rest

/-- An index signature without its flag, whose type is changed in this way. -/
def rewrittenIndex (f : Text → Text) :
    Option (IndexSignature TypeExpr) → Option (IndexSignature TypeExpr)
  | none => none
  | some ⟨type, _, readOnly, key⟩ => some ⟨rewritten f type, false, readOnly, key⟩

/-- Types that are changed in this way. -/
def rewrittenAll (f : Text → Text) : List TypeExpr → List TypeExpr
  | [] => []
  | t :: rest => rewritten f t :: rewrittenAll f rest

end

/-- A type without the flags of its index signatures. -/
def unflagged (t : TypeExpr) : TypeExpr := t.rewritten id

/-- A type as its text shows it: without the flags of its index signatures, and with characters for the
pairs of surrogates in its literals and field names. -/
def asRead (t : TypeExpr) : TypeExpr := t.rewritten Text.merged

/-- A text that a type holds outside its parts: its literal or the name of a field. -/
def HoldsText (s : Text) : TypeExpr → Prop
  | literal value => value = .text s
  | object fields _ => ∃ field ∈ fields, field.name = .text s
  | _ => False

/-- A pair of surrogates stands in a literal or a field name at some depth of a type. -/
def HoldsPair (t : TypeExpr) : Prop :=
  ∃ inner s, Occurs inner t ∧ HoldsText s inner ∧ Text.hasPair s.toList = true

/-- Several types are changed one by one. -/
theorem rewrittenAll_eq (f : Text → Text) (ts : List TypeExpr) :
    rewrittenAll f ts = ts.map (rewritten f) := by
  induction ts with
  | nil => simp [rewrittenAll]
  | cons t rest ih => rw [rewrittenAll, ih, List.map_cons]

/-- Fields are changed one by one. -/
theorem rewrittenFields_eq (f : Text → Text) (fields : List (Field TypeExpr)) :
    rewrittenFields f fields = fields.map fun field =>
      ⟨field.name.mapText f, field.type.rewritten f, field.required, field.readOnly⟩ := by
  induction fields with
  | nil => simp [rewrittenFields]
  | cons field rest ih => rw [rewrittenFields, ih, List.map_cons]

section Rewritten

variable {f g : Text → Text} {t : TypeExpr}

/-- A scalar is changed alike exactly if its text is. -/
theorem mapText_eq_mapText_iff {name : Scalar} :
    name.mapText f = name.mapText g ↔ ∀ s, name = .text s → f s = g s := by
  cases name <;> simp [Scalar.mapText]

/-- A type is changed alike exactly if the texts that it holds and its parts are. -/
theorem rewritten_eq_rewritten_iff_parts :
    t.rewritten f = t.rewritten g ↔
      (∀ s, HoldsText s t → f s = g s) ∧ ∀ part ∈ t.parts, part.rewritten f = part.rewritten g := by
  cases t with
  | keyword name => simp [rewritten, HoldsText, parts]
  | reference names => simp [rewritten, HoldsText, parts]
  | nonNull inner => simp [rewritten, HoldsText, parts]
  | array item => simp [rewritten, HoldsText, parts]
  | union members => simp [rewritten, HoldsText, parts, rewrittenAll_eq]
  | intersection members => simp [rewritten, HoldsText, parts, rewrittenAll_eq]
  | literal value =>
    cases value with
    | scalar s => simp [rewritten, HoldsText, parts, Value.mapText, Value.text, mapText_eq_mapText_iff]
    | list items => simp [rewritten, HoldsText, parts, Value.mapText, Value.text]
    | object members => simp [rewritten, HoldsText, parts, Value.mapText, Value.text]
  | object fields index =>
    have hfields : rewrittenFields f fields = rewrittenFields g fields ↔
        (∀ s, HoldsText s (object fields index) → f s = g s) ∧
          ∀ part ∈ fields.map (·.type), part.rewritten f = part.rewritten g := by
      rw [rewrittenFields_eq, rewrittenFields_eq, List.map_inj_left, List.forall_mem_map]
      simp only [Field.mk.injEq, and_true, mapText_eq_mapText_iff, HoldsText]
      constructor
      · intro h
        refine ⟨?_, fun field hfield => (h field hfield).2⟩
        rintro s ⟨field, hfield, hname⟩
        exact (h field hfield).1 s hname
      · rintro ⟨hnames, htypes⟩ field hfield
        exact ⟨fun s hname => hnames s ⟨field, hfield, hname⟩, htypes field hfield⟩
    have hindex : rewrittenIndex f index = rewrittenIndex g index ↔
        ∀ part ∈ index.toList.map (·.type), part.rewritten f = part.rewritten g := by
      cases index <;> simp [rewrittenIndex]
    rw [rewritten, rewritten, object.injEq, hfields, hindex, and_assoc, parts, List.forall_mem_append]

/-- A type is changed alike exactly if all texts in it are. -/
theorem rewritten_eq_rewritten_iff :
    t.rewritten f = t.rewritten g ↔ ∀ inner, Occurs inner t → ∀ s, HoldsText s inner → f s = g s := by
  induction t using induction_parts with
  | h t ih =>
    rw [rewritten_eq_rewritten_iff_parts, forall_occurs_iff]
    exact and_congr_right fun _ => forall₂_congr ih

/-- A type is read back as it is, flags apart, exactly if no pair of surrogates stands in it. -/
theorem asRead_eq_unflagged_iff : t.asRead = t.unflagged ↔ ¬t.HoldsPair := by
  rw [asRead, unflagged, rewritten_eq_rewritten_iff]
  constructor
  · rintro h ⟨inner, s, hinner, hs, hpair⟩
    have hmerged := Text.merged_eq_self_iff.mp (h inner hinner s hs)
    rw [hpair] at hmerged
    cases hmerged
  · intro h inner hinner s hs
    refine Text.merged_eq_self_iff.mpr (Bool.eq_false_iff.mpr fun hpair => ?_)
    exact h ⟨inner, s, hinner, hs, hpair⟩

end Rewritten

/-- Several types are writable if each of them is. -/
theorem writableAll_eq (ts : List TypeExpr) : writableAll ts = ts.all writable := by
  induction ts with
  | nil => simp [writableAll]
  | cons t rest ih => rw [writableAll, ih, List.all_cons]

/-- Fields are writable if their names and their types are. -/
theorem writableFields_eq (fields : List (Field TypeExpr)) :
    writableFields fields = fields.all fun field => isWritableFieldName field.name && field.type.writable := by
  induction fields with
  | nil => simp [writableFields]
  | cons field rest ih => rw [writableFields, ih, List.all_cons]

/-- The members of a union are printed one by one. -/
theorem printUnion_eq (ts : List TypeExpr) (level : Int) :
    printUnion ts level = ts.map fun t => parenthesized t.isUnion (t.print level) := by
  induction ts with
  | nil => simp [printUnion]
  | cons t rest ih => rw [printUnion, ih, List.map_cons]

/-- The members of an intersection are printed one by one. -/
theorem printIntersection_eq (ts : List TypeExpr) (level : Int) :
    printIntersection ts level = ts.map fun t => parenthesized t.isCompound (t.print level) := by
  induction ts with
  | nil => simp [printIntersection]
  | cons t rest ih => rw [printIntersection, ih, List.map_cons]

/-- A writable part of a reference is the text of an identifier. -/
theorem exists_of_isWritablePart {part : Value} (h : isWritablePart part = true) :
    ∃ s : Text, part = .scalar (.text s) ∧ isIdentifier s.toList = true := by
  unfold isWritablePart at h
  split at h
  · exact ⟨_, rfl, h⟩
  · cases h

/-- Writable parts are the texts of a list of identifiers. -/
theorem exists_names_of_all_isWritablePart {parts : List Value}
    (h : parts.all isWritablePart = true) :
    ∃ names : List Text, parts = names.map (fun s => .scalar (.text s)) ∧
      ∀ s ∈ names, isIdentifier s.toList = true := by
  induction parts with
  | nil => exact ⟨[], rfl, by simp⟩
  | cons part rest ih =>
    rw [List.all_cons, Bool.and_eq_true] at h
    obtain ⟨s, rfl, hs⟩ := exists_of_isWritablePart h.1
    obtain ⟨names, rfl, hnames⟩ := ih h.2
    exact ⟨s :: names, rfl, List.forall_mem_cons.2 ⟨hs, hnames⟩⟩

/-- The parts of a writable reference are the texts of identifiers, one alone being no reserved word. -/
theorem exists_of_isWritableName {parts : List Value} (h : isWritableName parts = true) :
    ∃ names : List Text, parts = names.map (fun s => .scalar (.text s)) ∧ names ≠ [] ∧
      (∀ s ∈ names, isIdentifier s.toList = true) ∧ ∀ s, names = [s] → s ∉ reservedWords := by
  simp only [isWritableName, Bool.and_eq_true] at h
  obtain ⟨⟨hempty, hparts⟩, hreserved⟩ := h
  obtain ⟨names, rfl, hnames⟩ := exists_names_of_all_isWritablePart hparts
  have hne : names ≠ [] := by
    rintro rfl
    simp at hempty
  have hsingle (s : Text) (hs : names = [s]) : s ∉ reservedWords := by
    subst hs
    simpa using hreserved
  exact ⟨names, rfl, hne, hnames, hsingle⟩

section Printable

variable {t : TypeExpr}

/-- The parts of a writable type are writable. -/
theorem writable_of_mem_parts {part : TypeExpr} (h : t.writable = true) (hpart : part ∈ t.parts) :
    part.writable = true := by
  cases t with
  | keyword name => cases hpart
  | literal value => cases hpart
  | reference names => cases hpart
  | nonNull inner =>
    rw [writable] at h
    rwa [List.mem_singleton.mp hpart]
  | array item =>
    rw [writable] at h
    rwa [List.mem_singleton.mp hpart]
  | union members =>
    rw [writable, Bool.and_eq_true, writableAll_eq] at h
    exact List.all_eq_true.mp h.2 part hpart
  | intersection members =>
    rw [writable, Bool.and_eq_true, writableAll_eq] at h
    exact List.all_eq_true.mp h.2 part hpart
  | object fields index =>
    rw [writable, Bool.and_eq_true, writableFields_eq] at h
    rcases List.mem_append.mp hpart with hpart | hpart
    · obtain ⟨field, hfield, rfl⟩ := List.mem_map.mp hpart
      exact (Bool.and_eq_true_iff.mp (List.all_eq_true.mp h.1 field hfield)).2
    · obtain ⟨signature, hsignature, rfl⟩ := List.mem_map.mp hpart
      rw [Option.mem_toList.mp hsignature, writableIndex, Bool.and_eq_true] at h
      exact h.2.2

/-- What occurs in a writable type is writable. -/
theorem Occurs.writable {inner : TypeExpr} (h : Occurs inner t) (hwritable : t.writable = true) :
    inner.writable = true := by
  induction h with
  | self => exact hwritable
  | inside hpart _ ih => exact ih (writable_of_mem_parts hwritable hpart)

/-- Only an integer with too many digits keeps a writable type from being printed by itself. -/
theorem ownObstacle?_of_writable (h : t.writable = true) {cause : Malformed}
    (hcause : t.ownObstacle? = some cause) :
    cause = .overlongInteger ∧
      ∃ n : Int, t = .literal (.scalar (.int n)) ∧ (Scalar.int n).isOverlong = true := by
  cases t with
  | literal value =>
    rw [ownObstacle?] at hcause
    split_ifs at hcause with hoverlong
    cases hcause
    refine ⟨rfl, ?_⟩
    cases value with
    | scalar s =>
      cases s with
      | int n => exact ⟨n, rfl, hoverlong⟩
      | _ => cases hoverlong
    | _ => cases h
  | object fields index =>
    rw [writable, Bool.and_eq_true, writableFields_eq, List.all_eq_true] at h
    have hnames : (fields.all fun field => hasTextName field.name) = true := by
      refine List.all_eq_true.mpr fun field hfield => ?_
      have hname := (Bool.and_eq_true_iff.mp (h.1 field hfield)).1
      cases hscalar : field.name <;> simp_all [isWritableFieldName, hasTextName]
    rw [ownObstacle?, if_pos hnames] at hcause
    cases hcause
  | reference names =>
    rw [writable] at h
    obtain ⟨names, rfl, -⟩ := exists_of_isWritableName h
    simp [ownObstacle?, Value.isText] at hcause
  | _ => cases hcause

/-- A writable type can be printed, unless an integer in it has too many digits, which is then the cause. -/
theorem obstacle?_of_writable (h : t.writable = true) :
    (¬t.HoldsOverlong → t.obstacle? = none) ∧ (t.HoldsOverlong → t.obstacle? = some .overlongInteger) := by
  constructor
  · intro hoverlong
    rw [Option.eq_none_iff_forall_ne_some]
    intro cause hcause
    obtain ⟨inner, hinner, hown⟩ := exists_occurs_of_obstacle? hcause
    obtain ⟨-, n, rfl, hn⟩ := ownObstacle?_of_writable (hinner.writable h) hown
    exact hoverlong ⟨n, hinner, hn⟩
  · rintro ⟨n, hinner, hn⟩
    cases hobstacle : t.obstacle? with
    | none =>
      have hown := obstacle?_eq_none_iff.mp hobstacle _ hinner
      have hlong := (ownObstacle?_literal_eq_none_iff (.int n)).mp hown n rfl
      rw [hn] at hlong
      cases hlong
    | some cause =>
      obtain ⟨inner, hinner, hown⟩ := exists_occurs_of_obstacle? hobstacle
      rw [(ownObstacle?_of_writable (hinner.writable h) hown).1]

end Printable

end TypeExpr

end SchemaTypes
