import SchemaTypes.TypeExpr.Basic

/-!
# The references in a type

Every qualified name that a type mentions, at any depth and in the order of the text. A union or an
intersection made from a list of types mentions what these types mention, also when it is none.
-/

namespace SchemaTypes

namespace TypeExpr

mutual

/-- The qualified names that a type mentions. -/
def referenced : TypeExpr → List (List Value)
  | keyword _ => []
  | literal _ => []
  | nonNull inner => referenced inner
  | array item => referenced item
  | object fields index => referencedInFields fields ++ referencedInIndex index
  | reference parts => [parts]
  | union members => referencedInAll members
  | intersection members => referencedInAll members

/-- The qualified names that the types of fields mention. -/
def referencedInFields : List (Field TypeExpr) → List (List Value)
  | [] => []
  | ⟨_, type, _, _⟩ :: rest => referenced type ++ referencedInFields rest

/-- The qualified names that the type of an index signature mentions. -/
def referencedInIndex : Option (IndexSignature TypeExpr) → List (List Value)
  | none => []
  | some ⟨type, _, _, _⟩ => referenced type

/-- The qualified names that several types mention. -/
def referencedInAll : List TypeExpr → List (List Value)
  | [] => []
  | t :: rest => referenced t ++ referencedInAll rest

end

/-- Several types mention what each of them mentions. -/
theorem referencedInAll_eq (ts : List TypeExpr) : referencedInAll ts = ts.flatMap referenced := by
  induction ts with
  | nil => simp [referencedInAll]
  | cons t rest ih => rw [referencedInAll, ih, List.flatMap_cons]

/-- Fields mention what the type of each mentions. -/
theorem referencedInFields_eq (fields : List (Field TypeExpr)) :
    referencedInFields fields = fields.flatMap fun field => referenced field.type := by
  induction fields with
  | nil => simp [referencedInFields]
  | cons field rest ih => rw [referencedInFields, ih, List.flatMap_cons]

/-- A union mentions what its types mention. -/
theorem referenced_unionOf (ts : List TypeExpr) : (unionOf ts).referenced = ts.flatMap referenced := by
  rcases ts with _ | ⟨t, _ | ⟨u, rest⟩⟩
  · simp [unionOf, referenced]
  · simp [unionOf]
  · change referenced (union (t :: u :: rest)) = _
    rw [referenced, referencedInAll_eq]

/-- An intersection mentions what its types mention. -/
theorem referenced_intersectionOf (ts : List TypeExpr) :
    (intersectionOf ts).referenced = ts.flatMap referenced := by
  rcases ts with _ | ⟨t, _ | ⟨u, rest⟩⟩
  · simp [intersectionOf, referenced]
  · simp [intersectionOf]
  · change referenced (intersection (t :: u :: rest)) = _
    rw [referenced, referencedInAll_eq]

/-- Marking types as never null changes nothing about what they mention. -/
theorem flatMap_referenced_nonNull (ts : List TypeExpr) :
    (ts.map nonNull).flatMap referenced = ts.flatMap referenced := by
  simp [List.flatMap_map, referenced]

end TypeExpr

end SchemaTypes
