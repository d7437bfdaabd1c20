import SchemaTypes.Document.Excerpt

/-!
# Type expressions

The types of the generated source: keywords, literals, arrays, object types, references to
declarations, unions and intersections. A type may be marked as never null.

A union of no types is the type without values and an intersection of no types is the type of all
values; a union or intersection of one type is that type.

A reference names its declaration part by part. The parts are texts unless a naming kept a name
that is none.
-/

namespace SchemaTypes

/-- A named member of an object type. -/
structure Field (τ : Type) where
  name : Scalar
  type : τ
  required : Bool
  readOnly : Bool

/-- The member type of an object type for all names that are no field. -/
structure IndexSignature (τ : Type) where
  type : τ
  required : Bool
  readOnly : Bool
  key : Text

/-- A type expression. -/
inductive TypeExpr where
  | keyword (name : Text)
  | literal (value : Value)
  | nonNull (inner : TypeExpr)
  | array (item : TypeExpr)
  | object (fields : List (Field TypeExpr)) (index : Option (IndexSignature TypeExpr))
  | reference (parts : List Value)
  | union (members : List TypeExpr)
  | intersection (members : List TypeExpr)

namespace TypeExpr

/-- The type of all values. -/
abbrev any : TypeExpr := keyword "any"

/-- The type without values. -/
abbrev never : TypeExpr := keyword "never"

/-- The type about whose values nothing is known. -/
abbrev unknown : TypeExpr := keyword "unknown"

/-- The type of booleans. -/
abbrev boolean : TypeExpr := keyword "boolean"

/-- The type of numbers. -/
abbrev number : TypeExpr := keyword "number"

/-- The type of texts. -/
abbrev string : TypeExpr := keyword "string"

/-- The type of null alone. -/
abbrev null : TypeExpr := literal Value.null

/-- The union of a list of types. -/
def unionOf : List TypeExpr → TypeExpr
  | [] => never
  | [t] => t
  | ts => union ts

/-- The intersection of a list of types. -/
def intersectionOf : List TypeExpr → TypeExpr
  | [] => unknown
  | [t] => t
  | ts => intersection ts

/-- Whether a type is a union or an intersection. -/
def isCompound : TypeExpr → Bool
  | union _ => true
  | intersection _ => true
  | _ => false

/-- Whether a type is a union. -/
def isUnion : TypeExpr → Bool
  | union _ => true
  | _ => false

/-- The name a reference is written with. -/
def qualifiedName (parts : List Value) : Text := Text.joinWith "." (parts.map Value.display)

/-- The name a reference is written with, if all its parts are text. -/
def qualifiedName? (parts : List Value) : Except Malformed Text :=
  if parts.all Value.isText then .ok (qualifiedName parts) else .error .unprintableName

end TypeExpr

end SchemaTypes
