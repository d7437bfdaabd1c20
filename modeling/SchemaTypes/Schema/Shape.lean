import SchemaTypes.Fault

/-!
# Shapes of schemas

A schema node is a boolean, or an object that is read by the first of the keywords `$ref`, `const`,
`enum` and `type` that it has, or else by the one combinator it has. Everything else is no schema.
-/

namespace SchemaTypes

/-- The keywords that combine schemas. -/
inductive Combinator where
  | oneOf
  | anyOf
  | allOf
deriving DecidableEq

namespace Combinator

/-- The keyword of a combinator. -/
def keyword : Combinator → Text
  | oneOf => "oneOf"
  | anyOf => "anyOf"
  | allOf => "allOf"

/-- All combinators in the order in which they are looked for. -/
def all : List Combinator := [oneOf, anyOf, allOf]

end Combinator

/-- The recognised shapes of a schema node. -/
inductive Shape where
  | boolean
  | reference
  | const
  | enum
  | typed
  | combined (combinator : Combinator)
deriving DecidableEq

namespace Shape

/-- The word for a shape. -/
def word : Shape → Text
  | boolean => "boolean"
  | reference => "$ref"
  | const => "const"
  | enum => "enum"
  | typed => "type"
  | combined _ => "combinator"

/-- The shape of an object by its members. -/
def ofMembers (members : Members) : Except SchemaFault Shape :=
  if members.has "$ref" then .ok reference
  else if members.has "const" then .ok const
  else if members.has "enum" then .ok enum
  else if members.has "type" then .ok typed
  else
    match Combinator.all.filter fun c => members.has c.keyword with
    | [c] => .ok (combined c)
    | [] => .error (.unsupportedSchema (.object members) "")
    | several =>
      .error (.unsupportedSchema (.object members)
        ("combines " ++ Text.joinWith ", " (several.map Combinator.keyword)))

/-- The shape of a schema node. -/
def of : Value → Except SchemaFault Shape
  | .scalar (.bool _) => .ok boolean
  | .object members => ofMembers members
  | value => .error (.unsupportedSchema value "")

end Shape

end SchemaTypes
