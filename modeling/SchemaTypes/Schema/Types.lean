import SchemaTypes.Namespace.Basic
import SchemaTypes.Schema.Discovery
import SchemaTypes.Schema.Shape

/-!
# The types of a schema

A schema node stands for a list of types, its alternatives. A referenced schema is never inlined:
the reference becomes a qualified name and is remembered for later declaration.

Types admit null unless they are marked. A `type` keyword without `null` marks each of its types,
and nulls of an enumeration are dropped, since every literal type admits null already. Pattern and
additional properties share one index signature, for an object type has at most one.
-/

namespace SchemaTypes

namespace Schema

/-- Whether a value is a scalar. -/
def isScalar : Value → Bool
  | .scalar _ => true
  | _ => false

/-- Whether a schema marks its values as read-only. -/
def isReadOnly : Value → Bool
  | .object members => (Members.fieldOrNull "readOnly" members).isPresent
  | _ => false

/-- The literal type of a scalar. -/
def literal (scope : Scope) (value : Value) : Except Fault TypeExpr :=
  match value with
  | .scalar s => .ok (.literal (.scalar s))
  | _ =>
    .error (scope.fault (.unsupportedSchema (.record [("const", value)])
      "literal must be a number, string, boolean or null"))

/-- The literal types of an enumeration, which must be a list of scalars. -/
def enumeration (scope : Scope) (values : Value) : Except Fault (List TypeExpr) :=
  match values with
  | .list items =>
    if items.all isScalar then
      .ok ((items.filter fun item => !item.isNull).map .literal)
    else .error (scope.fault (.unsupportedEnum values))
  | _ => .error (scope.fault (.unsupportedEnum values))

/-- The tags of a `type` keyword. -/
def tags : Value → List Value
  | .list items => items
  | tag => [tag]

/-- Whether a tag is the given word. -/
def isTag (word : Text) : Value → Bool
  | .scalar s => s.isText word
  | _ => false

/-- The keyword type that a tag names. -/
def keywordOf? : Value → Option TypeExpr
  | .scalar (.text s) =>
    if s = "any" then some .any
    else if s = "boolean" then some .boolean
    else if s = "integer" ∨ s = "number" then some .number
    else if s = "string" then some .string
    else none
  | _ => none

/-- The types of a list of tags, given how object and array types are built. -/
def tagTypes (scope : Scope) (object array : Build TypeExpr) : List Value → Build (List TypeExpr)
  | [] => pure []
  | tag :: rest => do
    let type ←
      if isTag "object" tag then object
      else if isTag "array" tag then array
      else
        match keywordOf? tag with
        | some type => pure type
        | none => throw (scope.fault (.unsupportedType tag))
    let types ← tagTypes scope object array rest
    return type :: types

/-- The types of a `type` keyword, given how object and array types are built. -/
def typed (scope : Scope) (keyword : Value) (object array : Build TypeExpr) :
    Build (List TypeExpr) := do
  let nullable := (tags keyword).any (isTag "null")
  match (tags keyword).filter fun tag => !isTag "null" tag with
  | [] => return [if nullable then .null else .never]
  | named => do
    let types ← tagTypes scope object array named
    return if nullable then types else types.map .nonNull

/-- The names that an object schema requires. -/
def requiredNames (members : Members) : Value := (members.fieldOrNull "required").orElse (.list [])

/-- The index signature that pattern properties and additional properties share. It is required, or
read-only, only if each of them is, and additional properties are neither. -/
def indexOf (patterns : List (Field TypeExpr)) (additional : Bool) : IndexSignature TypeExpr :=
  { type := .unionOf (patterns.map (·.type) ++ if additional then [.any] else [])
    required := !additional && patterns.all (·.required)
    readOnly := !additional && patterns.all (·.readOnly)
    key := "pattern" }

/-- The object type of a schema, given how its properties and pattern properties are built. -/
def objectOf (members : Members) (properties patterns : Build (List (Field TypeExpr))) :
    Build TypeExpr := do
  let fields ← properties
  let additional := (members.fieldOrNull "additionalProperties").isPresent
  if (members.fieldOrNull "patternProperties").isPresent || additional then
    let sources ← patterns
    return .object fields (some (indexOf sources additional))
  else return .object fields none

/-- The place of a number on the extended line; booleans have none. -/
def bound? : Option Value → Option Extended
  | some (.scalar s) => if s.isNumber then s.extended? else none
  | _ => none

/-- Whether no length satisfies the bounds of an array schema. -/
def unsatisfiable (members : Members) : Bool :=
  match bound? (members.field? "minItems"), bound? (members.field? "maxItems") with
  | some least, some most => least.order most = .gt
  | _, _ => false

/-- The array type of a schema, given how the types of its items are built. -/
def arrayOf (members : Members) (items : Build (List TypeExpr)) : Build TypeExpr := do
  if unsatisfiable members then return .never
  else
    match (← items) with
    | [] => return .array .any
    | types => return .array (.unionOf types)

/-- The type of the branches of a combinator. An exclusive choice cannot be expressed, so it
widens to a union. -/
def combine : Combinator → List TypeExpr → TypeExpr
  | .allOf, types => .intersectionOf types
  | _, types => .unionOf types

/-- The fault of a combinator whose branches are no list. -/
def notBranches (scope : Scope) (c : Combinator) (members : Members) : Fault :=
  scope.fault (.unsupportedSchema (.object members) ("'" ++ c.keyword ++ "' must be a list"))

mutual

/-- The types a schema stands for. -/
def types (scope : Scope) : Value → Build (List TypeExpr)
  | .scalar (.bool b) => return [if b then .any else .never]
  | .scalar s => throw (scope.fault (.unsupportedSchema (.scalar s) ""))
  | .list items => throw (scope.fault (.unsupportedSchema (.list items) ""))
  | .object members =>
    match Shape.ofMembers members with
    | .error cause => throw (scope.fault cause)
    | .ok .boolean => throw (scope.fault (.unsupportedSchema (.object members) ""))
    | .ok .reference => do
      let target ← scope.register (Members.fieldOrNull "$ref" members)
      return [← scope.reference target.segments]
    | .ok .const => do return [← literal scope (Members.fieldOrNull "const" members)]
    | .ok .enum => enumeration scope (Members.fieldOrNull "enum" members)
    | .ok .typed =>
      typed scope (Members.fieldOrNull "type" members)
        (objectOf members
          (fieldsUnder scope "properties" (requiredNames members) members)
          (fieldsUnder scope "patternProperties" (requiredNames members) members))
        (arrayOf members (itemTypes scope members))
    | .ok (.combined c) => do
      let branches ← branchesUnder scope c (notBranches scope c members) members
      return [combine c branches]

/-- The fields for the properties that the member of the given name holds. -/
def fieldsUnder (scope : Scope) (name : Text) (required : Value) :
    List (Scalar × Value) → Build (List (Field TypeExpr))
  | [] => return []
  | (k, v) :: rest =>
    if k.isText name then
      match v with
      | .object properties => fieldsOf scope required properties
      | other => if other.isPresent then throw (.malformed .notObject) else return []
    else fieldsUnder scope name required rest

/-- The fields for a list of properties. -/
def fieldsOf (scope : Scope) (required : Value) :
    List (Scalar × Value) → Build (List (Field TypeExpr))
  | [] => return []
  | (name, schema) :: rest => do
    let alternatives ← types scope schema
    let isRequired ← Fault.ofMalformed (required.contains name)
    let fields ← fieldsOf scope required rest
    return ⟨name, .unionOf alternatives, isRequired, isReadOnly schema⟩ :: fields

/-- The types of the items of an array schema; without `items` they may be anything. -/
def itemTypes (scope : Scope) : List (Scalar × Value) → Build (List TypeExpr)
  | [] => return [.any]
  | (k, v) :: rest =>
    if k.isText "items" then
      match v with
      | .list schemas => allTypes scope schemas
      | schema => types scope schema
    else itemTypes scope rest

/-- The types of several schemas in one list. -/
def allTypes (scope : Scope) : List Value → Build (List TypeExpr)
  | [] => return []
  | schema :: rest => do
    let first ← types scope schema
    let others ← allTypes scope rest
    return first ++ others

/-- The types of the branches that a combinator holds. -/
def branchesUnder (scope : Scope) (c : Combinator) (otherwise : Fault) :
    List (Scalar × Value) → Build (List TypeExpr)
  | [] => throw otherwise
  | (k, v) :: rest =>
    if k.isText c.keyword then
      match v with
      | .list schemas => branchTypes scope schemas
      | _ => throw otherwise
    else branchesUnder scope c otherwise rest

/-- One type for each of several schemas. -/
def branchTypes (scope : Scope) : List Value → Build (List TypeExpr)
  | [] => return []
  | schema :: rest => do
    let alternatives ← types scope schema
    let others ← branchTypes scope rest
    return .unionOf alternatives :: others

end

/-- The object type of a schema. -/
def objectType (scope : Scope) (members : Members) : Build TypeExpr :=
  objectOf members
    (fieldsUnder scope "properties" (requiredNames members) members)
    (fieldsUnder scope "patternProperties" (requiredNames members) members)

/-- The array type of a schema. -/
def arrayType (scope : Scope) (members : Members) : Build TypeExpr :=
  arrayOf members (itemTypes scope members)

/-- The name of a declaration that has neither a name nor a title. -/
def fallbackName : Text := "Unknown"

/-- The title of a schema, null if it has none. -/
def title : Value → Value
  | .object members => Members.fieldOrNull "title" members
  | _ => .null

/-- The declaration of a schema under a name, its title or the fallback, whichever is present. -/
def declare (scope : Scope) (schema name : Value) (ambient : Bool) : Build Declaration := do
  let alternatives ← types scope schema
  let identifier ← scope.identify (name.orElse ((title schema).orElse (.text fallbackName)))
  return ⟨identifier, .unionOf alternatives, !ambient⟩

end Schema

end SchemaTypes
