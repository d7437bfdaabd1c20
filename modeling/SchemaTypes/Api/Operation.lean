import SchemaTypes.Api.Options
import SchemaTypes.Api.Overlay
import SchemaTypes.Name

/-!
# Operations

Each operation is declared under the base name and its operation id: the union of its request body
schemas as `Body`, each parameter under `Parameters`, the union of the schemas of each response
under `Responses`, and two records on top. `Input` has one field for the body and for each
parameter. `Output` has one variant for each response with content: status, headers and body.
-/

namespace SchemaTypes.Api

/-- What the operations of one document have in common. -/
structure Setting where
  overlay : Overlay
  naming : Naming
  base : Value
  options : Options

/-- A declaration of an operation, with its path below the base name. -/
structure OperationEntry where
  operation : Text
  parts : List Text
  declaration : Declaration

/-- What the operations walked so far have left behind. -/
structure State where
  discovery : Discovery
  scratch : Scratch
  entries : List OperationEntry
  ids : List (Text × Nat)

/-- A computation over this state that may stop with a fault. -/
abbrev Compile := StateT State (Except Fault)

/-- Build within the state. -/
def build {α : Type} (action : Build α) : Compile α := fun state =>
  match action.run state.discovery with
  | (.ok a, discovery) => .ok (a, { state with discovery })
  | (.error fault, _) => .error fault

/-- The value that a chain of references leads to, in the overlay as it is now. -/
def resolveChain (setting : Setting) (place : Text) (value : Value) :
    Compile (Value × Option Text) := do
  dereference (setting.overlay.value (← get).scratch) (some place) value

/-- The operation being compiled: its id and the place faults are reported at. -/
structure Operation where
  id : Text
  place : Text

/-- The scope of the schemas of an operation. There is no root declaration to refer to. -/
def Setting.scope (setting : Setting) (operation : Operation) : Scope :=
  ⟨setting.naming, none, some operation.place⟩

/-- The segments that name a declaration of an operation. -/
def Setting.segments (setting : Setting) (operation : Operation) (parts : List Text) :
    List Value :=
  setting.base :: (operation.id :: parts).map .text

/-- Add a declaration to those of an operation. -/
def addEntry (operation : Operation) (parts : List Text) (declaration : Declaration) :
    Compile Unit :=
  modify fun state =>
    { state with entries := state.entries ++ [⟨operation.id, parts, declaration⟩] }

/-- Declare a schema among the declarations of an operation, named by its last part. -/
def declare (setting : Setting) (operation : Operation) (parts : List Text) (schema : Value) :
    Compile Unit := do
  let name := .text (parts.getLastD "")
  let declaration ← build (Schema.declare (setting.scope operation) schema name false)
  addEntry operation parts declaration

/-- The schemas of the media types of a content that have one. -/
def mediaSchemas : Value → List Value
  | .object content => content.filterMap fun (_, media) =>
    match media with
    | .object members => Members.field? "schema" members
    | _ => none
  | _ => []

/-- The schema that admits what one of several schemas admits. -/
def oneOf (schemas : List Value) : Value := .record [("oneOf", .list schemas)]

/-- One input of an operation: its name, the parts that name its declaration, and whether it must
be given. -/
structure Input where
  name : Text
  parts : List Text
  required : Bool

/-- The references to numbered schemas at a path of the scratch area. -/
def numberedReferences (path : List Text) (stem : Text) (count : Nat) : List Value :=
  (List.range count).map fun i => Scratch.reference (path ++ [stem ++ toString i])

/-- Declare the request body of an operation, if it has any schema. -/
def compileBody (setting : Setting) (operation : Operation) (requestBody : Value) :
    Compile (Option Input) := do
  if requestBody.isNull then return none
  match (← resolveChain setting operation.place requestBody).1 with
  | .object members =>
    match mediaSchemas (Members.fieldOrNull "content" members) with
    | [] => return none
    | schemas =>
      modify fun state => { state with scratch := state.scratch.addBody operation.id schemas }
      declare setting operation ["Body"]
        (oneOf (numberedReferences [Scratch.requestBodiesKey, operation.id] "Body" schemas.length))
      return some ⟨"body", ["Body"], (Members.fieldOrNull "required" members).isPresent⟩
  | _ => return none

/-- A parameter after following references: its name and location, its members, and the last
reference that led to it. -/
structure Parameter where
  name : Text
  location : Text
  members : Members
  ref : Option Text

/-- The parameter that a value describes, if it has a name. -/
def Parameter.of? : Value × Option Text → Option Parameter
  | (.object members, ref) =>
    (Members.field? "name" members).map fun name =>
      ⟨name.display, ((Members.field? "in" members).getD (.text "")).display, members, ref⟩
  | _ => none

/-- Add a parameter; one of the same name and location is replaced in its place. -/
def Parameter.insert (p : Parameter) : List Parameter → List Parameter
  | [] => [p]
  | q :: rest =>
    if p.name = q.name ∧ p.location = q.location then p :: rest else q :: p.insert rest

/-- Parameters in order of first occurrence, later ones replacing earlier ones. -/
def mergeParameters (values : List (Value × Option Text)) : List Parameter :=
  (values.filterMap Parameter.of?).foldl (fun all p => p.insert all) []

/-- The schema of a parameter: its own, or that of its content, or the schema of everything. -/
def Parameter.schema (p : Parameter) : Value :=
  match p.members.field? "schema" with
  | some schema => schema
  | none =>
    match mediaSchemas (p.members.fieldOrNull "content") with
    | [] => .bool true
    | schemas => oneOf schemas

/-- Declare a parameter. One that is shared between operations is put aside under the last segment
of the reference that led to it, unless its schema is a reference already. -/
def declareParameter (setting : Setting) (operation : Operation) (p : Parameter) :
    Compile Input := do
  let parts : List Text := ["Parameters", p.name]
  match p.ref with
  | some ref =>
    if (p.members.fieldOrNull "schema").hasField "$ref" then
      declare setting operation parts p.schema
    else
      match (Pointer.split ref).getLast? with
      | none => throw (.malformed .noSegments)
      | some key =>
        modify fun state => { state with scratch := state.scratch.addParameter key p.schema }
        declare setting operation parts (Scratch.reference [Scratch.parametersKey, key])
  | none => declare setting operation parts p.schema
  return ⟨p.name, parts, (p.members.fieldOrNull "required").isPresent⟩

/-- The parameters that a value lists; a missing or empty one lists none. -/
def listed (value : Value) : Except Fault (List Value) :=
  Fault.ofMalformed (value.orElse (.list [])).items

/-- Declare the parameters of a path and of an operation on it, which override the former. -/
def compileParameters (setting : Setting) (operation : Operation) (shared own : Value) :
    Compile (List Input) := do
  let values := (← listed shared) ++ (← listed own)
  let resolved ← values.mapM (resolveChain setting operation.place)
  (mergeParameters resolved).mapM (declareParameter setting operation)

/-- A header of a response that has a schema. -/
structure Header where
  name : Scalar
  schema : Value
  required : Bool

/-- A response with content. -/
structure Response where
  status : Text
  headers : List Header

/-- The parts that name the declaration of a response. -/
def Response.parts (status : Text) : List Text := ["Responses", "$" ++ status]

/-- The header that a value describes, if it has a schema. -/
def Header.of? (name : Scalar) : Value → Option Header
  | .object members =>
    (Members.field? "schema" members).map fun schema =>
      ⟨name, schema, (Members.fieldOrNull "required" members).isPresent⟩
  | _ => none

/-- The headers of a response that have a schema. -/
def compileHeaders (setting : Setting) (operation : Operation) (headers : Value) :
    Compile (List Header) := do
  match headers with
  | .object members =>
    let resolved ← members.mapM fun (name, value) => do
      return Header.of? name (← resolveChain setting operation.place value).1
    return resolved.filterMap id
  | _ => return []

/-- Declare a response, if it has any schema. -/
def compileResponse (setting : Setting) (operation : Operation) (status : Text) (value : Value) :
    Compile (Option Response) := do
  match (← resolveChain setting operation.place value).1 with
  | .object members =>
    match mediaSchemas (Members.fieldOrNull "content" members) with
    | [] => return none
    | schemas =>
      modify fun state =>
        { state with scratch := state.scratch.addResponse operation.id status schemas }
      let headers ← compileHeaders setting operation (Members.fieldOrNull "headers" members)
      declare setting operation (Response.parts status)
        (oneOf (numberedReferences [Scratch.responsesKey, operation.id, "Response" ++ status]
          "Schema" schemas.length))
      return some ⟨status, headers⟩
  | _ => return none

/-- Declare the responses of an operation. -/
def compileResponses (setting : Setting) (operation : Operation) (responses : Value) :
    Compile (List Response) := do
  match responses with
  | .object members =>
    let compiled ← members.mapM fun (code, value) =>
      compileResponse setting operation code.display value
    return compiled.filterMap id
  | _ => return []

/-- The record of the inputs of an operation. -/
def inputType (setting : Setting) (operation : Operation) (inputs : List Input) :
    Except Fault TypeExpr := do
  let fields ← inputs.mapM fun input => do
    let type ← (setting.scope operation).reference (setting.segments operation input.parts)
    return (⟨.text (Name.camelCase input.name), type, input.required, true⟩ : Field TypeExpr)
  return .object fields none

/-- The name of a header as a field. -/
def headerName : Scalar → Except Fault Text
  | .text s => .ok (Name.camelCase s)
  | _ => .error (.malformed .nameNotText)

/-- The key of the pattern that stands for all other headers. -/
def headerPattern : Text := "/a-z0-9/"

/-- The schema of all other headers: a text or a list of texts. -/
def headerValue : Value :=
  oneOf [.record [("type", .text "string")],
    .record [("type", .text "array"), ("items", .record [("type", .text "string")])]]

/-- The schema of the headers of a response. -/
def headersSchema (headers : List Header) : Except Fault Value := do
  let required ← (headers.filter (·.required)).mapM fun header => headerName header.name
  let properties ← headers.mapM fun header => do
    return (Scalar.text (← headerName header.name), header.schema)
  return .record [("type", .text "object"), ("required", .texts required),
    ("properties", .object (Members.insertAll [] properties)),
    ("patternProperties", .record [(headerPattern, headerValue)])]

/-- The schema of a status: its code, or any number if it is no numeral. -/
def statusSchema (status : Text) : Except Fault Value := do
  match (← Fault.ofMalformed (numeral? status)) with
  | some code => return .record [("const", .int code)]
  | none => return .record [("type", .text "number")]

/-- The variant of a response. -/
def variant (setting : Setting) (operation : Operation) (response : Response) :
    Compile TypeExpr := do
  let scope := setting.scope operation
  let statusTypes := Schema.types scope (← statusSchema response.status)
  let headersTypes := Schema.types scope (← headersSchema response.headers)
  let status ← build statusTypes
  let headers ← build headersTypes
  let body ← scope.reference (setting.segments operation (Response.parts response.status))
  return .object
    [⟨.text "status", .unionOf status, true, true⟩,
     ⟨.text "headers", .unionOf headers, response.headers.any (·.required), true⟩,
     ⟨.text "body", body, true, true⟩] none

/-- The variants of the responses that take part in the output. -/
def variants (setting : Setting) (operation : Operation) : List Response → Compile (List TypeExpr)
  | [] => return []
  | response :: rest => do
    if (← Fault.ofMalformed (setting.options.includes response.status)) then
      let first ← variant setting operation response
      let others ← variants setting operation rest
      return first :: others
    else variants setting operation rest

/-- The union of the variants of the responses, or anything if there is none. -/
def outputType (setting : Setting) (operation : Operation) (responses : List Response) :
    Compile TypeExpr := do
  match (← variants setting operation responses) with
  | [] => return .any
  | members => return .union members

/-- An operation id that differs from those given out for the same text before, by a number from
two on, together with the counts. -/
def uniqueId (id : Text) : List (Text × Nat) → Text × List (Text × Nat)
  | [] => (id, [(id, 1)])
  | (other, count) :: rest =>
    if other = id then (id ++ "_" ++ toString (count + 1), (other, count + 1) :: rest)
    else
      let (unique, counts) := uniqueId id rest
      (unique, (other, count) :: counts)

/-- The id that an operation asks for, or one made from its method and path. -/
def requestedId (method path : Text) (operation : Members) : Text :=
  let given := operation.fieldOrNull "operationId"
  if given.isPresent then given.display else Name.slug (method ++ "_" ++ path) "operation"

/-- Declare an operation. -/
def compileOperation (setting : Setting) (path method : Text) (pathItem operation : Members) :
    Compile Unit := do
  let (id, ids) := uniqueId (requestedId method path operation) (← get).ids
  modify fun state => { state with ids }
  let op : Operation := ⟨id, method.toUpper ++ " " ++ path⟩
  let body ← compileBody setting op (operation.fieldOrNull "requestBody")
  let parameters ← compileParameters setting op
    (pathItem.fieldOrNull "parameters") (operation.fieldOrNull "parameters")
  let responses ← compileResponses setting op
    ((operation.fieldOrNull "responses").orElse (.object []))
  let input ← inputType setting op (body.toList ++ parameters)
  addEntry op ["Input"] ⟨.text "Input", input, true⟩
  let output ← outputType setting op responses
  addEntry op ["Output"] ⟨.text "Output", output, true⟩

end SchemaTypes.Api
