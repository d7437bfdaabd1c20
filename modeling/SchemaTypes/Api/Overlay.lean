import SchemaTypes.Fault
import SchemaTypes.Pointer
import SchemaTypes.Schema.Resolution

/-!
# The overlay document

The schemas of request bodies, responses and shared parameters are put into a scratch area, so
that they are declared like every other schema: by a reference. The overlay is the document with
the scratch area added to its component schemas. The document itself stays as it is.

Following a chain of references through the overlay stops at the first value that is no reference
or whose reference was followed before.
-/

namespace SchemaTypes.Api

/-- The schemas put aside, by operation or by parameter. -/
structure Scratch where
  requestBodies : Members
  responses : Members
  parameters : Members

namespace Scratch

/-- Nothing put aside. -/
def empty : Scratch := ⟨[], [], []⟩

/-- The name of the part for request bodies among the component schemas. -/
def requestBodiesKey : Text := "__api_request_bodies"

/-- The name of the part for responses among the component schemas. -/
def responsesKey : Text := "__api_responses"

/-- The name of the part for shared parameters among the component schemas. -/
def parametersKey : Text := "__api_parameters"

/-- Change the object under a name, which is empty if there is none. -/
def updateObject (name : Text) (change : Members → Members) (members : Members) : Members :=
  match members.field? name with
  | some (.object inner) => members.insert (.text name) (.object (change inner))
  | _ => members.insert (.text name) (.object (change []))

/-- Put schemas under numbered names into an object. -/
def addNumbered (stem : Text) (schemas : List Value) (members : Members) : Members :=
  members.insertAll (schemas.zipIdx.map fun (schema, i) => (.text (stem ++ toString i), schema))

/-- Put the schemas of a request body aside. -/
def addBody (s : Scratch) (operation : Text) (schemas : List Value) : Scratch :=
  { s with requestBodies := updateObject operation (addNumbered "Body" schemas) s.requestBodies }

/-- Put the schemas of a response aside. -/
def addResponse (s : Scratch) (operation status : Text) (schemas : List Value) : Scratch :=
  let addVariants := updateObject ("Response" ++ status) (addNumbered "Schema" schemas)
  { s with responses := updateObject operation addVariants s.responses }

/-- Put the schema of a shared parameter aside. -/
def addParameter (s : Scratch) (key : Text) (schema : Value) : Scratch :=
  { s with parameters := s.parameters.insert (.text key) schema }

/-- The scratch area as members of the component schemas. -/
def members (s : Scratch) : Members :=
  [(.text requestBodiesKey, .object s.requestBodies), (.text responsesKey, .object s.responses),
   (.text parametersKey, .object s.parameters)]

/-- A schema that refers to a part of the scratch area. -/
def reference (path : List Text) : Value :=
  .record [("$ref", .text (Pointer.join ("components" :: "schemas" :: path)))]

end Scratch

/-- A document opened for the scratch area: its members, its components and its schemas. -/
structure Overlay where
  document : Members
  components : Members
  schemas : Members

namespace Overlay

/-- Open a document, whose components and schemas may be missing. -/
def ofDocument (document : Value) : Except Malformed Overlay := do
  let members ← document.members
  let components ← ((members.fieldOrNull "components").orElse (.object [])).toMembers
  let schemas ← ((components.fieldOrNull "schemas").orElse (.object [])).toMembers
  return ⟨members, components, schemas⟩

/-- The document with the scratch area added. -/
def value (o : Overlay) (scratch : Scratch) : Value :=
  let schemas := o.schemas.insertAll scratch.members
  let components := o.components.insert (.text "schemas") (.object schemas)
  .object (o.document.insert (.text "components") (.object components))

end Overlay

/-- The reference that a value consists of. -/
def reference? : Value → Option Value
  | .object members => Members.field? "$ref" members
  | _ => none

/-- Follow references, at most `steps` of them. `followed` lists those followed so far, latest
first; the last one is returned with the value it leads to. -/
def followChain (overlay : Value) (place : Option Text) :
    Nat → List Text → Value → Except Fault (Value × Option Text)
  | 0, followed, value => .ok (value, followed.head?)
  | steps + 1, followed, value =>
    match reference? value with
    | none => .ok (value, followed.head?)
    | some (.scalar (.text ref)) =>
      if followed.contains ref then .ok (value, followed.head?)
      else
        match Pointer.target? overlay (Pointer.split ref) with
        | .error cause => .error (.malformed cause)
        | .ok none => .error (.schema (.unresolved ref) place)
        | .ok (some next) => followChain overlay place steps (ref :: followed) next
    | some (.scalar _) => .error (.malformed .notIterable)
    | some _ => .error (.malformed .compoundKey)

/-- The value that a chain of references leads to, and the last reference of the chain. A chain
that comes back to a reference ends there, which bounds its length. -/
def dereference (overlay : Value) (place : Option Text) (value : Value) :
    Except Fault (Value × Option Text) :=
  followChain overlay place (overlay.referenceCount + 2) [] value

end SchemaTypes.Api
