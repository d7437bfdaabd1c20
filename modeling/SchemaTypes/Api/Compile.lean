import SchemaTypes.Api.Operation

/-!
# Compiling an API document

All operations are declared first, in document order. Then every schema they refer to is declared
from the overlay, and on demand every component schema that none of them reached.
-/

namespace SchemaTypes.Api

/-- The methods that denote operations of a path. -/
def methods : List Text :=
  ["get", "put", "post", "delete", "options", "head", "patch", "trace"]

/-- The base name of the declarations of operations if none is given. -/
def defaultBase : Value := .text "API"

/-- Declare the operations among the members of a path. -/
def compilePath (setting : Setting) (path : Text) (pathItem : Members) :
    List (Scalar × Value) → Compile Unit
  | [] => return ()
  | (.text method, .object operation) :: rest => do
    if methods.contains method then compileOperation setting path method pathItem operation
    compilePath setting path pathItem rest
  | _ :: rest => compilePath setting path pathItem rest

/-- Declare the operations of a list of paths. -/
def compilePaths (setting : Setting) : List (Scalar × Value) → Compile Unit
  | [] => return ()
  | (path, .object pathItem) :: rest => do
    compilePath setting path.display pathItem pathItem
    compilePaths setting rest
  | _ :: rest => compilePaths setting rest

/-- The paths of a document, which must be a mapping if there are any. -/
def paths (document : Members) : Except Fault Members :=
  match (document.fieldOrNull "paths").orElse (.object []) with
  | .object members => .ok members
  | _ => .error (.schema (.invalidField "must be a mapping" "paths") none)

/-- The names of all component schemas of a document. -/
def schemaNames (document : Members) : Except Malformed (List Value) := do
  let components ← ((document.fieldOrNull "components").orElse (.object [])).members
  ((components.fieldOrNull "schemas").orElse (.object [])).items

/-- The scope of declarations outside operations. -/
def Setting.outerScope (setting : Setting) : Scope := ⟨setting.naming, none, none⟩

/-- Discover component schemas by their names. -/
def discoverSchemas (setting : Setting) : List Value → Compile Unit
  | [] => return ()
  | .scalar (.text name) :: rest => do
    let ref := Pointer.join ["components", "schemas", name]
    let _ ← build (setting.outerScope.register (.text ref))
    discoverSchemas setting rest
  | _ :: _ => throw (.malformed .segmentNotText)

/-- Walk the operations of a document, and its component schemas on demand. -/
def walk (setting : Setting) : Compile Unit := do
  compilePaths setting (← paths setting.overlay.document)
  if setting.options.unused then
    discoverSchemas setting (← Fault.ofMalformed (schemaNames setting.overlay.document))

/-- The entry of an operation with its whole path. -/
def wholePath (base : Value) (entry : OperationEntry) : Entry :=
  ⟨base :: (entry.operation :: entry.parts).map .text, entry.declaration⟩

/-- The entries of a document: those of its operations, then those of the schemas they reach. -/
def entries (setting : Setting) : Except Fault (List Entry) := do
  let ((), state) ← (walk setting).run ⟨.empty, .empty, [], []⟩
  let resolution : Resolution := ⟨state.discovery, [], none⟩
  let document := setting.overlay.value state.scratch
  let resolved ← ((Resolution.resolve document setting.outerScope).run resolution).1
  return state.entries.map (wholePath setting.base) ++ resolved

/-- The declarations of an API document under a base name. -/
def compile (naming : Naming) (document base : Value) (options : Options) :
    Except Fault Namespace := do
  let overlay ← Fault.ofMalformed (Overlay.ofDocument document)
  let setting : Setting := ⟨overlay, naming, base, options⟩
  Fault.ofMalformed (Namespace.assemble naming (← entries setting))

end SchemaTypes.Api
