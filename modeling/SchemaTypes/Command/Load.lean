import SchemaTypes.Command.Files
import SchemaTypes.Document.Json.Read
import SchemaTypes.Fault
import SchemaTypes.Text.Join
import SchemaTypes.Text.Utf8

/-!
# Loading a document

The content of a file is UTF-8 text with any of the common line ends. Its suffix tells whether it
holds YAML; all other files hold JSON. The document must be a mapping.

How YAML is read is up to the caller.
-/

namespace SchemaTypes.Command

/-- A way to read YAML. -/
abbrev YamlReader := List CodePoint → Except Yaml.ReadFault Value

/-- Why a document could not be loaded. -/
inductive LoadCause where
  | file (refusal : Refusal)
  | yaml (reason : Text)
  | json (text : List CodePoint) (fault : Json.ReadFault)
  | notMapping

/-- The words for a cause. -/
def LoadCause.words : LoadCause → Text
  | file refusal => "Failed to read schema file: " ++ refusal.message
  | yaml reason => "Invalid YAML: " ++ reason
  | json text fault => "Invalid JSON: " ++ fault.message text
  | notMapping => "Schema root must be a mapping"

/-- The fault of a document that could not be loaded from a path. -/
def unloadable (path : Path) (cause : LoadCause) : Fault :=
  .schema (.unreadable cause.words) (some path.toText)

/-- Whether a path is that of a YAML file. -/
def isYaml (path : Path) : Bool := path.suffix = ".yml" || path.suffix = ".yaml"

/-- Read the text of a document. -/
def parse (yaml : YamlReader) (path : Path) (text : List CodePoint) : Except Fault Value :=
  if isYaml path then
    match yaml text with
    | .ok value => .ok value
    | .error (.invalid reason) => .error (unloadable path (.yaml reason))
    | .error (.malformed cause) => .error (.malformed cause)
  else
    match Json.read text with
    | .ok value => .ok value
    | .error fault => .error (unloadable path (.json text fault))

/-- Require a value to be a mapping. -/
def requireMapping (path : Path) : Value → Except Fault Value
  | .object members => .ok (.object members)
  | _ => .error (unloadable path .notMapping)

/-- The document in a file of the given content. -/
def loadContent (yaml : YamlReader) (path : Path) (content : Bytes) : Except Fault Value := do
  match Text.decodeUtf8? content with
  | none => throw (.malformed .invalidEncoding)
  | some text => requireMapping path (← parse yaml path (Text.unifyLineEnds text))

/-- The document in a file, given what reading the file came to. -/
def load (yaml : YamlReader) (path : Path) : Except FileFault Bytes → Except Fault Value
  | .ok content => loadContent yaml path content
  | .error (.refused refusal) => .error (unloadable path (.file refusal))
  | .error .unencodable => .error (.malformed .unencodable)
  | .error .nullInPath => .error (.malformed .nullInPath)

end SchemaTypes.Command
