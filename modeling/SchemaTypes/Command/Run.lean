import SchemaTypes.Api.Compile
import SchemaTypes.Command.Arguments
import SchemaTypes.Command.Load
import SchemaTypes.Namespace.Source
import SchemaTypes.Schema.Compile

/-!
# Running the command

A document is an API document if it says so, or if the caller says so, and a schema document
otherwise.

The source is produced before anything is written: a document that cannot be loaded, compiled or
printed leaves all files as they are. With an output path the source goes there and a report is
printed; without one the source itself is printed. Directories that are made for a file stay if the
file cannot be written.
-/

namespace SchemaTypes

/-- Whether a document says that it is an API document. -/
def isApiDocument (document : Value) : Except Malformed Bool := document.contains (.text "openapi")

/-- The declarations of a document of a given kind, or of the kind it says. A name that is empty or
missing leaves the choice to the document. -/
def generate (document : Value) (isApi : Option Bool) (name : Value) (options : Api.Options) :
    Except Fault Namespace := do
  let api ← match isApi with
    | some given => pure given
    | none => Fault.ofMalformed (isApiDocument document)
  if api then Api.compile .standard document (name.orElse Api.defaultBase) options
  else Schema.compile .standard document name

namespace Command

/-- The line above generated source. -/
def header : Text := "// Auto-generated by schema_typegen. Do not edit manually."

/-- Generated source and the number of declarations in it. -/
structure Product where
  source : Text
  count : Nat

/-- The codes of a list of statuses, none of which may be left out. -/
def statusCodes : List (Option Int) → Except Malformed (List Int)
  | [] => .ok []
  | none :: _ => .error .missingStatus
  | some code :: rest => do return code :: (← statusCodes rest)

/-- The options of an invocation. Without any status there is no filter. -/
def Invocation.options (inv : Invocation) : Except Malformed Api.Options := do
  let codes ← statusCodes inv.statuses
  return ⟨if codes.isEmpty then none else some codes, inv.unused⟩

/-- The path of the document of an invocation. -/
def Invocation.documentPath (inv : Invocation) : Path := .ofText (inv.document.getD "")

/-- The declarations for an invocation, given what reading the document came to. -/
def Invocation.tree (yaml : YamlReader) (inv : Invocation) (content : Except FileFault Bytes) :
    Except Fault Namespace := do
  let options ← Fault.ofMalformed inv.options
  let document ← load yaml inv.documentPath content
  let name := (inv.name.map Value.text).getD .null
  generate document inv.isApi name options

/-- Generate source for an invocation, given what reading the document came to. -/
def produce (yaml : YamlReader) (inv : Invocation) (content : Except FileFault Bytes) : Except Fault Product := do
  let tree ← inv.tree yaml content
  let source ← Fault.ofMalformed (tree.source? header)
  return ⟨source, tree.entries.length⟩

/-- The report on source written to a file. -/
def report (inv : Invocation) (output : Path) (product : Product) : Text :=
  "Generated " ++ toString product.count ++ " declaration(s) from " ++ inv.documentPath.toText ++
    " -> " ++ output.toText ++ "\n"

/-- How a run of the command ended. -/
inductive Outcome where
  /-- It printed a text. -/
  | printed (text : Text)
  /-- The arguments are wrong. -/
  | usage
  /-- It failed with a message. -/
  | failed (message : Text)
  /-- The document is malformed. -/
  | malformed (cause : Malformed)

/-- The message of the command for a failure. -/
def errorText (message : Text) : Text := "Error: " ++ message

/-- How a run ends with a fault. -/
def Outcome.ofFault : Fault → Outcome
  | .schema fault path => .failed (errorText (fault.message path))
  | .malformed cause => .malformed cause

/-- How a run ends that cannot write its output. -/
def Outcome.ofFileFault : FileFault → Outcome
  | .refused refusal => .failed (errorText refusal.message)
  | .unencodable => .malformed .unencodable
  | .nullInPath => .malformed .nullInPath

/-- Run an invocation on files. -/
def Invocation.run (yaml : YamlReader) (inv : Invocation) (files : Files) : Outcome × Files :=
  match produce yaml inv (files.read inv.documentPath) with
  | .error fault => (.ofFault fault, files)
  | .ok product =>
    match inv.output with
    | .console => (.printed product.source, files)
    | .missing => (.malformed .missingOutput, files)
    | .file output =>
      let path := Path.ofText output
      match files.writeWithin path product.source with
      | (.error fault, made) => (.ofFileFault fault, made)
      | (.ok (), written) => (.printed (report inv path product), written)

/-- Run the command on files. -/
def run (yaml : YamlReader) (files : Files) (arguments : List Text) : Outcome × Files :=
  match Invocation.ofArguments arguments with
  | none => (.usage, files)
  | some inv => inv.run yaml files

end Command

end SchemaTypes
