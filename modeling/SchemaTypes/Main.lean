import SchemaTypes.Command.Run
import SchemaTypes.Document.Yaml.Read

/-!
# The command

Reads the document, prints the generated source or writes it to a file, and reports failures on
the error stream. Texts of the system have no surrogates.
-/

namespace SchemaTypes

open Command

/-- The string of the system for a text, where every surrogate is replaced. -/
def systemString (s : Text) : String :=
  String.ofList (s.toList.map fun c => match c with | .scalar c => c | .surrogate _ => '\ufffd')

/-- The cause of a refused file operation of the system. -/
def fileCause : IO.Error → FileCause
  | .alreadyExists .. => .alreadyExists
  | .inappropriateType _ code _ => if code = 21 then .isDirectory else .notDirectory
  | .invalidArgument _ code _ => if code = 36 then .nameTooLong else .notFound
  | _ => .notFound

/-- Try an operation on a file of the system. -/
def tryFile {α : Type} (path : Path) (action : IO α) : IO (Except FileFault α) := do
  if !path.isEncodable then return .error .unencodable
  if path.hasNull then return .error .nullInPath
  try
    return .ok (← action)
  catch error => return .error (.refused ⟨fileCause error, path⟩)

/-- Read a file of the system. -/
def readSystemFile (path : Path) : IO (Except FileFault Bytes) :=
  tryFile path do return (← IO.FS.readBinFile (systemString path.toText)).toList

/-- Write a file of the system and make the directories it is in. -/
def writeSystemFile (path : Path) (text : Text) : IO (Except FileFault Unit) := do
  match (← tryFile path.parent (IO.FS.createDirAll (systemString path.parent.toText))) with
  | .error fault => return .error fault
  | .ok () =>
    match Text.encodeUtf8? text.toList with
    | none => return .error .unencodable
    | some content =>
      tryFile path (IO.FS.writeBinFile (systemString path.toText) ⟨content.toArray⟩)

/-- End with a message on the error stream. -/
def endWith (message : Text) (code : UInt32) : IO UInt32 := do
  IO.eprintln (systemString message)
  return code

/-- How the command is used. -/
def usage : Text :=
  "usage: document [--name NAME] [--openapi | --jsonschema] [--filter-status CODE] " ++
    "[--generate-unused-schemas] [--output FILE]"

/-- End the way a run of the command ended. -/
def endAs : Outcome → IO UInt32
  | .printed text => do
    IO.print (systemString text)
    return 0
  | .usage => endWith usage 2
  | .failed message => endWith message 1
  | .malformed cause => endWith ("Malformed: " ++ cause.words) 1

/-- Run an invocation on the files of the system. -/
def runOnSystem (inv : Invocation) : IO UInt32 := do
  match produce Yaml.read inv (← readSystemFile inv.documentPath) with
  | .error fault => endAs (.ofFault fault)
  | .ok product =>
    match inv.output with
    | .console => endAs (.printed product.source)
    | .missing => endAs (.malformed .missingOutput)
    | .file output =>
      let path := Path.ofText output
      match (← writeSystemFile path product.source) with
      | .error fault => endAs (.ofFileFault fault)
      | .ok () => endAs (.printed (report inv path product))

end SchemaTypes

/-- Generate declarations for the document named on the command line. -/
def main (arguments : List String) : IO UInt32 :=
  match SchemaTypes.Command.Invocation.ofArguments (arguments.map .ofString) with
  | none => SchemaTypes.endAs .usage
  | some inv => SchemaTypes.runOnSystem inv
