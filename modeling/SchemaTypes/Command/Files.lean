import SchemaTypes.Command.Path
import SchemaTypes.Text.Inspect
import SchemaTypes.Text.Utf8

/-!
# Files

The files and directories around a working directory, as far as reading, writing and making
directories can tell. A place is the list of names that leads there without detours, from the
working directory or from the root; above the working directory it starts with the name of the
parent directory. The root and all directories above the working directory are there, and nothing
else is known to be in them.

The system limits the length of a name and of a whole path, both counted in bytes.
-/

namespace SchemaTypes.Command

/-- Why the system refuses a file operation. -/
inductive FileCause where
  | notFound
  | alreadyExists
  | notDirectory
  | isDirectory
  | nameTooLong
deriving DecidableEq

/-- The number and the words of a cause. -/
def FileCause.words : FileCause → Text
  | notFound => "[Errno 2] No such file or directory"
  | alreadyExists => "[Errno 17] File exists"
  | notDirectory => "[Errno 20] Not a directory"
  | isDirectory => "[Errno 21] Is a directory"
  | nameTooLong => "[Errno 36] File name too long"

/-- A refused file operation: the cause and the path it was for. -/
structure Refusal where
  cause : FileCause
  path : Path

/-- The message for a refused file operation. -/
def Refusal.message (r : Refusal) : Text :=
  r.cause.words ++ ": " ++ Text.inspect r.path.toText

/-- Why a file operation failed. -/
inductive FileFault where
  /-- The system refused it. -/
  | refused (refusal : Refusal)
  /-- The path or the text holds a surrogate that stands for no byte. -/
  | unencodable
  /-- The path holds a null character, so the system was not even asked. -/
  | nullInPath

/-- The content of a file. -/
abbrev Bytes := List UInt8

/-- Where a file or a directory is. -/
structure Place where
  fromRoot : Bool
  names : List Text
deriving DecidableEq

namespace Place

/-- The place that a path starts at. -/
def startOf (path : Path) : Place := ⟨path.isAbsolute, []⟩

/-- Whether a place is the root, the working directory or above it. -/
def isAbove (place : Place) : Bool :=
  if place.fromRoot then place.names.isEmpty else place.names.all (· = "..")

/-- The place that a name leads to from a directory. The root is its own parent. -/
def enter (place : Place) (name : Text) : Place :=
  if name ≠ ".." then { place with names := place.names ++ [name] }
  else if !place.isAbove then { place with names := place.names.dropLast }
  else if place.fromRoot then place
  else { place with names := place.names ++ [name] }

end Place

/-- Files by place, and the places of directories. -/
structure Files where
  contents : List (Place × Bytes)
  directories : List Place

namespace Files

/-- What is at a place. -/
inductive Node where
  | file (content : Bytes)
  | directory
  | nothing

/-- The greatest length of a name in bytes. -/
def nameLimit : Nat := 255

/-- The greatest length of a path in bytes. -/
def pathLimit : Nat := 4095

/-- Look at a place. -/
def node (files : Files) (place : Place) : Node :=
  match files.contents.find? fun file => file.1 = place with
  | some (_, content) => .file content
  | none => if place.isAbove || files.directories.contains place then .directory else .nothing

/-- Follow names from a place, through directories only, to the place of the last one. -/
def locateFrom (files : Files) (place : Place) : List Text → Except FileCause Place
  | [] => .ok place
  | name :: rest =>
    match files.node place with
    | .directory =>
      if nameLimit < Path.byteSize name then .error .nameTooLong
      else files.locateFrom (place.enter name) rest
    | .file _ => .error .notDirectory
    | .nothing => .error .notFound

/-- The place of a path. -/
def locate (files : Files) (path : Path) : Except FileFault Place :=
  if !path.isEncodable then .error .unencodable
  else if path.hasNull then .error .nullInPath
  else if pathLimit < Path.byteSize path.toText then .error (.refused ⟨.nameTooLong, path⟩)
  else
    match files.locateFrom (.startOf path) path.names with
    | .ok place => .ok place
    | .error cause => .error (.refused ⟨cause, path⟩)

/-- Read a file. -/
def read (files : Files) (path : Path) : Except FileFault Bytes := do
  match files.node (← files.locate path) with
  | .file content => .ok content
  | .directory => .error (.refused ⟨.isDirectory, path⟩)
  | .nothing => .error (.refused ⟨.notFound, path⟩)

/-- Set the content at a place. -/
def put (place : Place) (content : Bytes) : List (Place × Bytes) → List (Place × Bytes)
  | [] => [(place, content)]
  | (p, c) :: rest => if p = place then (p, content) :: rest else (p, c) :: put place content rest

/-- Write a text to a file, which may exist. A text without an encoding is not written at all. -/
def write (files : Files) (path : Path) (text : Text) : Except FileFault Files := do
  let place ← files.locate path
  match files.node place with
  | .directory => .error (.refused ⟨.isDirectory, path⟩)
  | _ =>
    match Text.encodeUtf8? text.toList with
    | some content => .ok { files with contents := put place content files.contents }
    | none => .error .unencodable

/-- Whether a path is a directory. -/
def isDirectory (files : Files) (path : Path) : Bool :=
  match files.locate path with
  | .ok place => match files.node place with
    | .directory => true
    | _ => false
  | .error _ => false

/-- Make one directory. -/
def makeDirectory (files : Files) (path : Path) : Except FileFault Files := do
  let place ← files.locate path
  match files.node place with
  | .nothing => .ok { files with directories := files.directories ++ [place] }
  | _ => .error (.refused ⟨.alreadyExists, path⟩)

/-- Accept that a directory could not be made if it is there. -/
def unlessThere (files : Files) (path : Path) (fault : FileFault) : Except FileFault Unit :=
  if files.isDirectory path then .ok () else .error fault

/-- Whether a file operation failed because something is not there. -/
def isNotFound : FileFault → Bool
  | .refused refusal => refusal.cause = .notFound
  | _ => false

/-- Make a directory and at most `depth` of those it is in, unless they are there. The directories
that are made before one cannot be made stay. -/
def makeDirectories (files : Files) (path : Path) : Nat → Except FileFault Unit × Files
  | 0 =>
    match files.makeDirectory path with
    | .ok made => (.ok (), made)
    | .error fault => (files.unlessThere path fault, files)
  | depth + 1 =>
    match files.makeDirectory path with
    | .ok made => (.ok (), made)
    | .error fault =>
      if isNotFound fault && path.names ≠ [] then
        match files.makeDirectories path.parent depth with
        | (.error fault, above) => (.error fault, above)
        | (.ok (), above) =>
          match above.makeDirectory path with
          | .ok made => (.ok (), made)
          | .error fault =>
            (if isNotFound fault then .error fault else above.unlessThere path fault, above)
      else (files.unlessThere path fault, files)

/-- Write a file and make the directories it is in, which stay if it cannot be written. -/
def writeWithin (files : Files) (path : Path) (text : Text) : Except FileFault Unit × Files :=
  match files.makeDirectories path.parent path.names.length with
  | (.error fault, made) => (.error fault, made)
  | (.ok (), made) =>
    match made.write path text with
    | .error fault => (.error fault, made)
    | .ok written => (.ok (), written)

/-- Add a file below the working directory and the directories it is in. -/
def add (files : Files) (names : List Text) (content : Bytes) : Files :=
  let above := (List.range names.length).map fun n => (⟨false, names.take n⟩ : Place)
  ⟨put ⟨false, names⟩ content files.contents,
    files.directories ++ above.filter fun place => !place.isAbove⟩

/-- No files. -/
def empty : Files := ⟨[], []⟩

end Files

end SchemaTypes.Command
