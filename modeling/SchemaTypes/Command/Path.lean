import SchemaTypes.Text.Join

/-!
# File paths

A path is a root, empty for relative paths, and the names below it. Empty names and the name of
the current directory do not count; the name of the parent directory does, since it may not be
resolved without looking at the files.
-/

namespace SchemaTypes.Command

/-- A file path. -/
structure Path where
  root : Text
  names : List Text
deriving DecidableEq

namespace Path

/-- The root at the start of a path: two slashes are a root of their own. -/
def rootOf : List CodePoint → Text
  | '/' :: '/' :: '/' :: _ => "/"
  | '/' :: '/' :: _ => "//"
  | '/' :: _ => "/"
  | _ => ""

/-- Read a path. -/
def ofText (s : Text) : Path :=
  let names := (Text.splitAt '/' s.toList).filter fun name => !name.isEmpty && name ≠ [('.' : CodePoint)]
  ⟨rootOf s.toList, names.map Text.ofList⟩

/-- The text of a path; the current directory is a dot. -/
def toText (p : Path) : Text :=
  if p.root = "" ∧ p.names = [] then "." else p.root ++ Text.joinWith "/" p.names

/-- Whether a path starts at a root. -/
def isAbsolute (p : Path) : Bool := p.root ≠ ""

/-- Whether a path holds a null character, which no file name may. -/
def hasNull (p : Path) : Bool := p.names.any fun name => name.toList.contains '\x00'

/-- The number of bytes that a code point takes in a file name. A surrogate may stand for a byte
outside ASCII, and any other surrogate has no place in a file name. -/
def bytesOf? : CodePoint → Option Nat
  | .scalar c => some c.utf8Size
  | .surrogate n => if 0x480 ≤ n.val ∧ n.val < 0x500 then some 1 else none

/-- The number of bytes that a text takes in a file name. -/
def byteSize (s : Text) : Nat := s.toList.foldl (fun size c => size + (bytesOf? c).getD 0) 0

/-- Whether every code point of a path has a place in a file name. -/
def isEncodable (p : Path) : Bool := p.names.all fun name => name.toList.all fun c => (bytesOf? c).isSome

/-- The directory that a path is in. -/
def parent (p : Path) : Path := { p with names := p.names.dropLast }

/-- The part of a name from its last dot on, unless the dot is at either end. -/
def suffixOf (name : List CodePoint) : List CodePoint :=
  let extension := (name.reverse.takeWhile (· ≠ ('.' : CodePoint))).reverse
  if extension.isEmpty || name.length ≤ extension.length + 1 then [] else '.' :: extension

/-- The suffix of a path in lower case. -/
def suffix (p : Path) : Text :=
  Text.ofList ((suffixOf (p.names.getLastD "").toList).map CodePoint.toLower)

end Path

end SchemaTypes.Command
