import SchemaTypes.Namespace.Basic
import SchemaTypes.Text.Blank
import SchemaTypes.Text.Join
import SchemaTypes.TypeExpr.Print

/-!
# Source text

The source of a namespace lists its declarations and then the namespaces inside it, each as a
block. The text of a block is trimmed and indented as a whole, line by line, so it does not matter
how its lines came about.
-/

namespace SchemaTypes

/-- The statement of a declaration. -/
def Declaration.print (d : Declaration) : Text :=
  (if d.exported then "export" else "declare") ++ " type " ++ d.name.display ++ " = " ++
    d.type.print 0 ++ ";"

/-- What keeps a declaration from being printed: its name, or something in its type. -/
def Declaration.obstacle? (d : Declaration) : Option Malformed :=
  if d.name.isOverlong then some .overlongInteger else d.type.obstacle?

/-- The statement of a declaration, unless something in it cannot be printed. -/
def Declaration.print? (d : Declaration) : Except Malformed Text :=
  match d.obstacle? with
  | none => .ok d.print
  | some cause => .error cause

namespace Namespace

/-- Indent every line but empty ones after the first. -/
def indentRest : List (List CodePoint) → List Text
  | [] => []
  | line :: rest =>
    (if line.isEmpty then "" else "    " ++ Text.ofList line) :: indentRest rest

/-- The lines of a block, the first indented even if it is empty and every other one unless it is
empty. -/
def indentLines : List (List CodePoint) → List Text
  | [] => []
  | line :: rest => ("    " ++ Text.ofList line) :: indentRest rest

/-- The text of a block without blanks around it, indented by one step. -/
def indentBlock (s : Text) : Text :=
  Text.joinWith "\n" (indentLines (Text.lines (Text.trim s.toList ++ [('\n' : CodePoint)])))

/-- The line that opens a namespace. -/
def opening (outermost : Bool) (name : Text) : Text :=
  (if outermost then "declare" else "export") ++ " namespace " ++ name ++ " \x7b\n"

mutual

/-- The text of the declarations and namespaces inside a namespace. -/
def body (outermost : Bool) : Namespace → Text
  | ⟨_, declarations, children⟩ =>
    Text.joinWith "" (declarations.map fun d => d.print ++ "\n") ++ blocks outermost children

/-- The blocks of a list of namespaces. -/
def blocks (outermost : Bool) : List Namespace → Text
  | [] => ""
  | node :: rest =>
    opening outermost node.name.display ++ indentBlock (body false node) ++ "\n\x7d\n" ++
      blocks outermost rest

end

mutual

/-- What keeps the declarations and namespaces inside a namespace from being printed, the first in the
order of the text. -/
def obstacle? : Namespace → Option Malformed
  | ⟨_, declarations, children⟩ => (declarations.findSome? Declaration.obstacle?).or (obstacleAll? children)

/-- What keeps a list of namespaces from being printed. -/
def obstacleAll? : List Namespace → Option Malformed
  | [] => none
  | node :: rest =>
    if node.name.isOverlong then some .overlongInteger else (obstacle? node).or (obstacleAll? rest)

end

/-- Whether everything inside a namespace can be printed. -/
def printable (node : Namespace) : Bool := node.obstacle?.isNone

/-- The source text of a namespace, with a header above it unless the header is empty. -/
def source (header : Text) (node : Namespace) : Text :=
  (if header = "" then "" else header ++ "\n\n" : Text) ++
    Text.ofList (Text.trim (body true node).toList) ++ "\n"

/-- The source text of a namespace, unless something in it cannot be printed. -/
def source? (header : Text) (node : Namespace) : Except Malformed Text :=
  match node.obstacle? with
  | none => .ok (node.source header)
  | some cause => .error cause

end Namespace

end SchemaTypes
