import SchemaTypes.Naming
import SchemaTypes.TypeExpr.Basic

/-!
# Declarations and namespaces

A declaration names a type. Declarations are grouped into nested namespaces; the outermost one has
the empty name and holds the top-level declarations. An entry is a declaration with its path: all
but the last segment of the path name the namespaces it belongs to.
-/

namespace SchemaTypes

/-- A named type. A declaration that is not exported is ambient: it stands at the top level. -/
structure Declaration where
  name : Value
  type : TypeExpr
  exported : Bool

/-- Whether a declaration is ambient. -/
def Declaration.ambient (d : Declaration) : Bool := !d.exported

/-- A namespace with its own declarations and the namespaces inside it. -/
structure Namespace where
  name : Value
  declarations : List Declaration
  children : List Namespace

/-- A declaration and the path it is declared at. -/
structure Entry where
  path : List Value
  declaration : Declaration

namespace Namespace

/-- A namespace that holds nothing. -/
def empty (name : Value) : Namespace := ⟨name, [], []⟩

/-- The first namespace of the given name directly inside. -/
def child? (node : Namespace) (name : Value) : Option Namespace :=
  node.children.find? fun child => child.name.same name

/-- The first namespace at a path of names. -/
def descend? (node : Namespace) : List Value → Option Namespace
  | [] => some node
  | name :: rest =>
    match node.child? name with
    | some child => child.descend? rest
    | none => none

/-- The first declaration of the given name in the namespace at a path. -/
def findIn? (node : Namespace) (path : List Value) (name : Value) : Option Declaration :=
  (node.descend? path).bind fun inner => inner.declarations.find? fun d => d.name.same name

/-- The declaration with the given qualified name, which must have at least one part. -/
def find? (node : Namespace) (parts : List Value) : Except Malformed (Option Declaration) :=
  match parts.getLast? with
  | some name => .ok (node.findIn? parts.dropLast name)
  | none => .error .emptyLookup

/-- Extend a path by a namespace name; one that does not count as present adds nothing. -/
def extendPath (path : List Value) (name : Value) : List Value :=
  if name.isPresent then path ++ [name] else path

mutual

/-- Every declaration with its namespace path, the namespace's own before those further in. -/
def entriesUnder : List Value → Namespace → List (List Value × Declaration)
  | path, ⟨name, declarations, children⟩ =>
    declarations.map (fun d => (extendPath path name, d)) ++
      entriesUnderAll (extendPath path name) children

/-- The declarations of several namespaces in order. -/
def entriesUnderAll : List Value → List Namespace → List (List Value × Declaration)
  | _, [] => []
  | path, node :: rest => entriesUnder path node ++ entriesUnderAll path rest

end

/-- Every declaration with its namespace path, in the order of the source. -/
def entries (node : Namespace) : List (List Value × Declaration) := entriesUnder [] node

/-- Change the first namespace of the given name, or add one at the end and change it. -/
def updateChild (name : Value) (change : Namespace → Namespace) :
    List Namespace → List Namespace
  | [] => [change (empty name)]
  | child :: rest =>
    if child.name.same name then change child :: rest else child :: updateChild name change rest

/-- Add a declaration to the namespace at a path, making the namespaces that are missing. -/
def insertAt (d : Declaration) : List Value → Namespace → Namespace
  | [], node => { node with declarations := node.declarations ++ [d] }
  | name :: rest, node => { node with children := updateChild name (insertAt d rest) node.children }

/-- Add an entry, its namespaces named by the identifiers of its path. -/
def insert (naming : Naming) (node : Namespace) (entry : Entry) : Except Malformed Namespace := do
  return insertAt entry.declaration (← naming.applyAll entry.path.dropLast) node

/-- Group entries into namespaces in order of arrival. -/
def assemble (naming : Naming) (entries : List Entry) : Except Malformed Namespace :=
  entries.foldlM (insert naming) (empty (.text ""))

end Namespace

end SchemaTypes
