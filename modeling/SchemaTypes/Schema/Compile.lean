import SchemaTypes.Schema.Resolution

/-!
# Compiling a schema document

The document itself becomes an ambient declaration at the top level, and every schema it refers to
is declared in the namespaces of its path.
-/

namespace SchemaTypes

namespace Schema

/-- The name of the root declaration of a document that has neither a name nor a title. -/
def defaultRootName : Text := "Main"

/-- The name of the root declaration of a document. -/
def rootName (document name : Value) : Value :=
  name.orElse ((title document).orElse (.text defaultRootName))

/-- The root declaration of a document and the entries of everything it refers to. -/
def entries (naming : Naming) (document name : Value) :
    Resolve (Declaration × List Entry) := do
  let root := rootName document name
  let scope : Scope := ⟨naming, some root, none⟩
  let declaration ← Resolution.build scope fun scope => declare scope document root true
  let entries ← Resolution.resolve document scope
  return (declaration, entries)

/-- Put a declaration before all others of a namespace. -/
def withRoot (declaration : Declaration) (node : Namespace) : Namespace :=
  { node with declarations := declaration :: node.declarations }

/-- The declarations of a document under a name, or its title, or the default name. -/
def compile (naming : Naming) (document name : Value) : Except Fault Namespace := do
  let (root, entries) ← ((entries naming document name).run .empty).1
  return withRoot root (← Fault.ofMalformed (Namespace.assemble naming entries))

end Schema

end SchemaTypes
