import SchemaTypes.Document.Value
import SchemaTypes.Name

/-!
# Naming

Declarations and namespaces take their names from path segments, from titles and from the caller.
These are texts in almost every document. A naming says which identifier a text becomes, and what
becomes of a name that is no text, if it is not refused.
-/

namespace SchemaTypes

/-- How identifiers are made from names. -/
structure Naming where
  ofText : Text → Text
  ofOther : Value → Except Malformed Value

namespace Naming

/-- The naming of generated source: texts become identifiers, everything else is refused. -/
def standard : Naming := ⟨Name.identifier, fun _ => .error .nameNotText⟩

/-- The identifier made from a name. -/
def apply (naming : Naming) : Value → Except Malformed Value
  | .scalar (.text s) => .ok (.text (naming.ofText s))
  | other => naming.ofOther other

/-- The identifiers made from several names; the first name that is refused counts. -/
def applyAll (naming : Naming) : List Value → Except Malformed (List Value)
  | [] => .ok []
  | name :: rest => do
    let identifier ← naming.apply name
    let identifiers ← naming.applyAll rest
    return identifier :: identifiers

end Naming

end SchemaTypes
