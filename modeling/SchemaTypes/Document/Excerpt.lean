import SchemaTypes.Document.Json
import SchemaTypes.Text.Inspect

/-!
# Values in diagnostics

Diagnostics show a value on one line. An excerpt is the sorted JSON text of the value, or its
diagnostic text if some object has keys that cannot be sorted, cut to a fixed length.
-/

namespace SchemaTypes

namespace Scalar

/-- A scalar as diagnostics show it. -/
def inspect : Scalar → Text
  | null => "None"
  | bool b => if b then "True" else "False"
  | int n => toString n
  | float x => x.text Double.plainSpelling
  | text s => Text.inspect s

/-- A scalar as part of a message or a name: text stands for itself. -/
def display : Scalar → Text
  | text s => s
  | s => s.inspect

end Scalar

namespace Value

mutual

/-- A value as diagnostics show it. -/
def inspect : Value → Text
  | scalar s => s.inspect
  | list items => bracketed (inspectItems items)
  | object members => braced (inspectMembers members)

/-- The items of a list as diagnostics show them. -/
def inspectItems : List Value → List Text
  | [] => []
  | v :: rest => inspect v :: inspectItems rest

/-- The members of an object as diagnostics show them. -/
def inspectMembers : List (Scalar × Value) → List Text
  | [] => []
  | (k, v) :: rest => (k.inspect ++ ": " ++ inspect v) :: inspectMembers rest

end

/-- A value as part of a message or a name: text stands for itself. -/
def display : Value → Text
  | scalar s => s.display
  | v => v.inspect

/-- The greatest length of an excerpt. -/
def excerptLimit : Nat := 120

/-- Cut a text that is over the limit and mark the cut. -/
def cutExcerpt (s : Text) : Text :=
  if excerptLimit < s.length then Text.ofList (s.toList.take (excerptLimit - 3)) ++ "..." else s

/-- A value on one line of limited length. -/
def excerpt (v : Value) : Text := cutExcerpt (v.sortedJson?.getD v.inspect)

end Value

end SchemaTypes
