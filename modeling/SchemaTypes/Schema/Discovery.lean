import SchemaTypes.Fault
import SchemaTypes.Naming
import SchemaTypes.Pointer
import SchemaTypes.TypeExpr.Basic

/-!
# Discovered references

While types are built, every reference to another part of the document is remembered under its
canonical spelling, once, in the order of first sight. It stays pending until it is declared.

Building is a computation over this state that may stop with a fault. The state survives a fault:
what was discovered before it stays discovered.
-/

namespace SchemaTypes

/-- What building depends on but never changes: how identifiers are made, the name of the root
declaration if there is one, and the place that faults are reported at. -/
structure Scope where
  naming : Naming
  rootName : Option Value
  path : Option Text

/-- The references met so far by canonical spelling, with their segments, and those not yet
declared. -/
structure Discovery where
  found : List (Text × List Text)
  pending : List Text

namespace Discovery

/-- Nothing discovered. -/
def empty : Discovery := ⟨[], []⟩

/-- The segments of a discovered reference. -/
def segments? (d : Discovery) (key : Text) : Option (List Text) :=
  (d.found.find? fun entry => entry.1 = key).map (·.2)

/-- Remember a path, unless it is known. -/
def add (d : Discovery) (segments : List Text) : Discovery :=
  let key := Pointer.join segments
  match d.segments? key with
  | some _ => d
  | none => ⟨d.found ++ [(key, segments)], d.pending ++ [key]⟩

end Discovery

/-- A computation that may discover references and may stop with a fault. -/
abbrev Build := ExceptT Fault (StateM Discovery)

/-- What a reference addresses: the document itself, under the name of the root declaration, or the
part at a path. -/
inductive Target where
  | root (name : Value)
  | path (segments : List Text)

/-- The segments that a target is named by. -/
def Target.segments : Target → List Value
  | root name => [name]
  | path segments => segments.map .text

namespace Scope

/-- The scope with another place for faults. -/
def reportingAt (scope : Scope) (place : Option Text) : Scope := { scope with path := place }

/-- A fault at the current place. -/
def fault (scope : Scope) (cause : SchemaFault) : Fault := .schema cause scope.path

/-- Make an identifier from a name. -/
def identify (scope : Scope) (name : Value) : Except Fault Value :=
  Fault.ofMalformed (scope.naming.apply name)

/-- The reference to the declaration at a path. -/
def reference (scope : Scope) (segments : List Value) : Except Fault TypeExpr := do
  return .reference (← Fault.ofMalformed (scope.naming.applyAll segments))

/-- The schema that consists of a reference. -/
def referring (ref : Value) : Value := .record [("$ref", ref)]

/-- The fault of a reference that cannot be followed. -/
def refused (scope : Scope) (ref : Value) (reason : Text) : Fault :=
  scope.fault (.unsupportedSchema (referring ref) reason)

/-- The document itself as what a reference addresses, if it has a name. -/
def rootTarget (scope : Scope) (ref : Value) : Except Fault Target :=
  match scope.rootName with
  | some name => .ok (.root name)
  | none => .error (scope.refused ref "no root declaration to refer to")

/-- What a reference addresses, which must be inside the document. -/
def target (scope : Scope) (ref : Value) : Except Fault Target :=
  match ref with
  | .scalar (.text s) =>
    if Pointer.isLocal s then
      match Pointer.split s with
      | [] => scope.rootTarget ref
      | segments => .ok (.path segments)
    else .error (scope.refused ref "external references are not supported")
  | _ => .error (scope.refused ref "external references are not supported")

/-- Find what a reference addresses and remember it, unless it is the document itself. -/
def register (scope : Scope) (ref : Value) : Build Target := do
  let target ← scope.target ref
  match target with
  | .root _ => pure ()
  | .path segments => modify (·.add segments)
  return target

end Scope

end SchemaTypes
