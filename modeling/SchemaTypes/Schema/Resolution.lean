import SchemaTypes.Schema.Types

/-!
# Declaring discovered references

Pending references are declared one after the other, first discovered first. Declaring one may
discover more, which queue up behind. A reference that was declared before is passed over, so
schemas that refer to themselves or to each other come to an end.

Faults are reported at the current place. While a reference is declared, this is the reference
itself; afterwards it is again what it was, whether or not the declaration failed.

Every pending reference was either pending at the start or is written somewhere in the document,
which bounds the number of steps.
-/

namespace SchemaTypes

namespace Value

mutual

/-- The number of references written inside a value. -/
def referenceCount : Value → Nat
  | scalar _ => 0
  | list items => referenceCountItems items
  | object members => referenceCountMembers members

/-- The number of references written inside a list of values. -/
def referenceCountItems : List Value → Nat
  | [] => 0
  | v :: rest => referenceCount v + referenceCountItems rest

/-- The number of references written as members or inside members. -/
def referenceCountMembers : List (Scalar × Value) → Nat
  | [] => 0
  | (k, v) :: rest =>
    (if k.isText "$ref" then 1 else 0) + referenceCount v + referenceCountMembers rest

end

end Value

/-- The state of declaring references: what is discovered, what was taken up for declaration, in
that order, and the current place. -/
structure Resolution where
  discovery : Discovery
  resolved : List Text
  place : Option Text

/-- A computation over this state that may stop with a fault. -/
abbrev Resolve := ExceptT Fault (StateM Resolution)

namespace Resolution

/-- Nothing discovered and nothing declared, at a place. -/
def emptyAt (place : Option Text) : Resolution := ⟨.empty, [], place⟩

/-- Nothing discovered and nothing declared, at no place. -/
def empty : Resolution := emptyAt none

/-- Take the first pending reference. -/
def pop : Resolve (Option Text) := do
  let state ← get
  match state.discovery.pending with
  | [] => return none
  | key :: rest =>
    set { state with discovery := { state.discovery with pending := rest } }
    return some key

/-- Build within the state, at the current place. -/
def build {α : Type} (scope : Scope) (action : Scope → Build α) : Resolve α :=
  ExceptT.mk fun state =>
    let (result, discovery) := (action (scope.reportingAt state.place)).run state.discovery
    (result, { state with discovery })

/-- Act at another place and come back, also after a fault. -/
def visit {α : Type} (place : Option Text) (action : Resolve α) : Resolve α :=
  ExceptT.mk fun state =>
    let (result, after) := action.run { state with place }
    (result, { after with place := state.place })

/-- Declare the part of a document that a discovered reference addresses. -/
def declare (document : Value) (scope : Scope) (key : Text) : Resolve Entry := do
  let state ← get
  set { state with resolved := state.resolved ++ [key] }
  match state.discovery.segments? key with
  | none => throw (.malformed .undiscovered)
  | some path =>
    match (← Fault.ofMalformed (Pointer.target? document path)) with
    | none => throw ((scope.reportingAt state.place).fault (.unresolved key))
    | some schema =>
      let name := .text (path.getLastD "")
      let declaration ←
        visit (some key) (build scope fun scope => Schema.declare scope schema name (path.length = 1))
      return ⟨path.map .text, declaration⟩

/-- Declare pending references, at most `steps` of them. -/
def drain (document : Value) (scope : Scope) : Nat → Resolve (List Entry)
  | 0 => return []
  | steps + 1 => do
    match (← pop) with
    | none => return []
    | some key =>
      if (← get).resolved.contains key then drain document scope steps
      else
        let entry ← declare document scope key
        let entries ← drain document scope steps
        return entry :: entries

/-- Declare every pending reference and every reference discovered on the way. -/
def resolve (document : Value) (scope : Scope) : Resolve (List Entry) := do
  let state ← get
  drain document scope (state.discovery.pending.length + document.referenceCount + 1)

end Resolution

end SchemaTypes
