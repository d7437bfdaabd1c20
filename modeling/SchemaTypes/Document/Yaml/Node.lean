import SchemaTypes.Document.Yaml.Scalar

/-!
# YAML nodes

A text is read as a tree of nodes, which tells plain scalars from quoted ones. The value of a node
follows from it: plain scalars stand for values of several kinds, quoted ones for text. The keys of
a mapping must be scalars; of several members with one key the last value counts, in the place of
the first.

A plain key may be a mark. The merge mark brings in the members of the mappings in its value,
before all others, so that they are overridden. The default mark is text as a key.

Nodes are valued level by level, the outer ones before what is nested in them. So of several faults
the one with the fewest collections around it counts, and of those on one level the first.
-/

namespace SchemaTypes.Yaml

/-- A part of a YAML text. -/
inductive Node where
  | plain (text : Text)
  | quoted (text : Text)
  | sequence (items : List Node)
  | mapping (members : List (Node × Node))

namespace Node

/-- A node that nothing is written for. -/
def empty : Node := plain ""

/-- Whether a node is the mark of a merge. -/
def isMerge : Node → Bool
  | plain s => s = mergeMark
  | _ => false

/-- The key that a node stands for. -/
def key : Node → Except ReadFault Scalar
  | plain s => if s = defaultMark then .ok (.text s) else plainScalar s
  | quoted s => .ok (.text s)
  | _ => .error notYaml

/-- A fault in a node, with the number of collections around it. -/
structure NestedFault where
  depth : Nat
  fault : ReadFault

/-- A result that may have a fault, inside one more collection. -/
def nested {α : Type} : Except NestedFault α → Except NestedFault α
  | .ok a => .ok a
  | .error ⟨depth, fault⟩ => .error ⟨depth + 1, fault⟩

/-- A result that may have a fault, with no collection around it. -/
def outermost {α : Type} : Except ReadFault α → Except NestedFault α
  | .ok a => .ok a
  | .error fault => .error ⟨0, fault⟩

/-- Combine two results. Of two faults the one on the outer level counts, and the first on one
level. -/
def combine {α β γ : Type} (f : α → β → γ) :
    Except NestedFault α → Except NestedFault β → Except NestedFault γ
  | .ok a, .ok b => .ok (f a b)
  | .error e, .ok _ => .error e
  | .ok _, .error e => .error e
  | .error e, .error e' => .error (if e'.depth < e.depth then e' else e)

/-- A member of a mapping, its key and its value each with the fault it may have. -/
abbrev Member : Type := Except NestedFault Scalar × Except NestedFault Value

/-- The members of a mapping, if none of them has a fault. -/
def members : List Member → Except NestedFault Members
  | [] => .ok []
  | (k, v) :: rest => combine List.cons (combine Prod.mk k v) (members rest)

mutual

/-- The value that a node stands for. -/
def value : Node → Except NestedFault Value
  | plain s => (outermost (plainScalar s)).map .scalar
  | quoted s => .ok (.text s)
  | sequence items => (nested (values items)).map .list
  | mapping pairs => nested do
    let (merged, own) ← membersOf pairs
    return .object (Members.insertAll [] (← members (merged ++ own)))

/-- The values that several nodes stand for. -/
def values : List Node → Except NestedFault (List Value)
  | [] => .ok []
  | node :: rest => combine List.cons (value node) (values rest)

/-- The members that a mapping brings in by merges, and its own. A merge that brings in no mapping
is a fault of the mapping itself. -/
def membersOf : List (Node × Node) → Except NestedFault (List Member × List Member)
  | [] => .ok ([], [])
  | (name, node) :: rest => do
    let (merged, own) ← membersOf rest
    if name.isMerge then return ((← broughtBy node) ++ merged, own)
    else return (merged, (outermost name.key, value node) :: own)

/-- The members that the value of a merge brings in: those of a mapping, or those of all mappings
in a sequence, where earlier mappings override later ones. -/
def broughtBy : Node → Except NestedFault (List Member)
  | mapping pairs => do
    let (merged, own) ← membersOf pairs
    return merged ++ own
  | sequence items => broughtByAll items
  | _ => outermost (.error notYaml)

/-- The members that the mappings of a sequence bring in, those of the last one first. -/
def broughtByAll : List Node → Except NestedFault (List Member)
  | [] => .ok []
  | mapping pairs :: rest => do
    let (merged, own) ← membersOf pairs
    return (← broughtByAll rest) ++ (merged ++ own)
  | _ :: _ => outermost (.error notYaml)

end

/-- Read the value that a node stands for. -/
def read (node : Node) : Except ReadFault Value :=
  match value node with
  | .ok v => .ok v
  | .error e => .error e.fault

end Node

end SchemaTypes.Yaml
