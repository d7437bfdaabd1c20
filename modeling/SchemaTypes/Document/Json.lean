import SchemaTypes.Document.Value
import SchemaTypes.Number.Shortest
import SchemaTypes.Text.Escape

/-!
# The JSON text of a value

Values are written on one line with a blank after every comma and colon. Object keys are written
as quoted text, whatever scalars they are. An integer with too many digits is never written to
generated source: a value that holds one is overlong. The sorted text orders the members of every object by
key; it exists only if the keys of each object are comparable, all text or all numbers.
-/

namespace SchemaTypes

namespace Scalar

/-- The text of a scalar. -/
def json : Scalar → Text
  | null => "null"
  | bool b => if b then "true" else "false"
  | int n => toString n
  | float x => x.text Double.sourceSpelling
  | text s => Text.quote s

/-- The text of a scalar used as a key. -/
def jsonKey : Scalar → Text
  | text s => Text.quote s
  | s => Text.quote s.json

/-- The greatest number of digits of an integer in generated source. -/
def digitLimit : Nat := 4300

/-- Whether a scalar is an integer with too many digits. -/
def isOverlong : Scalar → Bool
  | int n => Nat.pow 10 digitLimit ≤ n.natAbs
  | _ => false

/-- Whether a list of keys can be sorted. -/
def comparable (keys : List Scalar) : Bool :=
  keys.length ≤ 1 || keys.all (fun k => match k with | text _ => true | _ => false) ||
    keys.all fun k => k.extended?.isSome

/-- The order in which comparable keys are sorted. -/
def precedes : Scalar → Scalar → Bool
  | text s, text t => s ≤ t
  | a, b =>
    match a.extended?, b.extended? with
    | some x, some y => x.order y ≠ .gt
    | _, _ => true

end Scalar

namespace Value

/-- A list of texts as the items of a list. -/
def bracketed (items : List Text) : Text := "[" ++ Text.joinWith ", " items ++ "]"

/-- A list of texts as the members of an object. -/
def braced (members : List Text) : Text := "\x7b" ++ Text.joinWith ", " members ++ "\x7d"

mutual

/-- The text of a value. -/
def json : Value → Text
  | scalar s => s.json
  | list items => bracketed (jsonItems items)
  | object members => braced (jsonMembers members)

/-- The texts of the items of a list. -/
def jsonItems : List Value → List Text
  | [] => []
  | v :: rest => json v :: jsonItems rest

/-- The texts of the members of an object. -/
def jsonMembers : List (Scalar × Value) → List Text
  | [] => []
  | (k, v) :: rest => (k.jsonKey ++ ": " ++ json v) :: jsonMembers rest

end

mutual

/-- Whether a value holds an integer with too many digits. -/
def isOverlong : Value → Bool
  | scalar s => s.isOverlong
  | list items => isOverlongItems items
  | object members => isOverlongMembers members

/-- Whether a list of values holds an integer with too many digits. -/
def isOverlongItems : List Value → Bool
  | [] => false
  | v :: rest => isOverlong v || isOverlongItems rest

/-- Whether some members of an object hold an integer with too many digits. -/
def isOverlongMembers : List (Scalar × Value) → Bool
  | [] => false
  | (k, v) :: rest => k.isOverlong || isOverlong v || isOverlongMembers rest

end

mutual

/-- The text of a value with the members of every object sorted by key. -/
def sortedJson? : Value → Option Text
  | scalar s => some s.json
  | list items => (sortedItems? items).map bracketed
  | object members =>
    if Scalar.comparable (members.map (·.1)) then
      (sortedMembers? members).map fun texts =>
        braced ((texts.mergeSort fun a b => a.1.precedes b.1).map (·.2))
    else none

/-- The sorted texts of the items of a list. -/
def sortedItems? : List Value → Option (List Text)
  | [] => some []
  | v :: rest =>
    match sortedJson? v, sortedItems? rest with
    | some s, some texts => some (s :: texts)
    | _, _ => none

/-- The keys of the members of an object with the texts of the members. -/
def sortedMembers? : List (Scalar × Value) → Option (List (Scalar × Text))
  | [] => some []
  | (k, v) :: rest =>
    match sortedJson? v, sortedMembers? rest with
    | some s, some texts => some ((k, k.jsonKey ++ ": " ++ s) :: texts)
    | _, _ => none

end

end Value

end SchemaTypes
