import SchemaTypes.Document.Malformed
import SchemaTypes.Number.Double
import SchemaTypes.Text.Join

/-!
# Document values

A document is a tree of scalars, lists and objects. The members of an object keep the order in
which they were written, and their keys are scalars: text in most documents, though keys may also
be numbers, booleans or null.

Scalars are the same when they are equal as numbers, booleans counting as zero and one, or equal
as text. An object has at most one member for each key in this sense. Lists are the same item by
item, and objects member by member in any order.
-/

namespace SchemaTypes

/-- A value without parts. -/
inductive Scalar where
  | null
  | bool (b : Bool)
  | int (n : Int)
  | float (x : Double)
  | text (s : Text)
deriving DecidableEq

/-- A document or a part of one. -/
inductive Value where
  | scalar (s : Scalar)
  | list (items : List Value)
  | object (members : List (Scalar × Value))

instance : Inhabited Value := ⟨.scalar .null⟩

/-- The members of an object in order. -/
abbrev Members := List (Scalar × Value)

namespace Scalar

/-- The place of a number or boolean on the extended line. -/
def extended? : Scalar → Option Extended
  | bool b => some (.scaled (if b then 1 else 0) 0)
  | int n => some (.scaled n 0)
  | float x => x.extended?
  | _ => none

/-- Whether two scalars are the same key. -/
def same : Scalar → Scalar → Bool
  | null, null => true
  | text s, text t => s = t
  | float .nan, float .nan => true
  | a, b =>
    match a.extended?, b.extended? with
    | some x, some y => x.order y = .eq
    | _, _ => false

/-- Whether a scalar is the given text. -/
def isText (name : Text) : Scalar → Bool
  | text s => s = name
  | _ => false

/-- Whether a scalar is a number; booleans are none. -/
def isNumber : Scalar → Bool
  | int _ => true
  | float _ => true
  | _ => false

/-- Whether a scalar counts as present: null, false, zero and the empty text do not. -/
def isPresent : Scalar → Bool
  | null => false
  | bool b => b
  | int n => n ≠ 0
  | float x => !x.isZero
  | text s => s ≠ ""

end Scalar

namespace Members

/-- The value of the member with the given key. -/
def get? (key : Scalar) : Members → Option Value
  | [] => none
  | (k, v) :: rest => if key.same k then some v else get? key rest

/-- The value of the member with the given name. -/
def field? (name : Text) : Members → Option Value
  | [] => none
  | (k, v) :: rest => if k.isText name then some v else field? name rest

/-- The value of the member with the given name, or null where there is none. -/
def fieldOrNull (name : Text) (members : Members) : Value :=
  (members.field? name).getD (.scalar .null)

/-- Whether there is a member with the given name. -/
def has (name : Text) (members : Members) : Bool := (members.field? name).isSome

/-- Set the value for a key: in place if the key is there, at the end otherwise. -/
def insert (key : Scalar) (value : Value) : Members → Members
  | [] => [(key, value)]
  | (k, v) :: rest => if key.same k then (k, value) :: rest else (k, v) :: insert key value rest

/-- Add members one after the other. -/
def insertAll (members added : Members) : Members :=
  added.foldl (fun all member => all.insert member.1 member.2) members

end Members

namespace Value

/-- The null value. -/
abbrev null : Value := scalar .null

/-- A boolean value. -/
abbrev bool (b : Bool) : Value := scalar (.bool b)

/-- An integer value. -/
abbrev int (n : Int) : Value := scalar (.int n)

/-- A text value. -/
abbrev text (s : Text) : Value := scalar (.text s)

/-- An object with named members. -/
def record (members : List (Text × Value)) : Value :=
  object (members.map fun member => (.text member.1, member.2))

/-- A list of texts. -/
def texts (items : List Text) : Value := list (items.map text)

/-- Whether a value counts as present: absent scalars and empty lists and objects do not. -/
def isPresent : Value → Bool
  | scalar s => s.isPresent
  | list items => !items.isEmpty
  | object members => !members.isEmpty

/-- The value itself if it is present, and the other one otherwise. -/
def orElse (value other : Value) : Value := if value.isPresent then value else other

/-- Whether a value is null. -/
def isNull : Value → Bool
  | scalar .null => true
  | _ => false

/-- Whether a value is text. -/
def isText : Value → Bool
  | scalar (.text _) => true
  | _ => false

mutual

/-- Whether two values are the same. -/
def same : Value → Value → Bool
  | scalar a, scalar b => a.same b
  | list as, list bs => sameItems as bs
  | object as, object bs => as.length = bs.length && sameMembers as bs
  | _, _ => false

/-- Whether two lists have the same items in the same order. -/
def sameItems : List Value → List Value → Bool
  | [], [] => true
  | a :: as, b :: bs => same a b && sameItems as bs
  | _, _ => false

/-- Whether every member has a counterpart of the same key and value. -/
def sameMembers : List (Scalar × Value) → List (Scalar × Value) → Bool
  | [], _ => true
  | (k, v) :: rest, others =>
    (match Members.get? k others with
      | some w => same v w
      | none => false) && sameMembers rest others

end

/-- Whether a value is an object with a member of the given name. -/
def hasField (name : Text) : Value → Bool
  | object ms => Members.has name ms
  | _ => false

/-- The members of an object. -/
def members : Value → Except Malformed Members
  | object ms => .ok ms
  | _ => .error .notObject

/-- The items of a value: a list's own, a text's characters, an object's keys. -/
def items : Value → Except Malformed (List Value)
  | list vs => .ok vs
  | scalar (.text s) => .ok (s.toList.map fun c => text (Text.singleton c))
  | object ms => .ok (ms.map fun member => scalar member.1)
  | _ => .error .notIterable

/-- Whether a scalar is among the items of a list, the keys of an object or the parts of a text. -/
def contains (container : Value) (s : Scalar) : Except Malformed Bool :=
  match container with
  | list vs => .ok (vs.any fun v => match v with | scalar t => s.same t | _ => false)
  | object ms => .ok (ms.any fun member => s.same member.1)
  | scalar (.text whole) =>
    match s with
    | .text part => .ok (Text.hasInfix part.toList whole.toList)
    | _ => .error .notContainer
  | _ => .error .notContainer

/-- The key and the value that a pair of items stands for. -/
def pair (item : Value) : Except Malformed (Scalar × Value) := do
  match (← item.items) with
  | [scalar key, value] => .ok (key, value)
  | [_, _] => .error .compoundKey
  | _ => .error .notPairs

/-- The members of an object, or those that the pairs of any other sequence stand for. -/
def toMembers : Value → Except Malformed Members
  | object ms => .ok ms
  | value => do return Members.insertAll [] (← (← value.items).mapM pair)

end Value

end SchemaTypes
