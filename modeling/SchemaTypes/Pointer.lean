import SchemaTypes.Document.Value
import SchemaTypes.Text.Digit

/-!
# Pointers into a document

A reference addresses a part of a document by its path: `#` followed by segments, each after a
slash. A segment writes `~1` for a slash and `~0` for a tilde, and empty segments do not count, so
one path has many spellings. Joining the segments gives the canonical one.

Following a path steps from an object to the member with the segment as its name and from a list
to the item at that position. Positions are texts that hold digits only. A text with any other
character is no numeral, while a numeral with a digit outside every decimal system is malformed.
-/

namespace SchemaTypes

/-- The number that a text made of digits stands for. -/
def numeral? (s : Text) : Except Malformed (Option Nat) :=
  if Text.isNumeral s.toList then
    match Text.readDecimals? s.toList with
    | some n => .ok (some n)
    | none => .error .unplacedDigit
  else .ok none

namespace Pointer

/-- Read the escapes of a segment. -/
def unescape : List CodePoint → List CodePoint
  | [] => []
  | '~' :: '1' :: rest => '/' :: unescape rest
  | '~' :: '0' :: rest => '~' :: unescape rest
  | c :: rest => c :: unescape rest

/-- Write a segment with escapes. -/
def escape : List CodePoint → List CodePoint
  | [] => []
  | c :: rest =>
    if c = '~' then '~' :: '0' :: escape rest
    else if c = '/' then '~' :: '1' :: escape rest
    else c :: escape rest

/-- Drop the leading anchor. -/
def dropAnchor : List CodePoint → List CodePoint
  | '#' :: rest => rest
  | cs => cs

/-- The segments of a reference. -/
def split (ref : Text) : List Text :=
  ((Text.splitAt '/' (dropAnchor ref.toList)).filter fun piece => !piece.isEmpty).map
    fun piece => Text.ofList (unescape piece)

/-- The canonical reference with the given segments. -/
def join (segments : List Text) : Text :=
  "#/" ++ Text.joinWith "/" (segments.map fun segment => Text.ofList (escape segment.toList))

/-- Whether a reference addresses the document it stands in. -/
def isLocal (ref : Text) : Bool := ref.toList.head? = some '#'

/-- The part of a value that one segment addresses, if there is one. -/
def step : Value → Value → Except Malformed (Option Value)
  | .object members, .scalar key => .ok (Members.get? key members)
  | .object _, _ => .error .compoundKey
  | .list items, .scalar (.text s) => do return (← numeral? s).bind fun n => items[n]?
  | .list _, _ => .error .segmentNotText
  | .scalar _, _ => .ok none

/-- The part of a value that a list of segments addresses, if there is one. -/
def follow (value : Value) : List Value → Except Malformed (Option Value)
  | [] => .ok (some value)
  | segment :: rest => do
    match (← step value segment) with
    | some part => follow part rest
    | none => return none

/-- The segments that a value stands for: those of a reference, or the items of any other value. -/
def segmentsOf : Value → Except Malformed (List Value)
  | .scalar (.text ref) => .ok ((split ref).map .text)
  | value => value.items

/-- The part of a document at a path, if there is one. -/
def find? (document : Value) (path : List Text) : Except Malformed (Option Value) :=
  follow document (path.map .text)

/-- The part of a document at a path; null counts as nothing. -/
def target? (document : Value) (path : List Text) : Except Malformed (Option Value) := do
  return (← find? document path).filter fun value => !value.isNull

end Pointer

end SchemaTypes
