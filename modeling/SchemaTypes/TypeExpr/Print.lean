import SchemaTypes.TypeExpr.Basic

/-!
# The text of a type expression

Types are printed as TypeScript. An object type takes one line for each member, indented by its
nesting depth; every other type stays on the line it starts on. Parentheses keep a union or an
intersection apart from the intersection, the array or the type of its own kind that it stands in.

A property name stands bare if it is a name of letters, digits, underscores and dollar signs, and
quoted otherwise. A property name or a part of a reference that is no text cannot be printed, nor can
a literal that holds an integer with too many digits, and a type with any of them is refused.
-/

namespace SchemaTypes

/-- Characters that a bare property name may start with. -/
def isNameStart (c : CodePoint) : Bool := c.isAlpha || c = '_' || c = '$'

/-- Characters that a bare property name may continue with. -/
def isNamePart (c : CodePoint) : Bool := isNameStart c || c.isDigit

/-- Whether only bare name characters follow, and then at most one line feed. -/
def isNameTail : List CodePoint → Bool
  | [] => true
  | ['\n'] => true
  | c :: rest => isNamePart c && isNameTail rest

/-- Whether a property name stands bare. -/
def isBareName : List CodePoint → Bool
  | [] => false
  | c :: rest => isNameStart c && isNameTail rest

/-- A property name as it is printed. -/
def propertyName (s : Text) : Text := if isBareName s.toList then s else Text.quote s

/-- The indentation of a nesting depth; there is none below zero. -/
def indentation (level : Int) : Text := Text.repeated level.toNat "    "

namespace TypeExpr

/-- Put a text between parentheses on a condition. -/
def parenthesized (when : Bool) (s : Text) : Text := if when then "(" ++ s ++ ")" else s

/-- The text before the name of a member. -/
def modifier (readOnly : Bool) : Text := if readOnly then "readonly " else ""

/-- The name of a field as it is printed, with a mark if the field may be missing. -/
def fieldName (name : Scalar) (required : Bool) : Text :=
  (match name with
    | .text s => propertyName s
    | s => s.jsonKey) ++ if required then "" else "?"

/-- The members of an object type, one to a line, between braces. -/
def block (members : List Text) (level : Int) : Text :=
  match members with
  | [] => "\x7b\x7d"
  | _ =>
    "\x7b\n" ++ Text.joinWith "\n" (members.map (indentation (level + 1) ++ ·)) ++ "\n" ++
      indentation level ++ "\x7d"

mutual

/-- The text of a type at a nesting depth. -/
def print : TypeExpr → Int → Text
  | keyword name, _ => name
  | literal value, _ => value.json
  | nonNull inner, level => "NonNullable<" ++ print inner level ++ ">"
  | array item, level => parenthesized item.isCompound (print item level) ++ "[]"
  | object fields index, level =>
    block (printFields fields (level + 1) ++ printIndex index (level + 1)) level
  | reference parts, _ => qualifiedName parts
  | union members, level => Text.joinWith " | " (printUnion members level)
  | intersection members, level => Text.joinWith " & " (printIntersection members level)

/-- The lines of the fields of an object type. -/
def printFields : List (Field TypeExpr) → Int → List Text
  | [], _ => []
  | ⟨name, type, required, readOnly⟩ :: rest, level =>
    (modifier readOnly ++ fieldName name required ++ ": " ++ print type level ++ ";") ::
      printFields rest level

/-- The line of the index signature of an object type. -/
def printIndex : Option (IndexSignature TypeExpr) → Int → List Text
  | none, _ => []
  | some ⟨type, _, readOnly, key⟩, level =>
    [modifier readOnly ++ "[" ++ key ++ ": string]: " ++ print type level ++ ";"]

/-- The members of a union: only a union among them needs parentheses. -/
def printUnion : List TypeExpr → Int → List Text
  | [], _ => []
  | t :: rest, level => parenthesized t.isUnion (print t level) :: printUnion rest level

/-- The members of an intersection: unions and intersections among them need parentheses. -/
def printIntersection : List TypeExpr → Int → List Text
  | [], _ => []
  | t :: rest, level => parenthesized t.isCompound (print t level) :: printIntersection rest level

end

/-- Whether the name of a field is text. -/
def hasTextName (name : Scalar) : Bool :=
  match name with
  | .text _ => true
  | _ => false

mutual

/-- What keeps a type from being printed, the first in the order of the text. -/
def obstacle? : TypeExpr → Option Malformed
  | keyword _ => none
  | literal value => if value.isOverlong then some .overlongInteger else none
  | nonNull inner => obstacle? inner
  | array item => obstacle? item
  | object fields index => (obstacleFields? fields).or (obstacleIndex? index)
  | reference parts => if parts.all Value.isText then none else some .unprintableName
  | union members => obstacleAll? members
  | intersection members => obstacleAll? members

/-- What keeps a list of fields from being printed. -/
def obstacleFields? : List (Field TypeExpr) → Option Malformed
  | [] => none
  | ⟨name, type, _, _⟩ :: rest =>
    if hasTextName name then (obstacle? type).or (obstacleFields? rest) else some .unprintableName

/-- What keeps an index signature from being printed. -/
def obstacleIndex? : Option (IndexSignature TypeExpr) → Option Malformed
  | none => none
  | some ⟨type, _, _, _⟩ => obstacle? type

/-- What keeps a list of types from being printed. -/
def obstacleAll? : List TypeExpr → Option Malformed
  | [] => none
  | t :: rest => (obstacle? t).or (obstacleAll? rest)

end

/-- Whether a type can be printed. -/
def printable (t : TypeExpr) : Bool := t.obstacle?.isNone

/-- The text of a type at a nesting depth, unless something in it cannot be printed. -/
def print? (t : TypeExpr) (level : Int) : Except Malformed Text :=
  match t.obstacle? with
  | none => .ok (t.print level)
  | some cause => .error cause

end TypeExpr

end SchemaTypes
