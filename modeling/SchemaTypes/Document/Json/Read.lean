import SchemaTypes.Document.Value

/-!
# Reading JSON

A text is read as one JSON value with nothing but blanks around it. Besides standard JSON the
three numbers without digits are accepted. A number with a fraction or an exponent is of double
precision, any other is an integer of any size. Of several members with one name the last value
counts, in the place of the first.

A text that is no JSON has one fault: what was expected or found wrong, and the position of it.
-/

namespace SchemaTypes.Json

/-- What is wrong with a text that is no JSON. -/
inductive Cause where
  | value
  | propertyName
  | colon
  | comma
  | unterminated
  | control
  | escape
  | unicodeEscape
  | extra
  | byteOrderMark
deriving DecidableEq

/-- What is wrong, in words. -/
def Cause.words : Cause → Text
  | value => "Expecting value"
  | propertyName => "Expecting property name enclosed in double quotes"
  | colon => "Expecting ':' delimiter"
  | comma => "Expecting ',' delimiter"
  | unterminated => "Unterminated string starting at"
  | control => "Invalid control character at"
  | escape => "Invalid \\escape"
  | unicodeEscape => "Invalid \\uXXXX escape"
  | extra => "Extra data"
  | byteOrderMark => "Unexpected UTF-8 BOM (decode using utf-8-sig)"

/-- A fault at a position, counted in characters from the start. -/
structure ReadFault where
  cause : Cause
  position : Nat

/-- The line and the column of a position, counted from the given ones at the start. -/
def lineColumn (line column : Nat) : List CodePoint → Nat → Nat × Nat
  | [], n => (line, column + n)
  | _, 0 => (line, column)
  | c :: rest, n + 1 =>
    if c = '\n' then lineColumn (line + 1) 1 rest n else lineColumn line (column + 1) rest n

/-- The message for a fault in a text. -/
def ReadFault.message (text : List CodePoint) (fault : ReadFault) : Text :=
  let (line, column) := lineColumn 1 1 text fault.position
  fault.cause.words ++ ": line " ++ toString line ++ " column " ++ toString column ++ " (char " ++
    toString fault.position ++ ")"

/-- What is left of a text, and the position it starts at. -/
structure Cursor where
  rest : List CodePoint
  position : Nat

/-- Fail at a position. -/
def failAt {α : Type} (cause : Cause) (position : Nat) : Except ReadFault α :=
  .error ⟨cause, position⟩

/-- Whether a character is blank between JSON tokens. -/
def isBlank (c : CodePoint) : Bool := c = ' ' || c = '\t' || c = '\n' || c = '\r'

/-- Go on by a number of characters. -/
def Cursor.skip (cursor : Cursor) (n : Nat) : Cursor :=
  ⟨cursor.rest.drop n, cursor.position + n⟩

/-- Pass over blanks. -/
def Cursor.skipBlanks (cursor : Cursor) : Cursor :=
  cursor.skip (cursor.rest.takeWhile isBlank).length

/-- The character that a short escape stands for. -/
def shortEscape? (c : CodePoint) : Option CodePoint :=
  if c = '"' then some '"'
  else if c = '\\' then some '\\'
  else if c = '/' then some '/'
  else if c = 'b' then some '\x08'
  else if c = 'f' then some '\x0c'
  else if c = 'n' then some '\n'
  else if c = 'r' then some '\r'
  else if c = 't' then some '\t'
  else none

/-- The value of a hexadecimal digit. -/
def hexValue? (c : CodePoint) : Option Nat :=
  if c.isDigit then some (c.toNat - 0x30)
  else if 'a' ≤ c ∧ c ≤ 'f' then some (c.toNat - 0x57)
  else if 'A' ≤ c ∧ c ≤ 'F' then some (c.toNat - 0x37)
  else none

/-- The value of four hexadecimal digits. -/
def unit? (a b c d : CodePoint) : Option Nat := do
  return (← hexValue? a) * 4096 + (← hexValue? b) * 256 + (← hexValue? c) * 16 + (← hexValue? d)

/-- Whether a UTF-16 unit is the first half of a pair. -/
def isHighUnit (n : Nat) : Bool := 0xd800 ≤ n && n < 0xdc00

/-- Whether a UTF-16 unit is the second half of a pair. -/
def isLowUnit (n : Nat) : Bool := 0xdc00 ≤ n && n < 0xe000

/-- The character of a pair of UTF-16 units. -/
def pairChar (high low : Nat) : CodePoint :=
  .ofNat (0x10000 + (high - 0xd800) * 0x400 + (low - 0xdc00))

/-- Whether a text has four characters and at least one more, of which the four are returned. -/
def fourOf : List CodePoint → Option (CodePoint × CodePoint × CodePoint × CodePoint)
  | a :: b :: c :: d :: _ :: _ => some (a, b, c, d)
  | _ => none

/-- The UTF-16 unit written by the first four characters of a text that goes on after them. -/
def unitOf (cs : List CodePoint) : Option Nat := do
  let (a, b, c, d) ← fourOf cs
  unit? a b c d

/-- The second half of a pair written as an escape at the start of a text. An escape that is no
hexadecimal number is a fault if the text goes on after it, and is left alone otherwise. -/
def lowUnitOf (position : Nat) : List CodePoint → Except ReadFault (Option Nat)
  | '\\' :: 'u' :: rest =>
    match fourOf rest with
    | none => .ok none
    | some (a, b, c, d) =>
      match unit? a b c d with
      | none => failAt .unicodeEscape (position + 1)
      | some low => .ok (if isLowUnit low then some low else none)
  | _ => .ok none

/-- The code point of an escape and the length of the escape. A surrogate that does not belong to a
pair stands for itself. The position is that of the backslash
and the text is what follows it; the quoted text started at `start`. -/
def readEscape (start position : Nat) : List CodePoint → Except ReadFault (CodePoint × Nat)
  | [] => failAt .unterminated start
  | 'u' :: rest =>
    match unitOf rest with
    | none => failAt .unicodeEscape (position + 1)
    | some unit =>
      if isHighUnit unit then do
        match (← lowUnitOf (position + 6) (rest.drop 4)) with
        | some low => return (pairChar unit low, 12)
        | none => return (.ofNat unit, 6)
      else .ok (.ofNat unit, 6)
  | c :: _ =>
    match shortEscape? c with
    | some d => .ok (d, 2)
    | none => failAt .escape position

/-- Read the rest of a quoted text that started at `start`. `sofar` holds the characters read,
latest first. The bound exceeds the number of characters left. -/
def readQuotedFrom (start : Nat) : Nat → Cursor → List CodePoint → Except ReadFault (Text × Cursor)
  | 0, _, _ => failAt .unterminated start
  | bound + 1, cursor, sofar =>
    match cursor.rest with
    | [] => failAt .unterminated start
    | '"' :: _ => .ok (Text.ofList sofar.reverse, cursor.skip 1)
    | '\\' :: escaped => do
      let (c, length) ← readEscape start cursor.position escaped
      readQuotedFrom start bound (cursor.skip length) (c :: sofar)
    | c :: _ =>
      if c < ' ' then failAt .control cursor.position
      else readQuotedFrom start bound (cursor.skip 1) (c :: sofar)

/-- Read a quoted text that starts at the cursor. -/
def readQuoted (cursor : Cursor) : Except ReadFault (Text × Cursor) :=
  readQuotedFrom cursor.position (cursor.rest.length + 1) (cursor.skip 1) []

/-- The number that a row of ASCII digits writes, continuing from the number read so far. -/
def digitsValue (sofar : Nat) (digits : List CodePoint) : Nat :=
  digits.foldl (fun n c => 10 * n + (c.toNat - 0x30)) sofar

/-- The digits of a fraction at the start of a text, with the point: none unless one follows it. -/
def fractionOf : List CodePoint → List CodePoint
  | '.' :: rest => rest.takeWhile CodePoint.isDigit
  | _ => []

/-- The exponent at the start of a text and its length: zero unless a digit follows its sign. -/
def exponentOf : List CodePoint → Int × Nat
  | e :: rest =>
    if e = 'e' ∨ e = 'E' then
      let (negative, signed, digits) := match rest with
        | '-' :: digits => (true, 1, digits)
        | '+' :: digits => (false, 1, digits)
        | digits => (false, 0, digits)
      let digits := digits.takeWhile CodePoint.isDigit
      if digits.isEmpty then (0, 0)
      else (Double.signed negative (digitsValue 0 digits), 1 + signed + digits.length)
    else (0, 0)
  | [] => (0, 0)

/-- The digits of the whole part of a number: a zero stands alone. -/
def wholeOf : List CodePoint → List CodePoint
  | '0' :: _ => ['0']
  | cs => cs.takeWhile CodePoint.isDigit

/-- Read a number. -/
def readNumber (cursor : Cursor) : Except ReadFault (Scalar × Cursor) :=
  let (negative, signed, unsigned) := match cursor.rest with
    | '-' :: rest => (true, 1, rest)
    | rest => (false, 0, rest)
  let whole := wholeOf unsigned
  if whole.isEmpty then failAt .value cursor.position
  else
    let afterWhole := unsigned.drop whole.length
    let fraction := fractionOf afterWhole
    let fractionLength := if fraction.isEmpty then 0 else fraction.length + 1
    let (exponent, exponentLength) := exponentOf (afterWhole.drop fractionLength)
    let after := cursor.skip (signed + whole.length + fractionLength + exponentLength)
    let digits := digitsValue 0 (whole ++ fraction)
    if fractionLength + exponentLength = 0 then .ok (.int (Double.signed negative digits), after)
    else .ok (.float (.ofDecimal negative digits (exponent - fraction.length)), after)

/-- The words that stand for scalars. -/
def wordScalars : List (Text × Scalar) :=
  [("null", .null), ("true", .bool true), ("false", .bool false), ("NaN", .float .nan),
   ("Infinity", .float (.infinite false)), ("-Infinity", .float (.infinite true))]

/-- Read a word or a number. -/
def readScalar (cursor : Cursor) : Except ReadFault (Value × Cursor) :=
  match wordScalars.find? fun word => word.1.toList.isPrefixOf cursor.rest with
  | some (word, s) => .ok (.scalar s, cursor.skip word.length)
  | none => do
    let (s, after) ← readNumber cursor
    return (.scalar s, after)

mutual

/-- Read a value that starts at the cursor. The bound on nested calls exceeds twice the number of
characters left. -/
def readValue : Nat → Cursor → Except ReadFault (Value × Cursor)
  | 0, cursor => failAt .value cursor.position
  | bound + 1, cursor =>
    match cursor.rest with
    | '"' :: _ => do
      let (s, after) ← readQuoted cursor
      return (.text s, after)
    | '[' :: _ =>
      let first := (cursor.skip 1).skipBlanks
      if first.rest.head? = some ']' then .ok (.list [], first.skip 1)
      else do
        let (items, after) ← readItems bound first
        return (.list items, after)
    | '\x7b' :: _ =>
      let first := (cursor.skip 1).skipBlanks
      if first.rest.head? = some '\x7d' then .ok (.object [], first.skip 1)
      else do
        let (members, after) ← readMembers bound first []
        return (.object members, after)
    | _ => readScalar cursor

/-- Read the items of a list from the first one on, and the end of the list. -/
def readItems : Nat → Cursor → Except ReadFault (List Value × Cursor)
  | 0, cursor => failAt .value cursor.position
  | bound + 1, cursor => do
    let (item, afterItem) ← readValue bound cursor
    let next := afterItem.skipBlanks
    match next.rest with
    | ']' :: _ => return ([item], next.skip 1)
    | ',' :: _ =>
      let (items, after) ← readItems bound (next.skip 1).skipBlanks
      return (item :: items, after)
    | _ => failAt .comma next.position

/-- Read the members of an object from the next one on, and the end of the object. `sofar` holds
the members before. -/
def readMembers : Nat → Cursor → Members → Except ReadFault (Members × Cursor)
  | 0, cursor, _ => failAt .propertyName cursor.position
  | bound + 1, cursor, sofar =>
    match cursor.rest with
    | '"' :: _ => do
      let (name, afterName) ← readQuoted cursor
      let colon := afterName.skipBlanks
      if colon.rest.head? ≠ some ':' then failAt .colon colon.position
      else
        let (value, afterValue) ← readValue bound (colon.skip 1).skipBlanks
        let members := sofar.insert (.text name) value
        let next := afterValue.skipBlanks
        match next.rest with
        | '\x7d' :: _ => return (members, next.skip 1)
        | ',' :: _ => readMembers bound (next.skip 1).skipBlanks members
        | _ => failAt .comma next.position
    | _ => failAt .propertyName cursor.position

end

/-- Read a whole text as one value. -/
def read (text : List CodePoint) : Except ReadFault Value :=
  match text with
  | '\ufeff' :: _ => failAt .byteOrderMark 0
  | _ => do
    let (value, after) ← readValue (2 * text.length + 2) (Cursor.skipBlanks ⟨text, 0⟩)
    let final := after.skipBlanks
    if final.rest.isEmpty then return value else failAt .extra final.position

end SchemaTypes.Json
