import SchemaTypes.Proofs.Text.Quote
import SchemaTypes.TypeExpr.Print

/-!
# Reading type expressions

The grammar of printed types. A union is a list of intersections between bars, an intersection a
list of operands between ampersands, and an operand a primary type with its pairs of brackets.
Primary types are keywords, literals, types marked as never null, dotted names, object types and
types between parentheses. A list of one type is that type, so only parentheses make a union or an
intersection a member of its own kind.

Blanks around the tokens of an object type are skipped. Its index signature stands last. The word
`readonly` before a member is a modifier unless it is itself the name of the member.

A reader takes the characters of a text and returns what it has read and what is left.
-/

namespace SchemaTypes

/-- Whether a code point is a blank. -/
def CodePoint.isWhitespace (c : CodePoint) : Bool := c.isIn Char.isWhitespace

namespace TypeExpr

/-- A reader of values from the front of a text. -/
abbrev Reader (α : Type) := List CodePoint → Option (α × List CodePoint)

/-- What follows a token at the front of a text. -/
def expect : List CodePoint → List CodePoint → Option (List CodePoint)
  | [], cs => some cs
  | _ :: _, [] => none
  | c :: token, d :: cs => if c = d then expect token cs else none

/-- Values between separators; the bound exceeds the number of separators. -/
def readSeparated {α : Type} (separator : List CodePoint) (item : Reader α) : Nat → Reader (List α)
  | 0, _ => none
  | bound + 1, cs => do
    let (a, rest) ← item cs
    match expect separator rest with
    | none => some ([a], rest)
    | some more =>
      let (as, rest) ← readSeparated separator item bound more
      some (a :: as, rest)

/-- A text without the blanks at its front. -/
def skipBlanks (cs : List CodePoint) : List CodePoint := cs.dropWhile CodePoint.isWhitespace

/-- Whether a word is an identifier. -/
def isIdentifier : List CodePoint → Bool
  | [] => false
  | c :: rest => isNameStart c && rest.all isNamePart

/-- An identifier and what follows it. -/
def readIdentifier (cs : List CodePoint) : Option (Text × List CodePoint) :=
  if isIdentifier (cs.takeWhile isNamePart) then
    some (Text.ofList (cs.takeWhile isNamePart), cs.dropWhile isNamePart)
  else none

/-- The types that are keywords. -/
def keywords : List Text := ["any", "never", "unknown", "boolean", "number", "string"]

/-- Whether a character belongs to a dotted name. -/
def isDottedPart (c : CodePoint) : Bool := isNamePart c || c = '.'

/-- The type that a word or a dotted name stands for. -/
def ofWord (word : List CodePoint) : Option TypeExpr :=
  if keywords.contains (Text.ofList word) then some (keyword (Text.ofList word))
  else if Text.ofList word = "null" then some (literal (.scalar .null))
  else if Text.ofList word = "true" then some (literal (.scalar (.bool true)))
  else if Text.ofList word = "false" then some (literal (.scalar (.bool false)))
  else if (Text.splitAt '.' word).all isIdentifier then
    some (reference ((Text.splitAt '.' word).map fun part => .scalar (.text (Text.ofList part))))
  else none

/-- A decimal numeral without a sign. -/
def readNatural (cs : List CodePoint) : Option (Nat × List CodePoint) :=
  if cs.takeWhile CodePoint.isDigit = [] then none
  else some (Json.digitsValue 0 (cs.takeWhile CodePoint.isDigit), cs.dropWhile CodePoint.isDigit)

/-- A decimal numeral that may have a minus sign. -/
def readInteger (cs : List CodePoint) : Option (Int × List CodePoint) :=
  match expect ['-'] cs with
  | some rest => (readNatural rest).map fun (n, rest) => (-(n : Int), rest)
  | none => (readNatural cs).map fun (n, rest) => ((n : Int), rest)

/-- A keyword, a literal word, a dotted name or a type marked as never null. -/
def readWord (type : Reader TypeExpr) (cs : List CodePoint) : Option (TypeExpr × List CodePoint) :=
  match expect ['<'] (cs.dropWhile isDottedPart) with
  | some inner =>
    if cs.takeWhile isDottedPart = ("NonNullable" : Text).toList then do
      let (t, rest) ← type inner
      let rest ← expect ['>'] rest
      some (nonNull t, rest)
    else none
  | none => (ofWord (cs.takeWhile isDottedPart)).map fun t => (t, cs.dropWhile isDottedPart)

/-- Whether a member is read-only, and the member without the modifier. -/
def readModifier (cs : List CodePoint) : Bool × List CodePoint :=
  let rest := skipBlanks (cs.dropWhile isNamePart)
  if cs.takeWhile isNamePart = ("readonly" : Text).toList ∧ expect [':'] rest = none ∧
      expect ['?'] rest = none then
    (true, rest)
  else (false, cs)

/-- The name of a field, bare or quoted. -/
def readName (cs : List CodePoint) : Option (Text × List CodePoint) :=
  match expect ['"'] cs with
  | some rest => Text.unquote rest
  | none => readIdentifier cs

/-- Whether a field is required, which a question mark after its name denies. -/
def readMark (cs : List CodePoint) : Bool × List CodePoint :=
  match expect ['?'] cs with
  | some rest => (false, rest)
  | none => (true, cs)

/-- The type of a member, from its colon to its semicolon. -/
def readMemberType (type : Reader TypeExpr) (cs : List CodePoint) : Option (TypeExpr × List CodePoint) := do
  let rest ← expect [':'] (skipBlanks cs)
  let (t, rest) ← type (skipBlanks rest)
  let rest ← expect [';'] (skipBlanks rest)
  some (t, rest)

/-- A field without its modifier. -/
def readField (type : Reader TypeExpr) (readOnly : Bool) (cs : List CodePoint) :
    Option (Field TypeExpr × List CodePoint) := do
  let (name, rest) ← readName cs
  let (required, rest) := readMark (skipBlanks rest)
  let (t, rest) ← readMemberType type rest
  some (⟨.text name, t, required, readOnly⟩, rest)

/-- An index signature without its modifier and its opening bracket. -/
def readIndex (type : Reader TypeExpr) (readOnly : Bool) (cs : List CodePoint) :
    Option (IndexSignature TypeExpr × List CodePoint) := do
  let (key, rest) ← readIdentifier (skipBlanks cs)
  let rest ← expect [':'] (skipBlanks rest)
  let rest ← expect ("string" : Text).toList (skipBlanks rest)
  let rest ← expect [']'] (skipBlanks rest)
  let (t, rest) ← readMemberType type rest
  some (⟨t, false, readOnly, key⟩, rest)

/-- The members of an object type and its closing brace; the bound exceeds the number of fields. -/
def readMembers (type : Reader TypeExpr) :
    Nat → Reader (List (Field TypeExpr) × Option (IndexSignature TypeExpr))
  | 0, _ => none
  | bound + 1, cs =>
    match expect ['\x7d'] (skipBlanks cs) with
    | some rest => some (([], none), rest)
    | none =>
      let (readOnly, cs) := readModifier (skipBlanks cs)
      match expect ['['] cs with
      | some rest => do
        let (index, rest) ← readIndex type readOnly rest
        let rest ← expect ['\x7d'] (skipBlanks rest)
        some (([], some index), rest)
      | none => do
        let (field, rest) ← readField type readOnly cs
        let ((fields, index), rest) ← readMembers type bound rest
        some ((field :: fields, index), rest)

/-- A primary type, told apart by its first character. -/
def readPrimary (type : Reader TypeExpr) : Reader TypeExpr
  | [] => none
  | c :: cs =>
    if c = '(' then do
      let (t, rest) ← type cs
      let rest ← expect [')'] rest
      some (t, rest)
    else if c = '\x7b' then do
      let ((fields, index), rest) ← readMembers type (cs.length + 1) cs
      some (object fields index, rest)
    else if c = '"' then do
      let (s, rest) ← Text.unquote cs
      some (literal (.scalar (.text s)), rest)
    else if c = '-' ∨ c.isDigit then do
      let (n, rest) ← readInteger (c :: cs)
      some (literal (.scalar (.int n)), rest)
    else readWord type (c :: cs)

/-- A type with the pairs of brackets that follow it. -/
def readBrackets (t : TypeExpr) : List CodePoint → TypeExpr × List CodePoint
  | '[' :: ']' :: rest => readBrackets (array t) rest
  | rest => (t, rest)

/-- A primary type and its pairs of brackets. -/
def readOperand (type : Reader TypeExpr) (cs : List CodePoint) : Option (TypeExpr × List CodePoint) :=
  (readPrimary type cs).map fun (t, rest) => readBrackets t rest

/-- Operands between ampersands. -/
def readIntersection (type : Reader TypeExpr) (cs : List CodePoint) : Option (TypeExpr × List CodePoint) :=
  (readSeparated [' ', '&', ' '] (readOperand type) (cs.length + 1) cs).map
    fun (ts, rest) => (intersectionOf ts, rest)

/-- Intersections between bars. -/
def readUnion (type : Reader TypeExpr) (cs : List CodePoint) : Option (TypeExpr × List CodePoint) :=
  (readSeparated [' ', '|', ' '] (readIntersection type) (cs.length + 1) cs).map
    fun (ts, rest) => (unionOf ts, rest)

/-- A type whose nesting is below a bound. -/
def readType : Nat → Reader TypeExpr
  | 0, _ => none
  | bound + 1, cs => readUnion (readType bound) cs

/-- The type that a whole text stands for; its nesting is below the length of the text. -/
def parse (s : Text) : Option TypeExpr :=
  match readType (s.toList.length + 2) s.toList with
  | some (t, []) => some t
  | _ => none

end TypeExpr

end SchemaTypes
