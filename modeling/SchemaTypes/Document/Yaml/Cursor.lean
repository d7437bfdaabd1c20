import SchemaTypes.Text.Basic

/-!
# Places in a YAML text

A cursor is what is left of a text together with its offset, line and column, since the structure
of a text follows from the columns its parts start in. Between parts there are spaces, line ends
and comments, never tabs. Carriage returns do not occur, for the line ends of files are unified
when they are read.
-/

namespace SchemaTypes.Yaml

/-- What is left of a text, and the offset, line and column it starts at. -/
structure Cursor where
  rest : List CodePoint
  offset : Nat
  line : Nat
  column : Nat

/-- Whether a character ends a line. -/
def isBreak (c : CodePoint) : Bool := c = '\n' || c = '\u0085' || c = '\u2028' || c = '\u2029'

/-- What a line end is read as: the line and paragraph separators stay, the others become a line
feed. -/
def breakChar (c : CodePoint) : CodePoint := if c = '\u0085' then '\n' else c

/-- Whether a text is over or goes on with a space, a tab or a line end. -/
def blankAhead : List CodePoint → Bool
  | [] => true
  | c :: _ => c = ' ' || c = '\t' || isBreak c

/-- The ranges of characters that may stand in a text at all. -/
def allowed : List (Nat × Nat) :=
  [(0x9, 0xa), (0x20, 0x7e), (0x85, 0x85), (0xa0, 0xd7ff), (0xe000, 0xfffd), (0x10000, 0x10ffff)]

namespace Cursor

/-- The start of a text. -/
def start (text : List CodePoint) : Cursor := ⟨text, 0, 0, 0⟩

/-- Pass over one character. -/
def next (cursor : Cursor) : Cursor :=
  match cursor.rest with
  | [] => cursor
  | c :: rest =>
    if isBreak c then ⟨rest, cursor.offset + 1, cursor.line + 1, 0⟩
    else ⟨rest, cursor.offset + 1, cursor.line, cursor.column + 1⟩

/-- Pass over a number of characters of the line. -/
def skip (cursor : Cursor) (n : Nat) : Cursor :=
  ⟨cursor.rest.drop n, cursor.offset + n, cursor.line, cursor.column + n⟩

/-- Pass over the spaces ahead. -/
def skipSpaces (cursor : Cursor) : Cursor :=
  cursor.skip (cursor.rest.takeWhile (· = (' ' : CodePoint))).length

/-- Pass over spaces, comments and line ends. -/
def skipFrom (offset line column : Nat) (comment : Bool) : List CodePoint → Cursor
  | [] => ⟨[], offset, line, column⟩
  | c :: rest =>
    if isBreak c then skipFrom (offset + 1) (line + 1) 0 false rest
    else if comment || c = ' ' then skipFrom (offset + 1) line (column + 1) comment rest
    else if c = '#' then skipFrom (offset + 1) line (column + 1) true rest
    else ⟨c :: rest, offset, line, column⟩

/-- The next part of the text. -/
def nextPart (cursor : Cursor) : Cursor :=
  skipFrom cursor.offset cursor.line cursor.column false cursor.rest

/-- Whether a line of three given characters stands here, which separates documents. -/
def atMark (cursor : Cursor) (c : CodePoint) : Bool :=
  cursor.column = 0 && [c, c, c].isPrefixOf cursor.rest && blankAhead (cursor.rest.drop 3)

/-- Whether the document ends here. -/
def atEnd (cursor : Cursor) : Bool := cursor.rest.isEmpty || cursor.atMark '-' || cursor.atMark '.'

end Cursor

end SchemaTypes.Yaml
