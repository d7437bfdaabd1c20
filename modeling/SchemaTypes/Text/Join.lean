import SchemaTypes.Text.Basic

/-!
# Joining and splitting text

Texts are joined with a separator between neighbours, and a list of characters is cut at every
occurrence of a separating character. Cutting keeps empty pieces, so joining the pieces again
with the separator gives back the list.

A line ends at a line feed, a carriage return with or without a line feed after it, or one of the
less common separators. Texts read from files know line feeds only: the other two common endings
are replaced by one first.
-/

namespace SchemaTypes.Text

/-- The given texts in order, with `separator` between neighbours. -/
def joinWith (separator : Text) : List Text → Text
  | [] => ""
  | [s] => s
  | s :: t :: rest => s ++ separator ++ joinWith separator (t :: rest)

/-- Add a character to the first piece. -/
def consPiece (c : CodePoint) : List (List CodePoint) → List (List CodePoint)
  | [] => [[c]]
  | piece :: rest => (c :: piece) :: rest

/-- The pieces between the occurrences of `separator`, empty ones included. -/
def splitAt (separator : CodePoint) : List CodePoint → List (List CodePoint)
  | [] => [[]]
  | c :: rest =>
    if c = separator then [] :: splitAt separator rest else consPiece c (splitAt separator rest)

/-- `count` copies of a text. -/
def repeated (count : Nat) (s : Text) : Text :=
  match count with
  | 0 => ""
  | n + 1 => s ++ repeated n s

/-- Whether `part` occurs in a list of characters as a contiguous piece. -/
def hasInfix (part : List CodePoint) : List CodePoint → Bool
  | [] => part.isEmpty
  | c :: rest => part.isPrefixOf (c :: rest) || hasInfix part rest

/-- Whether a character ends a line on its own. -/
def isLineEnd (c : CodePoint) : Bool :=
  c = '\n' || c = '\r' || c = '\x0b' || c = '\x0c' || c = '\x1c' || c = '\x1d' || c = '\x1e' ||
    c = '\u0085' || c = '\u2028' || c = '\u2029'

/-- The lines of a text without their endings. A text that ends with a line ending has no further
empty line. -/
def lines : List CodePoint → List (List CodePoint)
  | [] => []
  | '\r' :: '\n' :: rest => [] :: lines rest
  | c :: rest => if isLineEnd c then [] :: lines rest else consPiece c (lines rest)

/-- Replace every carriage return, with or without a line feed after it, by a line feed. -/
def unifyLineEnds : List CodePoint → List CodePoint
  | [] => []
  | '\r' :: '\n' :: rest => '\n' :: unifyLineEnds rest
  | '\r' :: rest => '\n' :: unifyLineEnds rest
  | c :: rest => c :: unifyLineEnds rest

end SchemaTypes.Text
