import SchemaTypes.Text.Digit

/-!
# Blanks

The characters that count as blank in every script, trimming them from both ends of a text, and
integers written with blanks around them.
-/

namespace SchemaTypes.Text

/-- The ranges of blank characters. -/
def blanks : List (Nat × Nat) :=
  [(0x9, 0xd), (0x1c, 0x20), (0x85, 0x85), (0xa0, 0xa0), (0x1680, 0x1680), (0x2000, 0x200a),
   (0x2028, 0x2029), (0x202f, 0x202f), (0x205f, 0x205f), (0x3000, 0x3000)]

/-- Whether a character is blank. -/
def isBlank (c : CodePoint) : Bool := inRanges blanks c.toNat

/-- Drop the characters of a class at both ends. -/
def trimWith (dropped : CodePoint → Bool) (cs : List CodePoint) : List CodePoint :=
  ((cs.dropWhile dropped).reverse.dropWhile dropped).reverse

/-- Drop the blanks at both ends. -/
def trim (cs : List CodePoint) : List CodePoint := trimWith isBlank cs

/-- Whether a character may stand around a number: the blanks may, but for the four controls that
separate records. -/
def isNumberBlank (c : CodePoint) : Bool := isBlank c && !inRanges [(0x1c, 0x1f)] c.toNat

/-- Read decimal digits with single underscores between them. -/
def readGrouped? (cs : List CodePoint) : Option Nat :=
  (dropGrouping? cs).bind readDecimals?

/-- Read an integer: blanks around it, one optional sign, digits with single underscores
between them. -/
def readInteger? (s : Text) : Option Int :=
  match trimWith isNumberBlank s.toList with
  | '-' :: digits => (readGrouped? digits).map fun n => -(n : Int)
  | '+' :: digits => (readGrouped? digits).map Int.ofNat
  | digits => (readGrouped? digits).map Int.ofNat

end SchemaTypes.Text
