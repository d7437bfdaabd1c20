import SchemaTypes.Text.Digit
import SchemaTypes.Text.Escape

/-!
# Quoted text in diagnostics

Diagnostics show text between single quotes, or between double quotes when it holds a single quote
and no double quote. Printable characters of every script stand as they are; controls, blanks
other than the space, invisible formatting marks, private-use characters and noncharacters are
escaped.
-/

namespace SchemaTypes.Text

/-- The ranges of characters that diagnostics never show as they are. -/
def unprintables : List (Nat × Nat) :=
  [(0x0, 0x1f), (0x7f, 0xa0), (0xad, 0xad), (0x600, 0x605), (0x61c, 0x61c), (0x6dd, 0x6dd),
   (0x70f, 0x70f), (0x890, 0x891), (0x8e2, 0x8e2), (0x1680, 0x1680), (0x180e, 0x180e),
   (0x2000, 0x200f), (0x2028, 0x202f), (0x205f, 0x206f), (0x3000, 0x3000), (0xe000, 0xf8ff),
   (0xfdd0, 0xfdef), (0xfeff, 0xfeff), (0xfff0, 0xfffb), (0xfffe, 0xffff), (0x110bd, 0x110bd),
   (0x110cd, 0x110cd), (0x13430, 0x13438), (0x1bca0, 0x1bca3), (0x1d173, 0x1d17a),
   (0x1fffe, 0x1ffff), (0x2fffe, 0x2ffff), (0x323b0, 0xe00ff), (0xe01f0, 0x10ffff)]

/-- The escape of a character that is not shown as it is, as short as its code point allows. -/
def codeEscape (c : CodePoint) : List CodePoint :=
  if c.toNat < 0x100 then '\\' :: 'x' :: hexDigits 2 c.toNat
  else if c.toNat < 0x10000 then '\\' :: 'u' :: hexDigits 4 c.toNat
  else '\\' :: 'U' :: hexDigits 8 c.toNat

/-- A character as diagnostics show it between the quotes `q`. -/
def inspectChar (q c : CodePoint) : List CodePoint :=
  if c = q || c = '\\' then ['\\', c]
  else if c = '\n' then ['\\', 'n']
  else if c = '\r' then ['\\', 'r']
  else if c = '\t' then ['\\', 't']
  else if inRanges unprintables c.toNat then codeEscape c
  else [c]

/-- The quote for a text: double if it holds a single quote and no double one. -/
def inspectQuote (cs : List CodePoint) : CodePoint :=
  if cs.contains '\'' && !cs.contains '"' then '"' else '\''

/-- A text as diagnostics show it. -/
def inspect (s : Text) : Text :=
  let q := inspectQuote s.toList
  Text.ofList (q :: (s.toList.flatMap (inspectChar q) ++ [q]))

end SchemaTypes.Text
