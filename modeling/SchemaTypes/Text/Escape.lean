import SchemaTypes.Text.Basic

/-!
# Quoted text in plain ASCII

A quoted text stands between double quotes and holds printable ASCII only. Quotes and backslashes
are escaped, five control characters have short escapes, and every other character is written by
its UTF-16 units in four hexadecimal digits each.
-/

namespace SchemaTypes.Text

/-- The lower-case hexadecimal digit of a number below sixteen. -/
def hexDigit (n : Nat) : CodePoint :=
  if n < 10 then Char.ofNat (0x30 + n) else Char.ofNat (0x57 + n)

/-- The last `width` hexadecimal digits of a number. -/
def hexDigits : Nat → Nat → List CodePoint
  | 0, _ => []
  | width + 1, n => hexDigits width (n / 16) ++ [hexDigit (n % 16)]

/-- One UTF-16 unit as an escape. -/
def unitEscape (n : Nat) : List CodePoint := '\\' :: 'u' :: hexDigits 4 n

/-- The UTF-16 units of a character, each as an escape. -/
def unicodeEscape (c : CodePoint) : List CodePoint :=
  if c.toNat < 0x10000 then unitEscape c.toNat
  else
    unitEscape (0xd800 + (c.toNat - 0x10000) / 0x400) ++
      unitEscape (0xdc00 + (c.toNat - 0x10000) % 0x400)

/-- A character as it stands inside a quoted text. -/
def escapeChar (c : CodePoint) : List CodePoint :=
  if c = '"' then ['\\', '"']
  else if c = '\\' then ['\\', '\\']
  else if c = '\n' then ['\\', 'n']
  else if c = '\r' then ['\\', 'r']
  else if c = '\t' then ['\\', 't']
  else if c = '\x08' then ['\\', 'b']
  else if c = '\x0c' then ['\\', 'f']
  else if ' ' ≤ c ∧ c ≤ '~' then [c]
  else unicodeEscape c

/-- The characters of a quoted text between its quotes. -/
def escapeChars : List CodePoint → List CodePoint
  | [] => []
  | c :: rest => escapeChar c ++ escapeChars rest

/-- A text between double quotes, escaped. -/
def quote (s : Text) : Text :=
  Text.ofList ('"' :: (escapeChars s.toList ++ [('"' : CodePoint)]))

end SchemaTypes.Text
