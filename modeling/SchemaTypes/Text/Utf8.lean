import SchemaTypes.Text.Basic

/-!
# UTF-8

A text without surrogates has an encoding. Bytes are decoded strictly: overlong forms, surrogates,
code points beyond the last plane and truncated sequences have no decoding.
-/

namespace SchemaTypes.Text

/-- The encoding of a text, unless it holds a surrogate. -/
def encodeUtf8? : List CodePoint → Option (List UInt8)
  | [] => some []
  | .scalar c :: rest => (encodeUtf8? rest).map (String.utf8EncodeChar c ++ ·)
  | .surrogate _ :: _ => none

/-- The payload of a continuation byte. -/
def continuation? (b : UInt8) : Option Nat :=
  if 0x80 ≤ b.toNat ∧ b.toNat < 0xc0 then some (b.toNat - 0x80) else none

/-- Extend a payload by a continuation byte. -/
def extend (payload : Nat) (b : UInt8) : Option Nat :=
  (continuation? b).map (payload * 64 + ·)

/-- The character of a code point that is at least `least` and no surrogate. -/
def scalarAbove? (least n : Nat) : Option CodePoint :=
  if least ≤ n ∧ n.isValidChar then some (Char.ofNat n) else none

/-- The characters encoded by a list of bytes. -/
def decodeUtf8? : List UInt8 → Option (List CodePoint)
  | [] => some []
  | a :: rest =>
    if a.toNat < 0x80 then (decodeUtf8? rest).map (↑(Char.ofNat a.toNat) :: ·)
    else if a.toNat < 0xc0 then none
    else if a.toNat < 0xe0 then
      match rest with
      | b :: rest => do
        let c ← scalarAbove? 0x80 (← extend (a.toNat - 0xc0) b)
        return c :: (← decodeUtf8? rest)
      | _ => none
    else if a.toNat < 0xf0 then
      match rest with
      | b :: c :: rest => do
        let n ← extend (← extend (a.toNat - 0xe0) b) c
        let ch ← scalarAbove? 0x800 n
        return ch :: (← decodeUtf8? rest)
      | _ => none
    else if a.toNat < 0xf8 then
      match rest with
      | b :: c :: d :: rest => do
        let n ← extend (← extend (← extend (a.toNat - 0xf0) b) c) d
        let ch ← scalarAbove? 0x10000 n
        return ch :: (← decodeUtf8? rest)
      | _ => none
    else none

end SchemaTypes.Text
