/-!
# Texts

A text is a list of code points. Most code points are characters; the others are surrogates, which
the UTF-16 encoding of a character beyond the first plane is made of. A surrogate may stand in a
text by itself, since an escape can write one. Then the text has no UTF-8 encoding.

What is said of letters, digits and their case concerns ASCII characters only.
-/

namespace SchemaTypes

/-- A code point: a character, or a surrogate by its distance from the first one. -/
inductive CodePoint where
  | scalar (c : Char)
  | surrogate (n : Fin 0x800)
deriving DecidableEq

instance : Coe Char CodePoint := ⟨.scalar⟩

namespace CodePoint

/-- The number of a code point. -/
def toNat : CodePoint → Nat
  | scalar c => c.toNat
  | surrogate n => 0xd800 + n.val

/-- The code point of a number, and the null character beyond the last plane. -/
def ofNat (n : Nat) : CodePoint :=
  if h : 0xd800 ≤ n ∧ n < 0xe000 then surrogate ⟨n - 0xd800, by omega⟩ else scalar (Char.ofNat n)

/-- Whether a code point is a character of a class. -/
def isIn (characters : Char → Bool) : CodePoint → Bool
  | scalar c => characters c
  | surrogate _ => false

/-- Whether a code point is a letter. -/
def isAlpha (c : CodePoint) : Bool := c.isIn Char.isAlpha

/-- Whether a code point is a decimal digit. -/
def isDigit (c : CodePoint) : Bool := c.isIn Char.isDigit

/-- Whether a code point is a letter or a decimal digit. -/
def isAlphanum (c : CodePoint) : Bool := c.isIn Char.isAlphanum

/-- Whether a code point is an upper-case letter. -/
def isUpper (c : CodePoint) : Bool := c.isIn Char.isUpper

/-- Whether a code point is a lower-case letter. -/
def isLower (c : CodePoint) : Bool := c.isIn Char.isLower

/-- Change characters and leave surrogates as they are. -/
def mapScalar (f : Char → Char) : CodePoint → CodePoint
  | scalar c => scalar (f c)
  | surrogate n => surrogate n

/-- A letter in upper case. -/
def toUpper (c : CodePoint) : CodePoint := c.mapScalar Char.toUpper

/-- A letter in lower case. -/
def toLower (c : CodePoint) : CodePoint := c.mapScalar Char.toLower

@[simp] theorem toNat_scalar (c : Char) : (scalar c).toNat = c.toNat := rfl

/-- No code point lies beyond the last plane. -/
theorem toNat_lt (c : CodePoint) : c.toNat < 0x110000 := by
  cases c with
  | scalar c =>
    have hvalid : c.toNat < 0xd800 ∨ 0xdfff < c.toNat ∧ c.toNat < 0x110000 := c.valid
    rw [toNat]
    omega
  | surrogate n =>
    rw [toNat]
    omega

/-- The number of a code point determines it. -/
@[simp] theorem ofNat_toNat (c : CodePoint) : ofNat c.toNat = c := by
  cases c with
  | scalar c =>
    have hvalid : c.toNat < 0xd800 ∨ 0xdfff < c.toNat ∧ c.toNat < 0x110000 := c.valid
    rw [toNat, ofNat, dif_neg (by omega), Char.ofNat_toNat]
  | surrogate n =>
    have hn := n.isLt
    rw [toNat, ofNat, dif_pos (by omega)]
    exact congrArg surrogate (Fin.ext (Nat.add_sub_cancel_left _ _))

/-- The digits have the numbers of the ASCII digits. -/
theorem isDigit_iff_toNat {c : CodePoint} : c.isDigit = true ↔ 48 ≤ c.toNat ∧ c.toNat ≤ 57 := by
  cases c with
  | scalar c => exact Char.isDigit_iff_toNat
  | surrogate n => simp [isDigit, isIn, toNat]; omega

/-- A letter or a digit is one or the other. -/
theorem isAlphanum_iff {c : CodePoint} :
    c.isAlphanum = true ↔ c.isAlpha = true ∨ c.isDigit = true := by
  cases c with
  | scalar c => exact Bool.or_eq_true_iff
  | surrogate n => simp [isAlphanum, isAlpha, isDigit, isIn]

/-- Code points are ordered by their numbers. -/
instance : LE CodePoint := ⟨fun c d => c.toNat ≤ d.toNat⟩

instance : LT CodePoint := ⟨fun c d => c.toNat < d.toNat⟩

instance (c d : CodePoint) : Decidable (c ≤ d) := Nat.decLe c.toNat d.toNat

instance (c d : CodePoint) : Decidable (c < d) := Nat.decLt c.toNat d.toNat

end CodePoint

/-- A text. -/
structure Text where
  ofList ::
  toList : List CodePoint
deriving DecidableEq

namespace Text

/-- The text made of the characters of a string. -/
def ofString (s : String) : Text := ofList (s.toList.map .scalar)

instance : Coe String Text := ⟨ofString⟩

instance : Inhabited Text := ⟨""⟩

instance : Append Text := ⟨fun s t => ofList (s.toList ++ t.toList)⟩

/-- Texts are ordered like words in a dictionary. -/
instance : LE Text := ⟨fun s t => s.toList ≤ t.toList⟩

instance (s t : Text) : Decidable (s ≤ t) := inferInstanceAs (Decidable (s.toList ≤ t.toList))

/-- The text made of one code point. -/
def singleton (c : CodePoint) : Text := ofList [c]

/-- A text in upper case. -/
def toUpper (s : Text) : Text := ofList (s.toList.map CodePoint.toUpper)

/-- The number of code points in a text. -/
def length (s : Text) : Nat := s.toList.length

variable {s t u : Text} {cs ds : List CodePoint}

@[simp] theorem toList_ofList (cs : List CodePoint) : (ofList cs).toList = cs := rfl

@[simp] theorem ofList_toList (s : Text) : ofList s.toList = s := rfl

@[simp] theorem toList_ofString (s : String) : (ofString s).toList = s.toList.map .scalar := rfl

@[simp] theorem toList_append (s t : Text) : (s ++ t).toList = s.toList ++ t.toList := rfl

@[simp] theorem toList_singleton (c : CodePoint) : (singleton c).toList = [c] := rfl

theorem ofList_append (cs ds : List CodePoint) : ofList (cs ++ ds) = ofList cs ++ ofList ds := rfl

theorem toList_injective (h : s.toList = t.toList) : s = t := congrArg ofList h

theorem toList_inj : s.toList = t.toList ↔ s = t := ⟨toList_injective, congrArg toList⟩

theorem ofList_injective (h : ofList cs = ofList ds) : cs = ds := congrArg toList h

@[simp] theorem toList_eq_nil_iff : s.toList = [] ↔ s = "" := toList_inj (t := "")

theorem ofList_eq_empty_iff : ofList cs = "" ↔ cs = [] := toList_eq_nil_iff.symm

theorem append_assoc : s ++ t ++ u = s ++ (t ++ u) :=
  toList_injective (List.append_assoc s.toList t.toList u.toList)

@[simp] theorem empty_append : "" ++ s = s := rfl

@[simp] theorem append_empty : s ++ "" = s := toList_injective (List.append_nil s.toList)

@[simp] theorem append_eq_empty_iff : s ++ t = "" ↔ s = "" ∧ t = "" := by
  rw [← toList_eq_nil_iff, ← toList_eq_nil_iff, ← toList_eq_nil_iff]
  exact List.append_eq_nil_iff

theorem append_right_inj (s : Text) : s ++ t = s ++ u ↔ t = u := by
  rw [← toList_inj, ← toList_inj (s := t)]
  exact List.append_right_inj s.toList

theorem ofString_append (s t : String) : ofString (s ++ t) = ofString s ++ ofString t := by
  apply toList_injective
  rw [toList_append, toList_ofString, toList_ofString, toList_ofString, String.toList_append, List.map_append]

@[simp] theorem ofString_inj {s t : String} : ofString s = ofString t ↔ s = t := by
  rw [← toList_inj, toList_ofString, toList_ofString, ← String.toList_inj]
  exact List.map_inj_right fun c d h => CodePoint.scalar.inj h

end Text

end SchemaTypes
