import Mathlib.Tactic.SplitIfs
import SchemaTypes.Document.Json
import SchemaTypes.Proofs.Document.Value
import SchemaTypes.Proofs.Text.Layout

/-!
# The JSON text of a value stands on one line

Quoted text is printable ASCII, whatever is quoted, and numbers are written with digits, signs,
points and letters. Neither holds a line end, and nothing but commas, colons and brackets comes
between them.
-/

namespace SchemaTypes

open Text

/-- A printable ASCII character is no line end. -/
theorem Text.isLineEnd_of_printable {c : CodePoint} (hlow : ' ' ≤ c) (hhigh : c ≤ '~') :
    isLineEnd c = false :=
  isLineEnd_eq_false (p := fun c => ' ' ≤ c && c ≤ '~') (by decide) (by simp [hlow, hhigh])

/-- A hexadecimal digit is no line end. -/
theorem Text.isLineEnd_hexDigit (n : Nat) : isLineEnd (hexDigit (n % 16)) = false := by
  have hall : ∀ m < 16, isLineEnd (hexDigit m) = false := by decide
  exact hall _ (Nat.mod_lt n (by decide))

/-- A row of hexadecimal digits holds no line end. -/
theorem Text.oneLine_hexDigits (width n : Nat) : OneLine (hexDigits width n) := by
  induction width generalizing n with
  | zero => exact List.forall_mem_nil _
  | succ width ih => exact (ih (n / 16)).append (List.forall_mem_singleton.mpr (isLineEnd_hexDigit n))

/-- The escape of a UTF-16 unit holds no line end. -/
theorem Text.oneLine_unitEscape (n : Nat) : OneLine (unitEscape n) :=
  List.forall_mem_cons.mpr ⟨by decide, List.forall_mem_cons.mpr ⟨by decide, oneLine_hexDigits 4 n⟩⟩

/-- A character as it stands in a quoted text is no line end, even if it is one itself. -/
theorem Text.oneLine_escapeChar (c : CodePoint) : OneLine (escapeChar c) := by
  unfold escapeChar
  split_ifs with hquote hslash hline hreturn htab hback hfeed hplain
  iterate 7
    · decide
  · exact List.forall_mem_singleton.mpr (isLineEnd_of_printable hplain.1 hplain.2)
  · unfold unicodeEscape
    split_ifs
    · exact oneLine_unitEscape _
    · exact (oneLine_unitEscape _).append (oneLine_unitEscape _)

/-- A quoted text stands on one line. -/
theorem Text.oneLine_quote (s : Text) : OneLine (quote s).toList := by
  have hinside (cs : List CodePoint) : OneLine (escapeChars cs) := by
    induction cs with
    | nil => exact List.forall_mem_nil _
    | cons c rest ih => exact (oneLine_escapeChar c).append ih
  rw [quote, Text.toList_ofList]
  exact List.forall_mem_cons.mpr ⟨by decide, (hinside s.toList).append (by decide)⟩

/-- Characters of printable ASCII. -/
def Plain (cs : List Char) : Prop := ∀ c ∈ cs, ' ' ≤ c ∧ c ≤ '~'

instance : DecidablePred Plain := List.decidableBAll fun c => ' ' ≤ c ∧ c ≤ '~'

theorem Plain.append {cs rest : List Char} (hcs : Plain cs) (hrest : Plain rest) : Plain (cs ++ rest) :=
  List.forall_mem_append.mpr ⟨hcs, hrest⟩

/-- Printable ASCII stands on one line. -/
theorem Plain.oneLine {cs : List Char} (h : Plain cs) : OneLine (cs.map .scalar) :=
  List.forall_mem_map.mpr fun c hc => isLineEnd_of_printable (h c hc).1 (h c hc).2

/-- Digits are printable. -/
theorem plain_toDigits (n : Nat) : Plain (Nat.toDigits 10 n) := by
  intro c hc
  have hdigit := Nat.isDigit_of_mem_toDigits (by decide) (by decide) hc
  simp only [Char.isDigit, Bool.and_eq_true, decide_eq_true_eq] at hdigit
  exact ⟨Nat.le_trans (by decide) hdigit.1, Nat.le_trans hdigit.2 (by decide)⟩

/-- The text of an integer is printable. -/
theorem plain_toString (n : Int) : Plain (toString n).toList := by
  rw [Int.toString_eq_repr, Int.repr_eq_if]
  split_ifs
  · rw [Nat.toList_repr]
    exact plain_toDigits _
  · rw [String.toList_append, Nat.toList_repr]
    exact Plain.append (by decide) (plain_toDigits _)

namespace Double

/-- Dropping zeros at the end keeps digits printable. -/
theorem plain_dropFinalZeros {digits : List Char} (h : Plain digits) : Plain (dropFinalZeros digits) := by
  rw [dropFinalZeros]
  split
  · decide
  · intro c hc
    rw [List.mem_reverse] at hc
    exact h c (List.mem_reverse.mp ((List.dropWhile_sublist _).mem hc))

/-- A number with a point in it is printable. -/
theorem plain_positional {digits : List Char} (h : Plain digits) (places : Int) :
    Plain (positional digits places) := by
  have hzeros (n : Nat) : Plain (List.replicate n '0') :=
    fun _ hd => List.eq_of_mem_replicate hd ▸ by decide
  rw [positional]
  split_ifs with hsmall
  · exact List.forall_mem_cons.mpr ⟨by decide, List.forall_mem_cons.mpr ⟨by decide, (hzeros _).append h⟩⟩
  · have hwhole : Plain (digits.take places.toNat) := fun c hc => h c (List.mem_of_mem_take hc)
    have hrest : Plain (digits.drop places.toNat) := fun c hc => h c (List.mem_of_mem_drop hc)
    refine (hwhole.append (hzeros _)).append (List.forall_mem_cons.mpr ⟨by decide, ?_⟩)
    split_ifs
    · exact hzeros 1
    · exact hrest

/-- A number with an exponent is printable. -/
theorem plain_scientific {digits : List Char} (h : Plain digits) (exponent : Int) :
    Plain (scientific digits exponent) := by
  have hfirst : Plain (digits.take 1) := fun c hc => h c (List.mem_of_mem_take hc)
  have hrest : Plain (digits.drop 1) := fun c hc => h c (List.mem_of_mem_drop hc)
  have hpower := plain_toDigits exponent.natAbs
  rw [scientific]
  refine ((hfirst.append ?_).append ?_).append ?_
  · split_ifs
    · exact List.forall_mem_nil _
    · exact List.forall_mem_cons.mpr ⟨by decide, hrest⟩
  · split_ifs <;> decide
  · split_ifs
    · exact List.forall_mem_cons.mpr ⟨by decide, hpower⟩
    · exact hpower

/-- A decimal is printable. -/
theorem plain_decimalText (n : Nat) (last : Int) : Plain (decimalText n last) := by
  have hdigits := plain_dropFinalZeros (plain_toDigits n)
  rw [decimalText]
  split_ifs
  · exact plain_positional hdigits _
  · exact plain_scientific hdigits _

/-- The text of a number is printable if its spelling is. -/
theorem plain_text {spelling : Spelling} (hnan : Plain spelling.nan.toList)
    (hinfinity : Plain spelling.infinity.toList) (x : Double) : Plain (x.text spelling).toList := by
  have hsign (negative : Bool) : Plain (if negative then "-" else "").toList := by
    cases negative <;> decide
  cases x with
  | nan => exact hnan
  | infinite negative =>
    rw [text, String.toList_append]
    exact (hsign negative).append hinfinity
  | finite negative m e =>
    rw [text, String.toList_append, String.toList_ofList]
    refine (hsign negative).append ?_
    split_ifs
    · decide
    · exact plain_decimalText _ _

end Double

/-- The JSON text of a scalar stands on one line. -/
theorem Scalar.oneLine_json (s : Scalar) : OneLine s.json.toList := by
  cases s with
  | null => decide
  | bool b => cases b <;> decide
  | int n => exact (plain_toString n).oneLine
  | float x => exact (Double.plain_text (by decide) (by decide) x).oneLine
  | text s => exact oneLine_quote s

/-- The JSON text of a key stands on one line. -/
theorem Scalar.oneLine_jsonKey (s : Scalar) : OneLine s.jsonKey.toList := by
  cases s <;> exact oneLine_quote _

namespace Value

/-- The items of a list are written one by one. -/
theorem jsonItems_eq (items : List Value) : jsonItems items = items.map json := by
  induction items with
  | nil => simp [jsonItems]
  | cons v rest ih => rw [jsonItems, ih, List.map_cons]

/-- The members of an object are written one by one. -/
theorem jsonMembers_eq (members : Members) :
    jsonMembers members = members.map fun member => member.1.jsonKey ++ (": " : Text) ++ member.2.json := by
  induction members with
  | nil => simp [jsonMembers]
  | cons member rest ih => rw [jsonMembers, ih, List.map_cons]

/-- The JSON text of a value stands on one line. -/
theorem oneLine_json (v : Value) : OneLine v.json.toList := by
  induction v using induction_parts with
  | scalar s =>
    rw [json]
    exact s.oneLine_json
  | list items ih =>
    rw [json, jsonItems_eq, bracketed, Text.toList_append, Text.toList_append]
    refine (OneLine.append (by decide) (.join (by decide) fun part hpart => ?_)).append (by decide)
    obtain ⟨v, hv, rfl⟩ := List.mem_map.mp hpart
    exact ih v hv
  | object members ih =>
    rw [json, jsonMembers_eq, braced, Text.toList_append, Text.toList_append]
    refine (OneLine.append (by decide) (.join (by decide) fun part hpart => ?_)).append (by decide)
    obtain ⟨⟨k, v⟩, hmember, rfl⟩ := List.mem_map.mp hpart
    rw [Text.toList_append, Text.toList_append]
    exact (k.oneLine_jsonKey.append (by decide)).append (ih k v hmember)

end Value

end SchemaTypes
