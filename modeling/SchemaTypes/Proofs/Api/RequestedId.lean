import Mathlib.Tactic.SplitIfs
import SchemaTypes.Api.Operation
import SchemaTypes.Proofs.Text.Join

/-!
# Requested ids

An operation asks for the id that it is given in the document, or else for one made from its method and
path. The former is a value that is present and the latter a slug, so neither is empty. Ids are given out
one after the other, and a number behind an id does not make it empty either.

References rely on this: an empty segment of a path is lost when the path is written as a reference.
-/

namespace SchemaTypes.Api

/-- A text with something in front is not empty. -/
theorem append_ne_empty_left {s : Text} (h : s ≠ "") (t : Text) : s ++ t ≠ "" :=
  fun hempty => h (Text.append_eq_empty_iff.mp hempty).1

/-- A text with something at its end is not empty. -/
theorem append_ne_empty_right {t : Text} (h : t ≠ "") (s : Text) : s ++ t ≠ "" :=
  fun hempty => h (Text.append_eq_empty_iff.mp hempty).2

/-- The numeral of a number is not empty. -/
theorem toString_ne_empty (n : Nat) : (toString n : Text) ≠ "" := by
  intro h
  have hdigits : Nat.toDigits 10 n = [] := Nat.toList_repr ▸ congrArg String.toList (Text.ofString_inj.mp h)
  exact Nat.toDigits_ne_nil hdigits

/-- Different numbers have different numerals. -/
theorem toString_inj {m n : Nat} (h : (toString m : Text) = toString n) : m = n := by
  have hdigits : Nat.toDigits 10 m = Nat.toDigits 10 n := by
    rw [← Nat.toList_repr, ← Nat.toList_repr]
    exact congrArg String.toList (Text.ofString_inj.mp h)
  rw [← Nat.ofDigitChars_ten_toDigits (n := m), hdigits, Nat.ofDigitChars_ten_toDigits]

/-- The text of a decimal is not empty. -/
theorem decimalText_ne_nil (n : Nat) (last : Int) : Double.decimalText n last ≠ [] := by
  rw [Double.decimalText]
  simp only [Double.positional, Double.scientific]
  split_ifs <;> simp

/-- The text of a number is not empty. -/
theorem text_ne_empty (x : Double) : (x.text Double.plainSpelling : Text) ≠ "" := by
  cases x with
  | nan => decide
  | infinite negative =>
    rw [Double.text, Text.ofString_append]
    exact append_ne_empty_right (by decide) _
  | finite negative m e =>
    rw [Double.text, Text.ofString_append]
    refine append_ne_empty_right (fun hempty => ?_) _
    have hnil : (if m = 0 then ['0', '.', '0'] else Double.magnitudeText m e) = [] :=
      String.ofList_injective (Text.ofString_inj.mp hempty)
    by_cases hzero : m = 0
    · rw [if_pos hzero] at hnil
      cases hnil
    · rw [if_neg hzero] at hnil
      exact decimalText_ne_nil _ _ hnil

/-- A value that is present is not displayed as the empty text. -/
theorem display_ne_empty {v : Value} (h : v.isPresent = true) : v.display ≠ "" := by
  cases v with
  | list items => exact append_ne_empty_left (append_ne_empty_left (by decide) _) _
  | object members => exact append_ne_empty_left (append_ne_empty_left (by decide) _) _
  | scalar s =>
    cases s with
    | null => cases h
    | bool b =>
      cases b with
      | false => cases h
      | true => decide
    | int n =>
      cases n with
      | ofNat n => exact toString_ne_empty n
      | negSucc n =>
        intro hempty
        have hnumeral : "-" ++ toString (n + 1) = "" := Text.ofString_inj.mp hempty
        exact absurd (String.append_eq_empty_iff.mp hnumeral).1 (by decide)
    | float x => exact text_ne_empty x
    | text s => exact of_decide_eq_true h

/-- No word of a text is empty. -/
theorem ne_nil_of_mem_pieces {cs piece : List CodePoint} (h : piece ∈ Name.pieces cs) : piece ≠ [] := by
  fun_induction Name.pieces cs with
  | case1 => cases h
  | case2 c _ d rest _ ih =>
    cases hpieces : Name.pieces (d :: rest) with
    | nil =>
      rw [hpieces, Text.consPiece, List.mem_singleton] at h
      exact h ▸ List.cons_ne_nil _ _
    | cons first others =>
      rw [hpieces] at h ih
      rcases List.mem_cons.mp h with rfl | hothers
      · exact List.cons_ne_nil _ _
      · exact ih (List.mem_cons_of_mem _ hothers)
  | case3 c _ d rest _ ih =>
    rcases List.mem_cons.mp h with rfl | hrest
    · exact List.cons_ne_nil _ _
    · exact ih hrest
  | case4 c _ => exact List.mem_singleton.mp h ▸ List.cons_ne_nil _ _
  | case5 c rest _ ih => exact ih h

/-- A slug is not empty if its fallback is not. -/
theorem slug_ne_empty {fallback : Text} (h : fallback ≠ "") (s : Text) :
    Name.slug s fallback ≠ "" := by
  cases hwords : Name.words s with
  | nil =>
    rw [Name.slug, Name.slug?.eq_def, hwords]
    exact h
  | cons word rest =>
    have hword : word ≠ [] :=
      ne_nil_of_mem_pieces (show word ∈ Name.words s from hwords ▸ List.mem_cons_self)
    have hmem : Text.ofList (Name.lowered word) ∈
        (word :: rest).map fun word => Text.ofList (Name.lowered word) :=
      List.mem_map_of_mem List.mem_cons_self
    have hlength := Text.length_le_length_joinWith "_" hmem
    rw [Text.toList_ofList, Name.lowered, List.length_map] at hlength
    rw [Name.slug, Name.slug?.eq_def, hwords, Option.getD_some]
    intro hempty
    rw [hempty] at hlength
    exact hword (List.length_eq_zero_iff.mp (Nat.le_zero.mp hlength))

/-- Every operation asks for an id that is not empty. -/
theorem requestedId_ne_empty (method path : Text) (operation : Members) :
    requestedId method path operation ≠ "" := by
  rw [requestedId]
  split_ifs with hgiven
  · exact display_ne_empty hgiven
  · exact slug_ne_empty (by decide) _

/-- Give out ids one after the other. The counts at the end are returned with them. -/
def giveIds : List Text → List (Text × Nat) → List Text × List (Text × Nat)
  | [], counts => ([], counts)
  | id :: rest, counts =>
    let (first, next) := uniqueId id counts
    let (others, last) := giveIds rest next
    (first :: others, last)

/-- Ids for two lists of texts are given out one after the other. -/
theorem giveIds_append (first second : List Text) (counts : List (Text × Nat)) :
    giveIds (first ++ second) counts =
      ((giveIds first counts).1 ++ (giveIds second (giveIds first counts).2).1,
        (giveIds second (giveIds first counts).2).2) := by
  induction first generalizing counts with
  | nil => rfl
  | cons id rest ih => simp [giveIds, ih]

/-- The id given out depends on the count of the text. -/
theorem uniqueId_fst (id : Text) (counts : List (Text × Nat)) :
    (uniqueId id counts).1 =
      match counts.lookup id with
      | none => id
      | some count => id ++ "_" ++ toString (count + 1) := by
  induction counts with
  | nil => rfl
  | cons entry rest ih =>
    obtain ⟨other, count⟩ := entry
    by_cases heq : other = id
    · simp [uniqueId, heq]
    · simp [uniqueId, heq, List.lookup_cons, beq_false_of_ne (Ne.symm heq), ih]

/-- No id that is given out for a text that is not empty is empty. -/
theorem uniqueId_ne_empty {id : Text} (h : id ≠ "") (counts : List (Text × Nat)) :
    (uniqueId id counts).1 ≠ "" := by
  rw [uniqueId_fst]
  split
  · exact h
  · exact append_ne_empty_left (append_ne_empty_left h _) _

end SchemaTypes.Api
