import Mathlib.Tactic.SplitIfs
import SchemaTypes.Proofs.Text.Layout

/-!
# Shifting a text

A text is shifted to the right by blanks behind every line feed, which puts them in front of all its lines but
the first. Texts that follow one another or are joined by a separator are shifted one by one.
-/

namespace SchemaTypes.Text

/-- A code point, with more blanks behind it if it is a line feed. -/
def shiftChar (blanks : Nat) (c : CodePoint) : List CodePoint :=
  if c = '\n' then '\n' :: List.replicate blanks ' ' else [c]

/-- A text with more blanks behind every line feed. -/
def shift (blanks : Nat) (s : Text) : Text := Text.ofList (s.toList.flatMap (shiftChar blanks))

/-- The lines of a text with blanks in front of all of them but the first. -/
def indentLater (blanks : Text) : List (List CodePoint) → List Text
  | [] => []
  | first :: later => Text.ofList first :: later.map fun line => blanks ++ Text.ofList line

variable {s : Text} {parts : List Text}

/-- Behind a line feed there are more blanks. -/
theorem shift_newline (blanks : Nat) : shift blanks "\n" = "\n" ++ Text.ofList (List.replicate blanks ' ') := by
  apply Text.toList_injective
  simp [shift, shiftChar]

/-- Texts in a row are shifted one by one. -/
theorem shift_append (blanks : Nat) (s t : Text) : shift blanks (s ++ t) = shift blanks s ++ shift blanks t := by
  rw [shift, shift, shift, Text.toList_append, List.flatMap_append, Text.ofList_append]

/-- A text without line feeds stays where it is. -/
theorem shift_of_not_mem (blanks : Nat) (h : ('\n' : CodePoint) ∉ s.toList) : shift blanks s = s := by
  have hchars : ∀ cs : List CodePoint, ('\n' : CodePoint) ∉ cs → cs.flatMap (shiftChar blanks) = cs := by
    intro cs hcs
    induction cs with
    | nil => rfl
    | cons c rest ih =>
      have hc : c ≠ '\n' := fun hc => hcs (hc ▸ List.mem_cons_self)
      have hrest : ('\n' : CodePoint) ∉ rest := fun hmem => hcs (List.mem_cons_of_mem c hmem)
      rw [List.flatMap_cons, shiftChar, if_neg hc, ih hrest, List.singleton_append]
  rw [shift, hchars s.toList h, Text.ofList_toList]

/-- Joined texts are shifted one by one, and so is the separator. -/
theorem shift_joinWith (blanks : Nat) (separator : Text) (parts : List Text) :
    shift blanks (joinWith separator parts) =
      joinWith (shift blanks separator) (parts.map (shift blanks)) := by
  induction parts with
  | nil => rfl
  | cons part others ih =>
    cases others with
    | nil => rfl
    | cons next others =>
      rw [joinWith_cons_cons, shift_append, shift_append, ih]
      rfl

/-- Four blanks, repeated. -/
theorem repeated_blanks (count : Nat) : repeated count "    " = Text.ofList (List.replicate (4 * count) ' ') := by
  induction count with
  | zero => rfl
  | succ count ih =>
    rw [repeated, ih, Nat.mul_succ, Nat.add_comm, ← List.replicate_append_replicate, Text.ofList_append]
    rfl

/-- A text in front of joined texts and behind every separator is in front of each of them. -/
theorem append_joinWith (blanks separator : Text) (hne : parts ≠ []) :
    blanks ++ joinWith (separator ++ blanks) parts = joinWith separator (parts.map (blanks ++ ·)) := by
  induction parts with
  | nil => exact absurd rfl hne
  | cons part others ih =>
    cases others with
    | nil => rfl
    | cons next others =>
      have hrest := ih (List.cons_ne_nil next others)
      rw [List.map_cons, List.map_cons, joinWith_cons_cons, joinWith_cons_cons, ← List.map_cons, ← hrest]
      simp only [Text.append_assoc]

/-- Cutting leaves at least one piece. -/
theorem splitAt_ne_nil (separator : CodePoint) (cs : List CodePoint) : splitAt separator cs ≠ [] := by
  cases cs with
  | nil => exact List.cons_ne_nil _ _
  | cons c rest =>
    rw [splitAt]
    split_ifs
    · exact List.cons_ne_nil _ _
    · cases splitAt separator rest <;> exact List.cons_ne_nil _ _

/-- Shifting a text puts blanks in front of all its lines but the first. -/
theorem shift_eq_joinWith (blanks : Nat) (s : Text) :
    shift blanks s =
      joinWith "\n" (indentLater (Text.ofList (List.replicate blanks ' ')) (splitAt '\n' s.toList)) := by
  rw [shift]
  induction s.toList with
  | nil => rfl
  | cons c rest ih =>
    obtain ⟨first, later, hlines⟩ := List.exists_cons_of_ne_nil (splitAt_ne_nil '\n' rest)
    rw [hlines, indentLater] at ih
    rw [List.flatMap_cons, Text.ofList_append, ih, splitAt, hlines]
    by_cases hc : c = '\n'
    · rw [shiftChar, if_pos hc, if_pos hc, indentLater, List.map_cons, joinWith_cons_cons,
        joinWith_append_cons, ← List.singleton_append, Text.ofList_append]
      simp only [Text.append_assoc]
      rfl
    · have hfirst : Text.ofList (c :: first) = Text.ofList [c] ++ Text.ofList first := by
        rw [← Text.ofList_append, List.singleton_append]
      rw [shiftChar, if_neg hc, if_neg hc, consPiece_cons, indentLater, hfirst, joinWith_append_cons]

end SchemaTypes.Text
