import SchemaTypes.Text.Join

/-!
# Cutting a joined text

A text that was joined with one separating character is cut back into its pieces at that
character, provided that no piece holds it.
-/

namespace SchemaTypes.Text

/-- A single text is joined as it is. -/
@[simp]
theorem joinWith_singleton (separator s : Text) : joinWith separator [s] = s := rfl

/-- Two texts in front of others are joined with the separator between them. -/
theorem joinWith_cons_cons (separator s t : Text) (rest : List Text) :
    joinWith separator (s :: t :: rest) = s ++ separator ++ joinWith separator (t :: rest) := rfl

/-- Adding a character to the first of several pieces. -/
@[simp]
theorem consPiece_cons (c : CodePoint) (piece : List CodePoint) (rest : List (List CodePoint)) :
    consPiece c (piece :: rest) = (c :: piece) :: rest := rfl

/-- A list without the separator is one piece. -/
theorem splitAt_of_not_mem {separator : CodePoint} {piece : List CodePoint} (h : separator ∉ piece) :
    splitAt separator piece = [piece] := by
  induction piece with
  | nil => rfl
  | cons c piece ih =>
    have hc : c ≠ separator := fun hc => h (hc ▸ List.mem_cons_self)
    have hpiece : separator ∉ piece := fun hmem => h (List.mem_cons_of_mem c hmem)
    rw [splitAt, if_neg hc, ih hpiece, consPiece_cons]

/-- The first piece ends where the separator first occurs. -/
theorem splitAt_append_cons {separator : CodePoint} {piece : List CodePoint} (h : separator ∉ piece)
    (rest : List CodePoint) :
    splitAt separator (piece ++ separator :: rest) = piece :: splitAt separator rest := by
  induction piece with
  | nil => rw [List.nil_append, splitAt, if_pos rfl]
  | cons c piece ih =>
    have hc : c ≠ separator := fun hc => h (hc ▸ List.mem_cons_self)
    have hpiece : separator ∉ piece := fun hmem => h (List.mem_cons_of_mem c hmem)
    rw [List.cons_append, splitAt, if_neg hc, ih hpiece, consPiece_cons]

/-- Texts joined with a character that none of them holds are cut apart at it. -/
theorem splitAt_joinWith {separator : CodePoint} {parts : List Text} (hparts : parts ≠ [])
    (h : ∀ s ∈ parts, separator ∉ s.toList) :
    splitAt separator (joinWith (Text.singleton separator) parts).toList =
      parts.map Text.toList := by
  induction parts with
  | nil => exact absurd rfl hparts
  | cons s rest ih =>
    have hs : separator ∉ s.toList := h s List.mem_cons_self
    cases rest with
    | nil => rw [joinWith_singleton, splitAt_of_not_mem hs, List.map_singleton]
    | cons t rest =>
      have hrest := ih (List.cons_ne_nil t rest) (fun u hu => h u (List.mem_cons_of_mem s hu))
      rw [joinWith_cons_cons, Text.toList_append, Text.toList_append, Text.toList_singleton,
        List.append_assoc, List.singleton_append, splitAt_append_cons hs, hrest]
      rfl

/-- What holds of the characters of all pieces and of the separator holds of those of the joined text. -/
theorem forall_mem_joinWith {p : CodePoint → Prop} {separator : Text} {parts : List Text}
    (hseparator : ∀ c ∈ separator.toList, p c) (hparts : ∀ part ∈ parts, ∀ c ∈ part.toList, p c) :
    ∀ c ∈ (joinWith separator parts).toList, p c := by
  induction parts with
  | nil => exact List.forall_mem_nil _
  | cons part others ih =>
    obtain ⟨hpart, hothers⟩ := List.forall_mem_cons.mp hparts
    cases others with
    | nil => exact hpart
    | cons next others =>
      rw [joinWith_cons_cons, Text.toList_append, Text.toList_append]
      exact List.forall_mem_append.mpr ⟨List.forall_mem_append.mpr ⟨hpart, hseparator⟩, ih hothers⟩

/-- A joined text after one more separator has a separator in front of every piece. -/
theorem append_toList_joinWith (separator : Text) {parts : List Text} (hparts : parts ≠ []) :
    separator.toList ++ (joinWith separator parts).toList =
      parts.flatMap fun s => separator.toList ++ s.toList := by
  induction parts with
  | nil => exact absurd rfl hparts
  | cons s rest ih =>
    cases rest with
    | nil => simp
    | cons t rest =>
      rw [joinWith_cons_cons, List.flatMap_cons, ← ih (List.cons_ne_nil t rest)]
      simp

/-- No piece is longer than the joined text. -/
theorem length_le_length_joinWith (separator : Text) {parts : List Text} {s : Text}
    (h : s ∈ parts) : s.toList.length ≤ (joinWith separator parts).toList.length := by
  induction parts with
  | nil => cases h
  | cons t rest ih =>
    cases rest with
    | nil => simp_all
    | cons u rest =>
      simp only [joinWith_cons_cons, Text.toList_append, List.length_append]
      rcases List.mem_cons.1 h with rfl | hrest
      · omega
      · have := ih hrest
        omega

/-- A piece among several is shorter than the joined text. -/
theorem length_lt_length_joinWith {separator : Text} (hseparator : 0 < separator.toList.length)
    {parts : List Text} (hparts : 2 ≤ parts.length) {s : Text} (h : s ∈ parts) :
    s.toList.length < (joinWith separator parts).toList.length := by
  rcases parts with _ | ⟨t, _ | ⟨u, rest⟩⟩
  · cases h
  · simp at hparts
  · simp only [joinWith_cons_cons, Text.toList_append, List.length_append]
    rcases List.mem_cons.1 h with rfl | hrest
    · omega
    · have hle := length_le_length_joinWith separator hrest
      omega

/-- There are no more pieces than characters and one. -/
theorem length_le_joinWith_add_one {separator : Text} (hseparator : 0 < separator.toList.length)
    (parts : List Text) : parts.length ≤ (joinWith separator parts).toList.length + 1 := by
  induction parts with
  | nil => simp
  | cons s rest ih =>
    cases rest with
    | nil => simp
    | cons t rest =>
      simp only [joinWith_cons_cons, Text.toList_append, List.length_append, List.length_cons] at ih ⊢
      omega

/-- The characters of a repeated text are those of the text. -/
theorem mem_of_mem_repeated {c : CodePoint} {s : Text} {count : Nat}
    (h : c ∈ (repeated count s).toList) : c ∈ s.toList := by
  induction count with
  | zero => simp [repeated] at h
  | succ n ih =>
    rw [repeated, Text.toList_append, List.mem_append] at h
    exact h.elim id ih

/-- A text repeated a number of times and then another. -/
theorem repeated_add (first second : Nat) (s : Text) :
    repeated (first + second) s = repeated first s ++ repeated second s := by
  induction first with
  | zero => rw [Nat.zero_add, repeated, Text.empty_append]
  | succ n ih => rw [Nat.succ_add, repeated, repeated, ih, Text.append_assoc]

end SchemaTypes.Text
