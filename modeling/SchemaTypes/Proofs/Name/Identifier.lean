import Mathlib.Tactic.SplitIfs
import Mathlib.Tactic.Tauto
import SchemaTypes.Name
import SchemaTypes.TypeExpr.Print

/-!
# The characters of names

Making an identifier from a text drops the runs of separators before letters. A run that ends before a
digit or at the end of the text stays. So the identifier holds the letters and digits of the text, letters
possibly raised, and of the separators exactly those that are kept in this way. It may be no identifier in
the source for this reason: it is one as far as ASCII goes exactly if every ASCII separator that is kept is
an underscore or a dollar sign.

A name in camel case is put together from words of ASCII letters and digits, and holds nothing else.
-/

namespace SchemaTypes.Name

/-- Whether a run of separators stays before a text: the next character that is no separator, if there is
one, is a digit. -/
def staysBefore : List CodePoint → Bool
  | [] => true
  | c :: rest => if isSeparator c then staysBefore rest else c.isDigit

/-- A separator that is kept: its run stays before what follows it. -/
def Keeps (cs : List CodePoint) (c : CodePoint) : Prop :=
  ∃ before after, cs = before ++ c :: after ∧ isSeparator c = true ∧ staysBefore after = true

/-- A text whose ASCII characters are letters, digits, underscores and dollar signs. -/
def Clean (s : Text) : Prop := ∀ c ∈ s.toList, c.toNat < 128 → isNamePart c = true

variable {c d : CodePoint} {cs run : List CodePoint}

/-- A separator is no letter and no digit. -/
theorem isSeparator_eq_true : isSeparator c = true ↔ isLetter c = false ∧ c.isDigit = false := by
  simp [isSeparator]

/-- The numbers of ASCII letters are those of the upper case and those of the lower case. -/
theorem isAlpha_iff : c.isAlpha = true ↔ (65 ≤ c.toNat ∧ c.toNat ≤ 90) ∨ (97 ≤ c.toNat ∧ c.toNat ≤ 122) := by
  cases c with
  | scalar c =>
    change (decide ('A'.val ≤ c.val ∧ c.val ≤ 'Z'.val) ||
      (decide ('a'.val ≤ c.val) && decide (c.val ≤ 'z'.val))) = true ↔ _
    simp only [Bool.or_eq_true, Bool.and_eq_true, decide_eq_true_eq, UInt32.le_iff_toNat_le]
    rfl
  | surrogate n =>
    refine iff_of_false Bool.false_ne_true ?_
    rw [CodePoint.toNat]
    omega

/-- What holds of the characters with the ASCII numbers holds of every ASCII character. -/
theorem forall_ascii {p : CodePoint → Prop} (h : ∀ m < 128, p (CodePoint.ofNat m)) (hc : c.toNat < 128) : p c :=
  CodePoint.ofNat_toNat c ▸ h c.toNat hc

/-- Letters and digits of either kind are ASCII characters. -/
theorem toNat_lt_of_isAlphanum (h : c.isAlphanum = true) : c.toNat < 128 := by
  rcases CodePoint.isAlphanum_iff.mp h with halpha | hdigit
  · have := isAlpha_iff.mp halpha
    omega
  · have : 48 ≤ c.toNat ∧ c.toNat ≤ 57 := CodePoint.isDigit_iff_toNat.mp hdigit
    omega

/-- An ASCII letter stays one in upper case. -/
theorem isAlpha_toUpper (h : c.isAlpha = true) : c.toUpper.isAlpha = true := by
  have hascii : c.toNat < 128 := toNat_lt_of_isAlphanum (CodePoint.isAlphanum_iff.mpr (Or.inl h))
  exact forall_ascii (p := fun c => c.isAlpha = true → c.toUpper.isAlpha = true) (by decide) hascii h

/-- A letter is no digit. -/
theorem isDigit_of_isLetter (h : isLetter c = true) : c.isDigit = false := by
  simp only [isLetter, Bool.or_eq_true, decide_eq_true_eq] at h
  rcases h with (((halpha | rfl) | rfl) | rfl) | rfl
  · rw [Bool.eq_false_iff]
    intro hdigit
    have hrange := isAlpha_iff.mp halpha
    have hdigits : 48 ≤ c.toNat ∧ c.toNat ≤ 57 := CodePoint.isDigit_iff_toNat.mp hdigit
    omega
  all_goals decide

/-- A letter stays a letter when it is raised. -/
theorem isLetter_raise (h : isLetter c = true) : isLetter (raise c) = true := by
  unfold raise
  split_ifs with hdotless hlong
  · decide
  · decide
  · simp only [isLetter, Bool.or_eq_true, decide_eq_true_eq, hdotless, hlong, or_false] at h
    rcases h with (halpha | rfl) | rfl
    · rw [isLetter, isAlpha_toUpper halpha]
      rfl
    · decide
    · decide

/-- A separator is none of the letters. -/
theorem ne_of_isLetter (hc : isSeparator c = true) (hd : isLetter d = true) : c ≠ d := by
  rintro rfl
  rw [(isSeparator_eq_true.mp hc).1] at hd
  cases hd

/-- The first character of a text is kept if its run stays, and the others are kept as in the rest. -/
theorem keeps_cons_iff :
    Keeps (d :: cs) c ↔ (c = d ∧ isSeparator d = true ∧ staysBefore cs = true) ∨ Keeps cs c := by
  constructor
  · rintro ⟨before, after, htext, hseparator, hstays⟩
    cases before with
    | nil =>
      obtain ⟨rfl, rfl⟩ := List.cons.inj htext
      exact Or.inl ⟨rfl, hseparator, hstays⟩
    | cons first before =>
      obtain ⟨-, rfl⟩ := List.cons.inj htext
      exact Or.inr ⟨before, after, rfl, hseparator, hstays⟩
  · rintro (⟨rfl, hseparator, hstays⟩ | ⟨before, after, rfl, hseparator, hstays⟩)
    · exact ⟨[], cs, rfl, hseparator, hstays⟩
    · exact ⟨d :: before, after, rfl, hseparator, hstays⟩

/-- What is kept is a separator. -/
theorem Keeps.isSeparator (h : Keeps cs c) : isSeparator c = true := by
  obtain ⟨before, after, -, hseparator, -⟩ := h
  exact hseparator

/-- Nothing is kept of an empty text. -/
theorem not_keeps_nil : ¬ Keeps [] c := by
  rintro ⟨before, after, htext, -⟩
  simp at htext

/-- The separators left over are those passed before, if their run stays, and those that are kept. -/
theorem mem_dropSeparators_iff (hc : isSeparator c = true) :
    c ∈ dropSeparators run cs ↔ (c ∈ run ∧ staysBefore cs = true) ∨ Keeps cs c := by
  induction cs generalizing run with
  | nil => simp [dropSeparators, staysBefore, not_keeps_nil]
  | cons d rest ih =>
    rw [dropSeparators, keeps_cons_iff, staysBefore]
    by_cases hd : isSeparator d = true
    · simp only [hd, if_true, ih, List.mem_cons]
      tauto
    · have hne : c ≠ d := fun h => hd (h ▸ hc)
      by_cases hletter : isLetter d = true
      · have hraised : c ≠ if run.isEmpty then d else raise d := by
          split
          · exact ne_of_isLetter hc hletter
          · exact ne_of_isLetter hc (isLetter_raise hletter)
        rw [if_neg hd, if_pos hletter, List.mem_cons, or_iff_right hraised, ih, if_neg hd,
          isDigit_of_isLetter hletter]
        simp [hd]
      · have hdigit : d.isDigit = true := by simpa [isSeparator, hletter] using hd
        simp [hd, hletter, ih, hne, hdigit]

/-- The separators of an identifier are those that are kept of the text. -/
theorem mem_identifierChars_iff (hc : isSeparator c = true) : c ∈ identifierChars cs ↔ Keeps cs c := by
  cases cs with
  | nil => simp [identifierChars, not_keeps_nil]
  | cons d rest =>
    rw [identifierChars]
    split_ifs with hletter
    · have hd : isSeparator d = false := by simp [isSeparator, hletter]
      have hraised : c ≠ raise d := ne_of_isLetter hc (isLetter_raise hletter)
      rw [List.mem_cons, or_iff_right hraised, mem_dropSeparators_iff hc, keeps_cons_iff]
      simp [hd]
    · rw [mem_dropSeparators_iff hc]
      simp

/-- An ASCII letter or digit may stand in an identifier. -/
theorem isNamePart_of_not_isSeparator (hc : isSeparator c = false) (hascii : c.toNat < 128) :
    isNamePart c = true := by
  by_cases hdigit : c.isDigit = true
  · simp [isNamePart, hdigit]
  · have hletter : isLetter c = true := by simpa [isSeparator, hdigit] using hc
    simp only [isLetter, Bool.or_eq_true, decide_eq_true_eq] at hletter
    rcases hletter with (((halpha | rfl) | rfl) | rfl) | rfl
    · simp [isNamePart, isNameStart, halpha]
    all_goals exact absurd hascii (by decide)

/-- Of the separators, the underscore and the dollar sign may stand in an identifier. -/
theorem isNamePart_iff_of_isSeparator (hc : isSeparator c = true) : isNamePart c = true ↔ c = '_' ∨ c = '$' := by
  obtain ⟨hletter, hdigit⟩ := isSeparator_eq_true.mp hc
  have halpha : c.isAlpha = false := by
    rw [isLetter] at hletter
    simp only [Bool.or_eq_false_iff] at hletter
    exact hletter.1.1.1.1
  simp [isNamePart, isNameStart, halpha, hdigit]

/-- An identifier is clean exactly if no ASCII separators are kept but underscores and dollar signs. -/
theorem clean_identifier_iff (s : Text) :
    Clean (identifier s) ↔ ∀ c, Keeps s.toList c → c.toNat < 128 → c = '_' ∨ c = '$' := by
  simp only [Clean, identifier, Text.toList_ofList]
  constructor
  · intro hclean c hkeeps hascii
    have hseparator := hkeeps.isSeparator
    have hmem := (mem_identifierChars_iff hseparator).mpr hkeeps
    exact (isNamePart_iff_of_isSeparator hseparator).mp (hclean c hmem hascii)
  · intro hkept c hc hascii
    by_cases hseparator : isSeparator c = true
    · have hkeeps := (mem_identifierChars_iff hseparator).mp hc
      exact (isNamePart_iff_of_isSeparator hseparator).mpr (hkept c hkeeps hascii)
    · exact isNamePart_of_not_isSeparator (by simpa using hseparator) hascii

/-- Dropping separators leaves something of every text. -/
theorem dropSeparators_ne_nil (h : run ≠ [] ∨ cs ≠ []) : dropSeparators run cs ≠ [] := by
  induction cs generalizing run with
  | nil => simpa [dropSeparators] using h
  | cons c rest ih =>
    rw [dropSeparators]
    by_cases hseparator : isSeparator c = true
    · rw [if_pos hseparator]
      exact ih (Or.inl (by simp))
    · rw [if_neg hseparator]
      split <;> simp

/-- The identifier made from a text is empty only if the text is. -/
theorem identifier_ne_empty {s : Text} (h : s ≠ "") : identifier s ≠ "" := by
  have hchars : identifierChars s.toList ≠ [] := by
    cases hs : s.toList with
    | nil => exact absurd (Text.toList_eq_nil_iff.mp hs) h
    | cons c rest =>
      rw [identifierChars]
      split_ifs
      · simp
      · exact dropSeparators_ne_nil (Or.inr (by simp))
  intro hempty
  rw [identifier] at hempty
  have hlist := congrArg Text.toList hempty
  rw [Text.toList_ofList] at hlist
  exact hchars hlist

/-! ### Camel case -/

/-- An ASCII letter or digit stays one in either case. -/
theorem isAlphanum_case (h : c.isAlphanum = true) :
    c.toLower.isAlphanum = true ∧ c.toUpper.isAlphanum = true := by
  have hall : ∀ m < 128, (CodePoint.ofNat m).isAlphanum = true →
      (CodePoint.ofNat m).toLower.isAlphanum = true ∧ (CodePoint.ofNat m).toUpper.isAlphanum = true := by decide
  exact forall_ascii (p := fun c => c.isAlphanum = true → c.toLower.isAlphanum = true ∧
    c.toUpper.isAlphanum = true) hall (toNat_lt_of_isAlphanum h) h

/-- What a character does to the words of the text behind it: a separator leaves them as they are, and a letter
or digit is a word of its own or is put in front of the first word. -/
theorem pieces_cons_cases (c : CodePoint) (rest : List CodePoint) :
    (c.isAlphanum = false ∧ pieces (c :: rest) = pieces rest) ∨
      (c.isAlphanum = true ∧ pieces (c :: rest) = [c] :: pieces rest) ∨
      (c.isAlphanum = true ∧ ∃ first others, pieces rest = first :: others ∧
        pieces (c :: rest) = (c :: first) :: others) := by
  cases hc : c.isAlphanum with
  | false => exact Or.inl ⟨rfl, by rw [pieces.eq_def]; simp [hc]⟩
  | true =>
    cases rest with
    | nil => exact Or.inr (Or.inl ⟨rfl, by simp [pieces, hc]⟩)
    | cons d tail =>
      cases hd : d.isAlphanum with
      | false => exact Or.inr (Or.inl ⟨rfl, by simp [pieces, hc, hd]⟩)
      | true =>
        have hword : pieces (c :: d :: tail) = Text.consPiece c (pieces (d :: tail)) := by
          rw [pieces, if_pos hc]
          simp [hd]
        cases hpieces : pieces (d :: tail) with
        | nil => exact Or.inr (Or.inl ⟨rfl, by rw [hword, hpieces]; rfl⟩)
        | cons first others => exact Or.inr (Or.inr ⟨rfl, first, others, rfl, by rw [hword, hpieces]; rfl⟩)

/-- The words of a text are made of ASCII letters and digits. -/
theorem isAlphanum_pieces (cs : List CodePoint) : ∀ word ∈ pieces cs, ∀ c ∈ word, c.isAlphanum = true := by
  induction cs with
  | nil => exact List.forall_mem_nil _
  | cons c rest ih =>
    rcases pieces_cons_cases c rest with ⟨-, hpieces⟩ | ⟨hc, hpieces⟩ | ⟨hc, first, others, hrest, hpieces⟩
    · rw [hpieces]
      exact ih
    · rw [hpieces]
      exact List.forall_mem_cons.mpr ⟨List.forall_mem_singleton.mpr hc, ih⟩
    · rw [hrest] at ih
      obtain ⟨hfirst, hothers⟩ := List.forall_mem_cons.mp ih
      rw [hpieces]
      exact List.forall_mem_cons.mpr ⟨List.forall_mem_cons.mpr ⟨hc, hfirst⟩, hothers⟩

/-- Letters and digits stay so in lower case. -/
theorem isAlphanum_lowered (h : ∀ c ∈ cs, c.isAlphanum = true) : ∀ c ∈ lowered cs, c.isAlphanum = true := by
  intro c hc
  obtain ⟨d, hd, rfl⟩ := List.mem_map.mp hc
  exact (isAlphanum_case (h d hd)).1

/-- Letters and digits stay so in a word that is capitalised. -/
theorem isAlphanum_capitalized (h : ∀ c ∈ cs, c.isAlphanum = true) :
    ∀ c ∈ capitalized cs, c.isAlphanum = true := by
  cases cs with
  | nil => exact h
  | cons c rest =>
    obtain ⟨hc, hrest⟩ := List.forall_mem_cons.mp h
    exact List.forall_mem_cons.mpr ⟨(isAlphanum_case hc).2, isAlphanum_lowered hrest⟩

/-- A name in camel case is made of ASCII letters and digits. -/
theorem isAlphanum_camelCase (s : Text) : ∀ c ∈ (camelCase s).toList, c.isAlphanum = true := by
  have hpieces : ∀ word ∈ words s, ∀ c ∈ word, c.isAlphanum = true := isAlphanum_pieces _
  rw [camelCase]
  cases hwords : words s with
  | nil => exact List.forall_mem_nil _
  | cons first rest =>
    rw [hwords] at hpieces
    obtain ⟨hfirst, hrest⟩ := List.forall_mem_cons.mp hpieces
    rw [Text.toList_ofList]
    refine List.forall_mem_append.mpr ⟨isAlphanum_lowered hfirst, fun c hc => ?_⟩
    obtain ⟨word, hword, hc⟩ := List.mem_flatten.mp hc
    obtain ⟨other, hother, rfl⟩ := List.mem_map.mp hword
    exact isAlphanum_capitalized (hrest other hother) c hc

end SchemaTypes.Name
