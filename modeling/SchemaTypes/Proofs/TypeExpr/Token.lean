import SchemaTypes.Proofs.Text.Join
import SchemaTypes.Proofs.TypeExpr.Writable

/-!
# Reading the tokens of a type

A word is read up to the first character that does not belong to it. Each lemma says that the reader
of a token returns what was printed, provided that the text goes on with one of the characters that
can follow the token.
-/

namespace SchemaTypes.TypeExpr

/-- A text that is empty or starts with one of some characters. -/
def HeadIn (allowed rest : List CodePoint) : Prop := ∀ c, rest.head? = some c → c ∈ allowed

/-- A text that starts with an allowed character. -/
theorem headIn_cons {allowed : List CodePoint} {c : CodePoint} (h : c ∈ allowed) (rest : List CodePoint) :
    HeadIn allowed (c :: rest) := by
  intro d hd
  simp only [List.head?_cons, Option.some.injEq] at hd
  exact hd ▸ h

/-- More characters may be allowed. -/
theorem HeadIn.append_right {allowed more rest : List CodePoint} (h : HeadIn allowed rest) :
    HeadIn (allowed ++ more) rest := fun c hc => List.mem_append_left more (h c hc)

/-- The characters of a word are taken up to the first that does not belong to it. -/
theorem takeWhile_append_of_headIn {p : CodePoint → Bool} {allowed word rest : List CodePoint}
    (hword : ∀ c ∈ word, p c = true) (hrest : HeadIn allowed rest)
    (hallowed : allowed.any p = false) : (word ++ rest).takeWhile p = word := by
  rw [List.takeWhile_append_of_pos hword]
  cases rest with
  | nil => simp
  | cons c rest => simp [List.any_eq_false.1 hallowed c (hrest c rfl)]

/-- What follows a word starts with the first character that does not belong to it. -/
theorem dropWhile_append_of_headIn {p : CodePoint → Bool} {allowed word rest : List CodePoint}
    (hword : ∀ c ∈ word, p c = true) (hrest : HeadIn allowed rest)
    (hallowed : allowed.any p = false) : (word ++ rest).dropWhile p = rest := by
  rw [List.dropWhile_append_of_pos hword]
  cases rest with
  | nil => simp
  | cons c rest => simp [List.any_eq_false.1 hallowed c (hrest c rfl)]

/-- A token at the front is found. -/
@[simp]
theorem expect_append (token rest : List CodePoint) : expect token (token ++ rest) = some rest := by
  induction token with
  | nil => rfl
  | cons c token ih => simp [expect, ih]

/-- A character at the front is found. -/
@[simp]
theorem expect_singleton_cons (c : CodePoint) (rest : List CodePoint) : expect [c] (c :: rest) = some rest :=
  expect_append [c] rest

/-- A token whose first character is not allowed is not found. -/
theorem expect_eq_none {allowed rest : List CodePoint} {c : CodePoint} (token : List CodePoint)
    (hrest : HeadIn allowed rest) (hc : c ∉ allowed) : expect (c :: token) rest = none := by
  cases rest with
  | nil => rfl
  | cons d rest =>
    have hd : c ≠ d := fun h => hc (h ▸ hrest d rfl)
    simp [expect, hd]

/-- Blanks at the front are skipped. -/
theorem skipBlanks_append {blanks : List CodePoint} (h : ∀ c ∈ blanks, c.isWhitespace = true)
    (rest : List CodePoint) : skipBlanks (blanks ++ rest) = skipBlanks rest :=
  List.dropWhile_append_of_pos h

/-- A text that does not start with a blank is kept. -/
theorem skipBlanks_cons {c : CodePoint} (h : c.isWhitespace = false) (rest : List CodePoint) :
    skipBlanks (c :: rest) = c :: rest := by
  simp [skipBlanks, h]

/-- A space at the front is skipped. -/
@[simp]
theorem skipBlanks_space (rest : List CodePoint) : skipBlanks ((' ' : CodePoint) :: rest) = skipBlanks rest :=
  skipBlanks_append (List.forall_mem_singleton.2 rfl) rest

/-- The blanks. -/
def blankCharacters : List CodePoint := [' ', '\t', '\r', '\n']

/-- There are no blanks but these. -/
theorem mem_blankCharacters_of_isWhitespace {c : CodePoint} (h : c.isWhitespace = true) : c ∈ blankCharacters := by
  cases c with
  | scalar c =>
    change (c = ' ' || c = '\t' || c = '\r' || c = '\n') = true at h
    simpa [blankCharacters, or_assoc] using h
  | surrogate n => cases h

/-- A character that starts a name differs from every character that does not. -/
theorem ne_of_isNameStart {c d : CodePoint} (hc : isNameStart c = true) (hd : isNameStart d = false) :
    c ≠ d := by
  rintro rfl
  simp [hc] at hd

/-- A character that starts a name is no blank. -/
theorem isWhitespace_of_isNameStart {c : CodePoint} (hc : isNameStart c = true) : c.isWhitespace = false := by
  rw [Bool.eq_false_iff]
  intro hblank
  have hnone : ∀ d ∈ blankCharacters, isNameStart d = false := by decide
  rw [hnone c (mem_blankCharacters_of_isWhitespace hblank)] at hc
  cases hc

/-- A character that starts a name is no digit. -/
theorem isDigit_of_isNameStart {c : CodePoint} (hc : isNameStart c = true) : c.isDigit = false := by
  have hdigits : ∀ m < 10, isNameStart (CodePoint.ofNat (48 + m)) = false := by decide
  rw [Bool.eq_false_iff]
  intro hdigit
  obtain ⟨hzero, hnine⟩ := CodePoint.isDigit_iff_toNat.1 hdigit
  have hnot := hdigits (c.toNat - 48) (by omega)
  rw [Nat.add_sub_cancel' hzero, CodePoint.ofNat_toNat, hc] at hnot
  cases hnot

/-- The characters of an identifier are those of names. -/
theorem isNamePart_of_isIdentifier {word : List CodePoint} (h : isIdentifier word = true) :
    ∀ c ∈ word, isNamePart c = true := by
  cases word with
  | nil => simp
  | cons c rest =>
    simp only [isIdentifier, Bool.and_eq_true, List.all_eq_true] at h
    have hc : isNamePart c = true := by simp [isNamePart, h.1]
    exact List.forall_mem_cons.2 ⟨hc, h.2⟩

/-- No surrogate belongs to a name. -/
theorem isHighUnit_of_isNamePart {c : CodePoint} (h : isNamePart c = true) :
    Json.isHighUnit c.toNat = false := by
  cases c with
  | scalar c => exact Text.isHighUnit_toNat c
  | surrogate n => cases h

/-- An identifier is read back as it is. -/
theorem merged_of_isIdentifier {s : Text} (h : isIdentifier s.toList = true) : s.merged = s :=
  Text.merged_eq_self_iff.2 (Text.hasPair_eq_false fun c hc =>
    isHighUnit_of_isNamePart (isNamePart_of_isIdentifier h c hc))

/-- An identifier starts with a character that starts a name. -/
theorem exists_cons_of_isIdentifier {word : List CodePoint} (h : isIdentifier word = true) :
    ∃ c rest, word = c :: rest ∧ isNameStart c = true := by
  cases word with
  | nil => cases h
  | cons c rest =>
    simp only [isIdentifier, Bool.and_eq_true] at h
    exact ⟨c, rest, rfl, h.1⟩

/-- An identifier is read up to its end. -/
theorem readIdentifier_append {allowed word rest : List CodePoint} (hword : isIdentifier word = true)
    (hrest : HeadIn allowed rest) (hallowed : allowed.any isNamePart = false) :
    readIdentifier (word ++ rest) = some (Text.ofList word, rest) := by
  have hparts := isNamePart_of_isIdentifier hword
  simp [readIdentifier, takeWhile_append_of_headIn hparts hrest hallowed,
    dropWhile_append_of_headIn hparts hrest hallowed, hword]

/-- The digits of a numeral. -/
def numeral (n : Nat) : List CodePoint := (Nat.toDigits 10 n).map .scalar

/-- A number is written by its numeral. -/
theorem toList_repr (n : Nat) : (n.repr : Text).toList = numeral n := by
  rw [Text.toList_ofString, Nat.toList_repr, numeral]

/-- A numeral is not empty. -/
theorem numeral_ne_nil (n : Nat) : numeral n ≠ [] := by
  rw [numeral, ne_eq, List.map_eq_nil_iff]
  exact Nat.toDigits_ne_nil

/-- A numeral holds digits only. -/
theorem isDigit_of_mem_numeral {n : Nat} {c : CodePoint} (h : c ∈ numeral n) : c.isDigit = true := by
  obtain ⟨digit, hdigit, rfl⟩ := List.mem_map.1 h
  exact Nat.isDigit_of_mem_toDigits (b := 10) (by decide) (by decide) hdigit

/-- The value of a numeral is the number. -/
theorem digitsValue_numeral (n : Nat) : Json.digitsValue 0 (numeral n) = n := by
  rw [Json.digitsValue, numeral, List.foldl_map]
  exact Nat.ofDigitChars_ten_toDigits

/-- A numeral is read up to its end. -/
theorem readNatural_numeral (n : Nat) {allowed rest : List CodePoint} (hrest : HeadIn allowed rest)
    (hallowed : allowed.any CodePoint.isDigit = false) :
    readNatural (numeral n ++ rest) = some (n, rest) := by
  have hdigits : ∀ c ∈ numeral n, c.isDigit = true := fun c hc => isDigit_of_mem_numeral hc
  simp [readNatural, takeWhile_append_of_headIn hdigits hrest hallowed,
    dropWhile_append_of_headIn hdigits hrest hallowed, numeral_ne_nil, digitsValue_numeral]

/-- A numeral starts with a digit. -/
theorem exists_cons_numeral (n : Nat) : ∃ c cs, numeral n = c :: cs ∧ c.isDigit = true := by
  obtain ⟨c, cs, hcs⟩ := List.exists_cons_of_ne_nil (numeral_ne_nil n)
  exact ⟨c, cs, hcs, isDigit_of_mem_numeral (hcs ▸ List.mem_cons_self)⟩

/-- An integer is written by a numeral, after a minus sign if it is negative. -/
theorem toList_toString (n : Int) :
    (toString n : Text).toList = if 0 ≤ n then numeral n.toNat else '-' :: numeral (-n).toNat := by
  rw [Int.toString_eq_repr, Int.repr_eq_if]
  split
  · exact toList_repr n.toNat
  · rw [Text.ofString_append, Text.toList_append, toList_repr]
    rfl

/-- An integer starts with a minus sign or a digit. -/
theorem exists_cons_toString (n : Int) :
    ∃ c cs, (toString n : Text).toList = c :: cs ∧ (c = '-' ∨ c.isDigit = true) := by
  rw [toList_toString]
  split
  · obtain ⟨c, cs, hcs, hc⟩ := exists_cons_numeral n.toNat
    exact ⟨c, cs, hcs, .inr hc⟩
  · exact ⟨'-', _, rfl, .inl rfl⟩

/-- An integer is read up to its end. -/
theorem readInteger_toString (n : Int) {allowed rest : List CodePoint} (hrest : HeadIn allowed rest)
    (hallowed : allowed.any CodePoint.isDigit = false) :
    readInteger ((toString n : Text).toList ++ rest) = some (n, rest) := by
  rw [toList_toString]
  split
  · rename_i hn
    have hminus : expect ['-'] (numeral n.toNat ++ rest) = none := by
      obtain ⟨c, cs, hcs, hc⟩ := exists_cons_numeral n.toNat
      have hne : ('-' : CodePoint) ≠ c := by
        rintro rfl
        cases hc
      simp [hcs, expect, hne]
    simp only [readInteger, hminus, readNatural_numeral n.toNat hrest hallowed, Option.map_some]
    rw [Int.toNat_of_nonneg hn]
  · rename_i hn
    have hvalue : -((-n).toNat : Int) = n := by omega
    simp only [List.cons_append, readInteger, expect_singleton_cons,
      readNatural_numeral (-n).toNat hrest hallowed, Option.map_some, hvalue]

/-- A word is read up to its end and stands for its type. -/
theorem readWord_append (type : Reader TypeExpr) {allowed word rest : List CodePoint}
    (hword : ∀ c ∈ word, isDottedPart c = true) (hrest : HeadIn allowed rest)
    (hallowed : allowed.any isDottedPart = false) (hangle : ('<' : CodePoint) ∉ allowed) :
    readWord type (word ++ rest) = (ofWord word).map fun t => (t, rest) := by
  simp [readWord, takeWhile_append_of_headIn hword hrest hallowed,
    dropWhile_append_of_headIn hword hrest hallowed, expect_eq_none [] hrest hangle]

/-- A keyword stands for itself. -/
theorem ofWord_keyword {name : Text} (h : name ∈ keywords) :
    ofWord name.toList = some (keyword name) := by
  simp [ofWord, h]

/-- No part of a name holds a dot. -/
theorem dot_not_mem_of_isIdentifier {word : List CodePoint} (h : isIdentifier word = true) :
    ('.' : CodePoint) ∉ word := by
  intro hdot
  have hpart := isNamePart_of_isIdentifier h '.' hdot
  exact absurd hpart (by decide)

/-- The characters of an identifier are those of dotted names. -/
theorem isDottedPart_of_isIdentifier {word : List CodePoint} (h : isIdentifier word = true) :
    ∀ c ∈ word, isDottedPart c = true := by
  intro c hc
  simp [isDottedPart, isNamePart_of_isIdentifier h c hc]

/-- The characters of a dotted name. -/
theorem isDottedPart_of_mem_joinWith {names : List Text}
    (hnames : ∀ s ∈ names, isIdentifier s.toList = true) :
    ∀ c ∈ (Text.joinWith "." names).toList, isDottedPart c = true := by
  induction names with
  | nil => simp [Text.joinWith]
  | cons s rest ih =>
    have hs := isDottedPart_of_isIdentifier (hnames s List.mem_cons_self)
    have htail := ih fun u hu => hnames u (List.mem_cons_of_mem s hu)
    cases rest with
    | nil => simpa using hs
    | cons u rest =>
      intro c hc
      simp only [Text.joinWith_cons_cons, Text.toList_append, List.mem_append] at hc
      rcases hc with (hc | hc) | hc
      · exact hs c hc
      · have hdot : c = '.' := by simpa using hc
        simp [hdot, isDottedPart]
      · exact htail c hc

/-- A dotted name is no reserved word unless its only part is one. -/
theorem joinWith_not_mem_reservedWords {names : List Text} (hne : names ≠ [])
    (hsingle : ∀ s, names = [s] → s ∉ reservedWords) : Text.joinWith "." names ∉ reservedWords := by
  rcases names with _ | ⟨s, _ | ⟨u, rest⟩⟩
  · exact absurd rfl hne
  · exact hsingle s rfl
  · have hplain : ∀ w ∈ reservedWords, ('.' : CodePoint) ∉ w.toList := by decide
    intro hmem
    apply hplain _ hmem
    simp [Text.joinWith_cons_cons]

/-- A dotted name stands for a reference. -/
theorem ofWord_joinWith {names : List Text} (hne : names ≠ [])
    (hnames : ∀ s ∈ names, isIdentifier s.toList = true)
    (hsingle : ∀ s, names = [s] → s ∉ reservedWords) :
    ofWord (Text.joinWith "." names).toList = some (reference (names.map fun s => .scalar (.text s))) := by
  have hsplit : Text.splitAt '.' (Text.joinWith "." names).toList = names.map Text.toList :=
    Text.splitAt_joinWith hne fun s hs => dot_not_mem_of_isIdentifier (hnames s hs)
  have hreserved := joinWith_not_mem_reservedWords hne hsingle
  simp only [reservedWords, List.mem_append, List.mem_cons, List.not_mem_nil, or_false, not_or] at hreserved
  obtain ⟨hkeyword, hnull, htrue, hfalse⟩ := hreserved
  have hall : (names.map Text.toList).all isIdentifier = true := by simpa using hnames
  simp only [ofWord, Text.ofList_toList, List.contains_iff_mem, hkeyword, hnull, htrue, hfalse, hsplit,
    hall, if_true, if_false, List.map_map]
  simp [Function.comp_def]

/-- The end of a bare name holds only characters of names, a final line feed apart. -/
theorem all_isNamePart_of_isNameTail {cs : List CodePoint} (htail : isNameTail cs = true)
    (hlast : cs.getLast? ≠ some ('\n' : CodePoint)) : cs.all isNamePart = true := by
  fun_induction isNameTail cs with
  | case1 => rfl
  | case2 => exact absurd rfl hlast
  | case3 c rest _ ih =>
    rw [Bool.and_eq_true] at htail
    have hrest : rest.getLast? ≠ some ('\n' : CodePoint) := fun h => hlast (by simp [List.getLast?_cons, h])
    rw [List.all_cons, htail.1, ih htail.2 hrest, Bool.and_self]

/-- A bare name that does not end in a line feed is an identifier. -/
theorem isIdentifier_of_isBareName {word : List CodePoint} (hbare : isBareName word = true)
    (hlast : word.getLast? ≠ some ('\n' : CodePoint)) : isIdentifier word = true := by
  cases word with
  | nil => cases hbare
  | cons c rest =>
    rw [isBareName, Bool.and_eq_true] at hbare
    have hrest : rest.getLast? ≠ some ('\n' : CodePoint) := fun h => hlast (by simp [List.getLast?_cons, h])
    rw [isIdentifier, hbare.1, all_isNamePart_of_isNameTail hbare.2 hrest, Bool.and_self]

/-- A field name is printed from a character that starts a name or from a quote on. -/
theorem exists_cons_propertyName (s : Text) :
    ∃ c cs, (propertyName s).toList = c :: cs ∧ (isNameStart c = true ∨ c = '"') := by
  unfold propertyName
  split
  · rename_i hbare
    cases hs : s.toList with
    | nil => simp [hs, isBareName] at hbare
    | cons c cs =>
      rw [hs, isBareName, Bool.and_eq_true] at hbare
      exact ⟨c, cs, rfl, .inl hbare.1⟩
  · exact ⟨'"', _, Text.toList_quote s, .inr rfl⟩

/-- The name of a field is read up to its end. -/
theorem readName_propertyName {s : Text} (hlast : s.toList.getLast? ≠ some ('\n' : CodePoint))
    {rest : List CodePoint} (hrest : HeadIn [':', '?'] rest) :
    readName ((propertyName s).toList ++ rest) = some (s.merged, rest) := by
  unfold propertyName
  split
  · rename_i hbare
    have hword := isIdentifier_of_isBareName hbare hlast
    obtain ⟨c, cs, hcs, hc⟩ := exists_cons_of_isIdentifier hword
    have hquote : ('"' : CodePoint) ≠ c := (ne_of_isNameStart hc (by decide)).symm
    have hnone : expect ['"'] (s.toList ++ rest) = none := by simp [hcs, expect, hquote]
    simp only [readName, hnone, readIdentifier_append hword hrest (by decide), Text.ofList_toList,
      merged_of_isIdentifier hword]
  · simp [readName, Text.toList_quote, Text.unquote_escapeChars]

end SchemaTypes.TypeExpr
