import SchemaTypes.Proofs.Name.Identifier
import SchemaTypes.Proofs.Text.Join

/-!
# Names made from the words of a text

A text is cut into words where the case turns and at every character that is no ASCII letter or digit.
Underscores are put in where the case turns, and nothing else is changed before the text is cut, so the words
hold its letters and digits one after the other. Put together again, in camel case or as a slug, they differ
from them in case only.

A slug is groups of small letters and digits with one underscore between neighbours. Its words are its groups,
so it is its own slug.
-/

namespace SchemaTypes.Name

/-- The ASCII letters and digits of a text, in lower case. -/
def alphanumerics (s : Text) : List CodePoint := lowered (s.toList.filter CodePoint.isAlphanum)

/-- Characters of a slug between its underscores. -/
def isSlugChar (c : CodePoint) : Bool := c.isLower || c.isDigit

/-- A text that is made of groups of small letters and digits, none of them empty, with one underscore
between neighbours. -/
structure Grouped (groups : List (List CodePoint)) (s : Text) : Prop where
  some : groups ≠ []
  whole : ∀ group ∈ groups, group ≠ []
  plain : ∀ group ∈ groups, ∀ c ∈ group, isSlugChar c = true
  text : s = Text.joinWith "_" (groups.map Text.ofList)

variable {c : CodePoint} {cs word rest : List CodePoint} {s : Text} {groups : List (List CodePoint)}

/-! ### Case -/

/-- An ASCII letter or digit in lower case may stand in a slug. -/
theorem isSlugChar_toLower (h : c.isAlphanum = true) : isSlugChar c.toLower = true := by
  have hall : ∀ m < 128, (CodePoint.ofNat m).isAlphanum = true →
      isSlugChar (CodePoint.ofNat m).toLower = true := by
    decide
  exact forall_ascii (p := fun c => c.isAlphanum = true → isSlugChar c.toLower = true) hall
    (toNat_lt_of_isAlphanum h) h

/-- A character of a slug is an ASCII letter or digit. -/
theorem isAlphanum_of_isSlugChar (h : isSlugChar c = true) : c.isAlphanum = true := by
  rw [CodePoint.isAlphanum_iff]
  rcases Bool.or_eq_true_iff.mp h with hlower | hdigit
  · cases c with
    | scalar c => exact Or.inl (Bool.or_eq_true_iff.mpr (Or.inr hlower))
    | surrogate n => cases hlower
  · exact Or.inr hdigit

/-- A character of a slug is no capital, and it is in lower case already. -/
theorem isUpper_of_isSlugChar (h : isSlugChar c = true) : c.isUpper = false ∧ c.toLower = c := by
  have hall : ∀ m < 128, isSlugChar (CodePoint.ofNat m) = true →
      (CodePoint.ofNat m).isUpper = false ∧ (CodePoint.ofNat m).toLower = CodePoint.ofNat m := by decide
  exact forall_ascii (p := fun c => isSlugChar c = true → c.isUpper = false ∧ c.toLower = c) hall
    (toNat_lt_of_isAlphanum (isAlphanum_of_isSlugChar h)) h

/-- The case of a letter does not matter for its lower case. -/
theorem toLower_toUpper (h : c.isAlphanum = true) : c.toUpper.toLower = c.toLower := by
  have hall : ∀ m < 128, (CodePoint.ofNat m).toUpper.toLower = (CodePoint.ofNat m).toLower := by decide
  exact forall_ascii (p := fun c => c.toUpper.toLower = c.toLower) hall (toNat_lt_of_isAlphanum h)

/-- A group of a slug is in lower case already. -/
theorem lowered_of_isSlugChar (h : ∀ c ∈ word, isSlugChar c = true) : lowered word = word := by
  rw [lowered, List.map_congr_left fun c hc => (isUpper_of_isSlugChar (h c hc)).2, List.map_id']

/-- A word of letters and digits in lower case may stand in a slug. -/
theorem isSlugChar_lowered (h : ∀ c ∈ word, c.isAlphanum = true) : ∀ c ∈ lowered word, isSlugChar c = true := by
  intro c hc
  obtain ⟨d, hd, rfl⟩ := List.mem_map.mp hc
  exact isSlugChar_toLower (h d hd)

/-- Lower case of two texts in a row. -/
theorem lowered_append (cs rest : List CodePoint) : lowered (cs ++ rest) = lowered cs ++ lowered rest :=
  List.map_append

/-- A word of letters and digits differs from the capitalised one in case only. -/
theorem lowered_capitalized (h : ∀ c ∈ word, c.isAlphanum = true) : lowered (capitalized word) = lowered word := by
  cases word with
  | nil => rfl
  | cons c rest =>
    obtain ⟨hc, hrest⟩ := List.forall_mem_cons.mp h
    have hlower : lowered (lowered rest) = lowered rest := lowered_of_isSlugChar (isSlugChar_lowered hrest)
    change c.toUpper.toLower :: lowered (lowered rest) = c.toLower :: lowered rest
    rw [toLower_toUpper hc, hlower]

/-- Words of letters and digits differ from the capitalised ones in case only. -/
theorem lowered_flatten_capitalized {words : List (List CodePoint)}
    (h : ∀ word ∈ words, ∀ c ∈ word, c.isAlphanum = true) :
    lowered (words.map capitalized).flatten = lowered words.flatten := by
  induction words with
  | nil => rfl
  | cons word others ih =>
    obtain ⟨hword, hothers⟩ := List.forall_mem_cons.mp h
    rw [List.map_cons, List.flatten_cons, List.flatten_cons, lowered_append, lowered_append,
      lowered_capitalized hword, ih hothers]

/-! ### Words -/

/-- A separator belongs to no word. -/
theorem pieces_separator (h : c.isAlphanum = false) : pieces (c :: rest) = pieces rest := by
  rw [pieces.eq_def]
  simp [h]

/-- A letter or digit before a separator or at the end is the last of its word. -/
theorem pieces_last (hc : c.isAlphanum = true) (hrest : ∀ d ∈ rest.head?, d.isAlphanum = false) :
    pieces (c :: rest) = [c] :: pieces rest := by
  cases rest with
  | nil => simp [pieces, hc]
  | cons d rest => simp [pieces, hc, hrest d rfl]

/-- A letter or digit before another one belongs to its word. -/
theorem pieces_cons {d : CodePoint} (hc : c.isAlphanum = true) (hd : d.isAlphanum = true) :
    pieces (c :: d :: rest) = Text.consPiece c (pieces (d :: rest)) := by
  rw [pieces, if_pos hc]
  simp [hd]

/-- A row of letters and digits before a separator or at the end is a word. -/
theorem pieces_append (hne : word ≠ []) (hword : ∀ c ∈ word, c.isAlphanum = true)
    (hrest : ∀ d ∈ rest.head?, d.isAlphanum = false) : pieces (word ++ rest) = word :: pieces rest := by
  induction word with
  | nil => exact absurd rfl hne
  | cons c others ih =>
    obtain ⟨hc, hothers⟩ := List.forall_mem_cons.mp hword
    cases others with
    | nil => exact pieces_last hc hrest
    | cons d others =>
      have hd : d.isAlphanum = true := hothers d List.mem_cons_self
      rw [List.cons_append, List.cons_append, pieces_cons hc hd, ← List.cons_append,
        ih (List.cons_ne_nil d others) hothers, Text.consPiece_cons]

/-- The words of a text hold its letters and digits one after the other. -/
theorem flatten_pieces (cs : List CodePoint) : (pieces cs).flatten = cs.filter CodePoint.isAlphanum := by
  induction cs with
  | nil => rfl
  | cons c rest ih =>
    rcases pieces_cons_cases c rest with ⟨hc, hpieces⟩ | ⟨hc, hpieces⟩ | ⟨hc, first, others, hrest, hpieces⟩
    · rw [hpieces, ih, List.filter_cons_of_neg (by simp [hc])]
    · rw [hpieces, List.filter_cons_of_pos hc, List.flatten_cons, ih, List.singleton_append]
    · rw [hpieces, List.filter_cons_of_pos hc, ← ih, hrest, List.flatten_cons, List.flatten_cons, List.cons_append]

/-- No word is empty. -/
theorem ne_nil_of_mem_pieces (cs : List CodePoint) : ∀ word ∈ pieces cs, word ≠ [] := by
  induction cs with
  | nil => exact List.forall_mem_nil _
  | cons c rest ih =>
    rcases pieces_cons_cases c rest with ⟨-, hpieces⟩ | ⟨-, hpieces⟩ | ⟨-, first, others, hrest, hpieces⟩
    · rw [hpieces]
      exact ih
    · rw [hpieces]
      exact List.forall_mem_cons.mpr ⟨List.cons_ne_nil c [], ih⟩
    · rw [hrest] at ih
      rw [hpieces]
      exact List.forall_mem_cons.mpr ⟨List.cons_ne_nil c first, (List.forall_mem_cons.mp ih).2⟩

/-! ### Turns of the case -/

/-- Marking the turns of the case changes no letter or digit. -/
theorem filter_markTurns (turns : CodePoint → CodePoint → List CodePoint → Bool) (cs : List CodePoint) :
    (markTurns turns cs).filter CodePoint.isAlphanum = cs.filter CodePoint.isAlphanum := by
  have hmark : CodePoint.isAlphanum '_' = false := by decide
  induction cs with
  | nil => rfl
  | cons c rest ih =>
    cases rest with
    | nil => rfl
    | cons d rest =>
      rw [markTurns]
      split_ifs
      · rw [List.filter_cons, List.filter_cons_of_neg (by simp [hmark]), ih, ← List.filter_cons]
      · rw [List.filter_cons, ih, ← List.filter_cons]

/-- There is nothing to mark in a text without capitals if the case turns at capitals only. -/
theorem markTurns_eq_self {turns : CodePoint → CodePoint → List CodePoint → Bool}
    (hturns : ∀ c d rest, turns c d rest = true → d.isUpper = true) (h : ∀ c ∈ cs, c.isUpper = false) :
    markTurns turns cs = cs := by
  induction cs with
  | nil => rfl
  | cons c rest ih =>
    have hrest := (List.forall_mem_cons.mp h).2
    cases rest with
    | nil => rfl
    | cons d rest =>
      have hturn : ¬ turns c d rest = true := by
        intro hturn
        have hupper := hturns c d rest hturn
        rw [hrest d List.mem_cons_self] at hupper
        cases hupper
      rw [markTurns, if_neg hturn, ih hrest]

/-- The words of a text hold its letters and digits one after the other, also where the case turns. -/
theorem flatten_words (s : Text) : (words s).flatten = s.toList.filter CodePoint.isAlphanum := by
  rw [words, flatten_pieces, filter_markTurns, filter_markTurns]

/-- The words of a text are made of letters and digits. -/
theorem isAlphanum_words (s : Text) : ∀ word ∈ words s, ∀ c ∈ word, c.isAlphanum = true := isAlphanum_pieces _

/-- A text has words if it has a letter or a digit. -/
theorem words_ne_nil (h : s.toList.any CodePoint.isAlphanum = true) : words s ≠ [] := by
  intro hnil
  obtain ⟨c, hc, halphanum⟩ := List.any_eq_true.mp h
  have hmem : c ∈ (words s).flatten := by
    rw [flatten_words]
    exact List.mem_filter.mpr ⟨hc, halphanum⟩
  rw [hnil] at hmem
  cases hmem

/-- A text without letters and digits has no words. -/
theorem words_eq_nil (h : ¬ s.toList.any CodePoint.isAlphanum = true) : words s = [] := by
  have hflatten : (words s).flatten = [] := by
    rw [flatten_words]
    apply List.filter_eq_nil_iff.mpr
    intro c hc halphanum
    exact h (List.any_eq_true.mpr ⟨c, hc, halphanum⟩)
  apply List.eq_nil_iff_forall_not_mem.mpr
  intro word hword
  exact ne_nil_of_mem_pieces _ word hword (List.flatten_eq_nil_iff.mp hflatten word hword)

/-! ### Camel case -/

/-- A name in camel case starts with no capital. -/
theorem isUpper_head_camelCase (s : Text) : ∀ c ∈ (camelCase s).toList.head?, c.isUpper = false := by
  intro c hc
  have hpieces := isAlphanum_words s
  have hwhole : ∀ word ∈ words s, word ≠ [] := ne_nil_of_mem_pieces _
  rw [camelCase] at hc
  cases hwords : words s with
  | nil =>
    rw [hwords] at hc
    cases hc
  | cons first others =>
    rw [hwords] at hc hpieces hwhole
    have hslug := isSlugChar_lowered (hpieces first List.mem_cons_self)
    obtain ⟨d, tail, rfl⟩ := List.exists_cons_of_ne_nil (hwhole first List.mem_cons_self)
    cases hc
    exact (isUpper_of_isSlugChar (hslug d.toLower List.mem_cons_self)).1

/-- A name in camel case has the letters and digits of the text, up to case. -/
theorem lowered_camelCase (s : Text) : lowered (camelCase s).toList = alphanumerics s := by
  have hpieces := isAlphanum_words s
  rw [alphanumerics, ← flatten_words, camelCase]
  cases hwords : words s with
  | nil => rfl
  | cons first others =>
    rw [hwords] at hpieces
    obtain ⟨hfirst, hothers⟩ := List.forall_mem_cons.mp hpieces
    dsimp only
    rw [lowered_append, lowered_flatten_capitalized hothers,
      lowered_of_isSlugChar (isSlugChar_lowered hfirst), List.flatten_cons, lowered_append]

/-! ### Slugs -/

/-- The words of a text in lower case are groups of its slug. -/
theorem grouped_slug (h : words s ≠ []) (fallback : Text) :
    Grouped ((words s).map lowered) (slug s fallback) := by
  have hpieces := isAlphanum_words s
  have hwhole : ∀ word ∈ words s, word ≠ [] := ne_nil_of_mem_pieces _
  constructor
  · simpa using h
  · intro group hgroup
    obtain ⟨word, hword, rfl⟩ := List.mem_map.mp hgroup
    simpa [lowered] using hwhole word hword
  · intro group hgroup
    obtain ⟨word, hword, rfl⟩ := List.mem_map.mp hgroup
    exact isSlugChar_lowered (hpieces word hword)
  · rw [slug, slug?]
    cases hwords : words s with
    | nil => exact absurd hwords h
    | cons first others =>
      rw [List.map_map]
      rfl

/-- The groups of the slug of a text hold its letters and digits in lower case. -/
theorem flatten_lowered_words (s : Text) : ((words s).map lowered).flatten = alphanumerics s := by
  rw [alphanumerics, ← flatten_words]
  exact List.map_flatten.symm

/-- The words of groups with underscores between them are the groups. -/
theorem pieces_joinWith (hwhole : ∀ group ∈ groups, group ≠ [])
    (halphanum : ∀ group ∈ groups, ∀ c ∈ group, c.isAlphanum = true) :
    pieces (Text.joinWith "_" (groups.map Text.ofList)).toList = groups := by
  have hmark : CodePoint.isAlphanum '_' = false := by decide
  induction groups with
  | nil => rfl
  | cons group others ih =>
    obtain ⟨hgroup, hrest⟩ := List.forall_mem_cons.mp hwhole
    obtain ⟨hchars, hothers⟩ := List.forall_mem_cons.mp halphanum
    cases others with
    | nil =>
      have hword : pieces (group ++ []) = group :: pieces [] := pieces_append hgroup hchars (by simp)
      rw [List.map_singleton, Text.joinWith_singleton, Text.toList_ofList, ← List.append_nil group, hword,
        List.append_nil, pieces]
    | cons next others =>
      have htext : (Text.joinWith "_" ((group :: next :: others).map Text.ofList)).toList =
          group ++ ('_' : CodePoint) :: (Text.joinWith "_" ((next :: others).map Text.ofList)).toList := by
        simp [Text.joinWith_cons_cons]
      rw [htext, pieces_append hgroup hchars (by simp [hmark]), pieces_separator hmark, ih hrest hothers]

namespace Grouped

/-- There are no capitals in a slug. -/
theorem isUpper (h : Grouped groups s) : ∀ c ∈ s.toList, c.isUpper = false := by
  rw [h.text]
  have hmark : ∀ c ∈ ("_" : Text).toList, c.isUpper = false := List.forall_mem_singleton.mpr (by decide)
  refine Text.forall_mem_joinWith hmark fun part hpart => ?_
  obtain ⟨group, hgroup, rfl⟩ := List.mem_map.mp hpart
  rw [Text.toList_ofList]
  exact fun c hc => (isUpper_of_isSlugChar (h.plain group hgroup c hc)).1

/-- The words of a slug are its groups. -/
theorem words_eq (h : Grouped groups s) : words s = groups := by
  have hrises : markTurns rises s.toList = s.toList :=
    markTurns_eq_self (fun c d rest hturn => (Bool.and_eq_true_iff.mp hturn).2) h.isUpper
  have hfalls : markTurns falls s.toList = s.toList :=
    markTurns_eq_self (fun c d rest hturn =>
      (Bool.and_eq_true_iff.mp (Bool.and_eq_true_iff.mp hturn).1).2) h.isUpper
  rw [words, hrises, hfalls, h.text]
  exact pieces_joinWith h.whole fun group hgroup c hc => isAlphanum_of_isSlugChar (h.plain group hgroup c hc)

/-- A slug is its own slug. -/
theorem slug_eq (h : Grouped groups s) (fallback : Text) : slug s fallback = s := by
  have hwords := h.words_eq
  have hlowered : groups.map lowered = groups := by
    rw [List.map_congr_left fun group hgroup => lowered_of_isSlugChar (h.plain group hgroup), List.map_id']
  have hslug := (grouped_slug (hwords ▸ h.some) fallback).text
  rw [hslug, hwords, hlowered, ← h.text]

end Grouped

/-- The slug of a text is its own slug if the fallback is. -/
theorem slug_slug {fallback : Text} (hfallback : slug fallback fallback = fallback) (s : Text) :
    slug (slug s fallback) fallback = slug s fallback := by
  by_cases h : words s = []
  · have hslug : slug s fallback = fallback := by
      rw [slug, slug?, h]
      rfl
    rw [hslug, hfallback]
  · exact (grouped_slug h fallback).slug_eq fallback

/-- Names made from the words of a text keep exactly its ASCII letters and digits. In camel case they stand
alone, the first of them no capital. A slug has them in lower case, in groups with one underscore between
neighbours, or it is the fallback if there are none; and a slug is its own slug. -/
theorem names_keep_alphanumerics (s fallback : Text) :
    ((∀ c ∈ (camelCase s).toList, c.isAlphanum = true) ∧
        (∀ c ∈ (camelCase s).toList.head?, c.isUpper = false) ∧
        lowered (camelCase s).toList = alphanumerics s) ∧
      (if s.toList.any CodePoint.isAlphanum then
        ∃ groups, Grouped groups (slug s fallback) ∧ groups.flatten = alphanumerics s
      else slug s fallback = fallback) ∧
      slug (slug s "operation") "operation" = slug s "operation" := by
  refine ⟨⟨isAlphanum_camelCase s, isUpper_head_camelCase s, lowered_camelCase s⟩, ?_, ?_⟩
  · split_ifs with h
    · exact ⟨_, grouped_slug (words_ne_nil h) fallback, flatten_lowered_words s⟩
    · rw [slug, slug?, words_eq_nil h]
      rfl
  · exact slug_slug (by decide) s

/-- Words are told apart by hyphens and where the case turns, also at the end of capitals in a row. -/
theorem names_keep_alphanumerics_capitals :
    camelCase "HTTPServer-ID" = "httpServerId" ∧ 'h'.isUpper = false ∧
      lowered ("httpServerId" : Text).toList = alphanumerics "HTTPServer-ID" ∧
      ∃ groups, Grouped groups "http_server_id" ∧ groups.flatten = alphanumerics "HTTPServer-ID" := by
  have hcamel : camelCase "HTTPServer-ID" = "httpServerId" := by decide
  have hslug : slug "HTTPServer-ID" "" = "http_server_id" := by decide
  obtain ⟨⟨-, hhead, hlowered⟩, hgroups, -⟩ := names_keep_alphanumerics "HTTPServer-ID" ""
  rw [hcamel] at hhead hlowered
  rw [if_pos (by decide), hslug] at hgroups
  exact ⟨hcamel, hhead 'h' (by decide), hlowered, hgroups⟩

end SchemaTypes.Name
