import Mathlib.Data.List.Chain
import SchemaTypes.Proofs.Name.Identifier

/-!
# Identifiers are a normal form

A text is normal if it starts with no small letter and none of its letters stands right behind a separator.
The identifier made from a text is normal, and a normal text is its own identifier. So making an identifier a
second time changes nothing, although runs of separators may be left in it.

What a text is made of are its letters, whatever their case, and its digits. The identifier is made of the
same ones in the same order.
-/

namespace SchemaTypes.Name

/-- The second of two neighbours is no letter if the first is a separator. -/
def MayStandBehind (c d : CodePoint) : Prop := isSeparator c = true → isLetter d = false

/-- A text that starts with no small letter and has no letter right behind a separator. -/
structure Normal (cs : List CodePoint) : Prop where
  raised : ∀ c ∈ cs.head?, isLetter c = true → raise c = c
  joined : cs.IsChain MayStandBehind

/-- What a text is made of: its letters in upper case and its digits, in order. -/
def substance (cs : List CodePoint) : List CodePoint :=
  (cs.filter fun c => !isSeparator c).map fun c => if isLetter c then raise c else c

variable {c : CodePoint} {cs run : List CodePoint}

/-- An ASCII letter in upper case stays as it is. -/
theorem toUpper_toUpper_of_isAlpha (h : c.isAlpha = true) : c.toUpper.toUpper = c.toUpper := by
  have hascii : c.toNat < 128 := toNat_lt_of_isAlphanum (CodePoint.isAlphanum_iff.mpr (Or.inl h))
  exact forall_ascii (p := fun c => c.toUpper.toUpper = c.toUpper) (by decide) hascii

/-- A raised letter stays as it is. -/
theorem raise_raise (h : isLetter c = true) : raise (raise c) = raise c := by
  simp only [isLetter, Bool.or_eq_true, decide_eq_true_eq] at h
  rcases h with (((halpha | rfl) | rfl) | rfl) | rfl
  · have hplain {d : CodePoint} (hd : d.isAlpha = true) : raise d = d.toUpper := by
      have hrange := isAlpha_iff.mp hd
      have hdotless : d ≠ '\u0131' := by
        rintro rfl
        exact absurd hrange (by decide)
      have hlong : d ≠ '\u017f' := by
        rintro rfl
        exact absurd hrange (by decide)
      rw [raise, if_neg hdotless, if_neg hlong]
    rw [hplain halpha, hplain (isAlpha_toUpper halpha), toUpper_toUpper_of_isAlpha halpha]
  all_goals decide

/-- A letter is no separator. -/
theorem isSeparator_of_isLetter (h : isLetter c = true) : isSeparator c = false := by
  simp [isSeparator, h]

section Step

variable {rest : List CodePoint}

/-- A separator is passed and remembered. -/
theorem dropSeparators_separator (h : isSeparator c = true) :
    dropSeparators run (c :: rest) = dropSeparators (c :: run) rest := by
  rw [dropSeparators, if_pos h]

/-- A letter takes the place of the separators passed before it, and is raised if there are any. -/
theorem dropSeparators_letter (h : isLetter c = true) :
    dropSeparators run (c :: rest) = (if run.isEmpty then c else raise c) :: dropSeparators [] rest := by
  rw [dropSeparators, if_neg (by simp [isSeparator_of_isLetter h]), if_pos h]

/-- A digit leaves the separators passed before it where they are. -/
theorem dropSeparators_digit (hseparator : ¬ isSeparator c = true) (hletter : ¬ isLetter c = true) :
    dropSeparators run (c :: rest) = run.reverse ++ c :: dropSeparators [] rest := by
  rw [dropSeparators, if_neg hseparator, if_neg hletter]

end Step

/-- Everything may stand behind what is no separator. -/
theorem isChain_cons_of_not_isSeparator (hc : ¬ isSeparator c = true) (h : cs.IsChain MayStandBehind) :
    (c :: cs).IsChain MayStandBehind :=
  h.cons fun _ _ hseparator => absurd hseparator hc

/-- A letter stays one whether it is raised or not. -/
theorem isLetter_ite_raise (h : isLetter c = true) (p : Prop) [Decidable p] :
    isLetter (if p then c else raise c) = true := by
  split_ifs
  · exact h
  · exact isLetter_raise h

/-- A separator is not what a text is made of. -/
theorem substance_separator (h : isSeparator c = true) : substance (c :: cs) = substance cs := by
  rw [substance, List.filter_cons_of_neg (by simp [h]), substance]

/-- A letter counts in upper case. -/
theorem substance_letter (h : isLetter c = true) : substance (c :: cs) = raise c :: substance cs := by
  rw [substance, List.filter_cons_of_pos (by simp [isSeparator_of_isLetter h]), List.map_cons, if_pos h,
    substance]

/-- A digit counts as it is. -/
theorem substance_digit (hseparator : ¬ isSeparator c = true) (hletter : ¬ isLetter c = true) :
    substance (c :: cs) = c :: substance cs := by
  rw [substance, List.filter_cons_of_pos (by simp [hseparator]), List.map_cons, if_neg hletter, substance]

section Run

variable (hrun : ∀ c ∈ run, isSeparator c = true)
include hrun

/-- Separators may stand behind each other. -/
theorem isChain_reverse_run : run.reverse.IsChain MayStandBehind := by
  refine (List.pairwise_of_forall_mem_list fun c _ d hd _ => ?_).isChain
  exact (isSeparator_eq_true.mp (hrun d (List.mem_reverse.mp hd))).1

/-- Dropping separators leaves no letter right behind one. -/
theorem isChain_dropSeparators : (dropSeparators run cs).IsChain MayStandBehind := by
  induction cs generalizing run with
  | nil =>
    rw [dropSeparators]
    exact isChain_reverse_run hrun
  | cons c rest ih =>
    have hrest : (dropSeparators [] rest).IsChain MayStandBehind := ih (List.forall_mem_nil _)
    by_cases hseparator : isSeparator c = true
    · rw [dropSeparators_separator hseparator]
      exact ih (List.forall_mem_cons.mpr ⟨hseparator, hrun⟩)
    by_cases hletter : isLetter c = true
    · rw [dropSeparators_letter hletter]
      refine isChain_cons_of_not_isSeparator ?_ hrest
      simp [isSeparator_of_isLetter (isLetter_ite_raise hletter _)]
    · rw [dropSeparators_digit hseparator hletter]
      refine (isChain_reverse_run hrun).append (isChain_cons_of_not_isSeparator hseparator hrest) ?_
      intro last _ first hfirst _
      cases hfirst
      simpa using hletter

/-- A run of separators starts with no small letter. -/
theorem raised_run (hne : run ≠ []) (rest : List CodePoint) :
    ∀ c ∈ (run.reverse ++ rest).head?, isLetter c = true → raise c = c := by
  intro c hc hletter
  rw [List.head?_append_of_ne_nil _ (by simpa using hne)] at hc
  have hseparator := hrun c (List.mem_reverse.mp (List.mem_of_mem_head? hc))
  exact absurd rfl (ne_of_isLetter hseparator hletter)

/-- What is left of a text that starts with separators starts with no small letter. -/
theorem raised_dropSeparators (hne : run ≠ []) :
    ∀ c ∈ (dropSeparators run cs).head?, isLetter c = true → raise c = c := by
  induction cs generalizing run with
  | nil =>
    rw [dropSeparators, ← List.append_nil run.reverse]
    exact raised_run hrun hne []
  | cons d rest ih =>
    by_cases hseparator : isSeparator d = true
    · rw [dropSeparators_separator hseparator]
      exact ih (List.forall_mem_cons.mpr ⟨hseparator, hrun⟩) (List.cons_ne_nil d run)
    by_cases hletter : isLetter d = true
    · rw [dropSeparators_letter hletter, if_neg (by simpa using hne)]
      rintro c ⟨⟩ -
      exact raise_raise hletter
    · rw [dropSeparators_digit hseparator hletter]
      exact raised_run hrun hne _

/-- Nothing is dropped where no letter stands right behind a separator. -/
theorem dropSeparators_of_isChain (h : (run.reverse ++ cs).IsChain MayStandBehind) :
    dropSeparators run cs = run.reverse ++ cs := by
  induction cs generalizing run with
  | nil => rw [dropSeparators, List.append_nil]
  | cons c rest ih =>
    have hrest : dropSeparators [] rest = rest :=
      ih (List.forall_mem_nil _) h.right_of_append.tail
    by_cases hseparator : isSeparator c = true
    · have hlonger : (c :: run).reverse ++ rest = run.reverse ++ c :: rest := by simp
      rw [dropSeparators_separator hseparator, ← hlonger]
      exact ih (List.forall_mem_cons.mpr ⟨hseparator, hrun⟩) (hlonger ▸ h)
    by_cases hletter : isLetter c = true
    · cases run with
      | nil => rw [dropSeparators_letter hletter, hrest]; rfl
      | cons last run =>
        -- The separator passed last would stand right before the letter.
        rw [List.reverse_cons, List.append_assoc, List.singleton_append] at h
        have hbehind : MayStandBehind last c := (List.isChain_append_cons_cons.mp h).2.1
        rw [hbehind (hrun last List.mem_cons_self)] at hletter
        cases hletter
    · rw [dropSeparators_digit hseparator hletter, hrest]

/-- Separators are not what a text is made of. -/
theorem substance_run (rest : List CodePoint) : substance (run.reverse ++ rest) = substance rest := by
  have hnone : run.reverse.filter (fun c => !isSeparator c) = [] :=
    List.filter_eq_nil_iff.mpr fun c hc => by simp [hrun c (List.mem_reverse.mp hc)]
  rw [substance, List.filter_append, hnone, List.nil_append, substance]

/-- Dropping separators leaves what the text is made of. -/
theorem substance_dropSeparators : substance (dropSeparators run cs) = substance cs := by
  induction cs generalizing run with
  | nil =>
    rw [dropSeparators, ← List.append_nil run.reverse]
    exact substance_run hrun []
  | cons c rest ih =>
    have hrest : substance (dropSeparators [] rest) = substance rest := ih (List.forall_mem_nil _)
    by_cases hseparator : isSeparator c = true
    · rw [dropSeparators_separator hseparator, substance_separator hseparator]
      exact ih (List.forall_mem_cons.mpr ⟨hseparator, hrun⟩)
    by_cases hletter : isLetter c = true
    · rw [dropSeparators_letter hletter, substance_letter (isLetter_ite_raise hletter _),
        substance_letter hletter, hrest]
      split_ifs
      · rfl
      · rw [raise_raise hletter]
    · rw [dropSeparators_digit hseparator hletter, substance_run hrun, substance_digit hseparator hletter,
        substance_digit hseparator hletter, hrest]

end Run

/-- The identifier made from a text is normal. -/
theorem normal_identifierChars (cs : List CodePoint) : Normal (identifierChars cs) := by
  cases cs with
  | nil =>
    refine ⟨?_, List.isChain_nil⟩
    rintro c ⟨⟩
  | cons c rest =>
    have hnone : ∀ c ∈ ([] : List CodePoint), isSeparator c = true := List.forall_mem_nil _
    rw [identifierChars]
    split_ifs with hletter
    · refine ⟨?_, isChain_cons_of_not_isSeparator ?_ (isChain_dropSeparators hnone)⟩
      · rintro d ⟨⟩ -
        exact raise_raise hletter
      · simp [isSeparator_of_isLetter (isLetter_raise hletter)]
    · refine ⟨?_, isChain_dropSeparators hnone⟩
      by_cases hseparator : isSeparator c = true
      · rw [dropSeparators_separator hseparator]
        exact raised_dropSeparators (List.forall_mem_singleton.mpr hseparator) (List.cons_ne_nil c [])
      · rw [dropSeparators_digit hseparator hletter]
        rintro d ⟨⟩ hd
        exact absurd hd hletter

/-- A normal text is its own identifier. -/
theorem Normal.identifierChars_eq (h : Normal cs) : identifierChars cs = cs := by
  cases cs with
  | nil => rfl
  | cons c rest =>
    rw [identifierChars]
    split_ifs with hletter
    · rw [h.raised c rfl hletter, dropSeparators_of_isChain (List.forall_mem_nil _) h.joined.tail]
      rfl
    · exact dropSeparators_of_isChain (List.forall_mem_nil _) h.joined

/-- The texts that are their own identifiers are the normal ones. -/
theorem identifier_eq_self_iff {s : Text} : identifier s = s ↔ Normal s.toList := by
  constructor
  · intro h
    rw [← h, identifier, Text.toList_ofList]
    exact normal_identifierChars s.toList
  · intro h
    rw [identifier, h.identifierChars_eq, Text.ofList_toList]

/-- The identifier made from a text is made of the same letters and digits. -/
theorem substance_identifierChars (cs : List CodePoint) : substance (identifierChars cs) = substance cs := by
  cases cs with
  | nil => rfl
  | cons c rest =>
    rw [identifierChars]
    split_ifs with hletter
    · rw [substance_letter (isLetter_raise hletter), substance_letter hletter, raise_raise hletter,
        substance_dropSeparators (List.forall_mem_nil _)]
    · exact substance_dropSeparators (List.forall_mem_nil _)

/-- Identifiers are a normal form. An identifier is its own identifier; it starts with no small letter and
has no letter right behind a separator; and it is made of the letters and digits of the text, none of them
lost, added or moved. -/
theorem identifier_normalises (s : Text) :
    identifier (identifier s) = identifier s ∧
      (∀ c ∈ (identifier s).toList.head?, isLetter c = true → raise c = c) ∧
      (identifier s).toList.IsChain (fun c d => isSeparator c = true → isLetter d = false) ∧
      substance (identifier s).toList = substance s.toList := by
  have hchars : (identifier s).toList = identifierChars s.toList := Text.toList_ofList _
  have hnormal : Normal (identifier s).toList := hchars ▸ normal_identifierChars s.toList
  exact ⟨identifier_eq_self_iff.mpr hnormal, hnormal.raised, hnormal.joined,
    hchars ▸ substance_identifierChars s.toList⟩

/-- A run before a digit stays, one before a letter goes, and letters outside ASCII are raised to ASCII ones. -/
theorem identifier_normalises_runs :
    identifier "\u0131d--2-x" = "Id--2X" ∧ identifier "Id--2X" = "Id--2X" ∧ raise 'I' = 'I' ∧
      substance ("Id--2X" : Text).toList = substance ("\u0131d--2-x" : Text).toList := by
  have hidentifier : identifier "\u0131d--2-x" = "Id--2X" := by decide
  obtain ⟨hagain, hraised, -, hsubstance⟩ := identifier_normalises "\u0131d--2-x"
  rw [hidentifier] at hagain hraised hsubstance
  exact ⟨hidentifier, hagain, hraised 'I' (by decide) (by decide), hsubstance⟩

end SchemaTypes.Name
