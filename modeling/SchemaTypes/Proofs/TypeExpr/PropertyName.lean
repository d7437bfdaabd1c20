import SchemaTypes.Proofs.TypeExpr.Layout

/-!
# Property names

A property name is printed bare or quoted, and either way the token denotes the name: a bare one is the
name itself, an identifier, and a quoted one is read as the name. There are two exceptions. The test for bare
names lets a line feed pass at the end of a name, so an identifier with a line feed after it is printed as
it is. Its token is no identifier and no quoted text, and the line of its field breaks off after the name.
And two surrogates that make a pair are quoted like the character of the pair, which is what is read.
-/

namespace SchemaTypes.TypeExpr

open Text

/-- A token that denotes a name: the name itself, which is an identifier, or a quoted text that is read as
the name, up to its last character. -/
def Denotes (token name : Text) : Prop :=
  (token = name ∧ isIdentifier token.toList = true) ∨
    (token.toList.head? = some ('"' : CodePoint) ∧
      Json.readQuoted ⟨token.toList, 0⟩ = .ok (name, ⟨[], token.toList.length⟩))

/-- A name that breaks off: an identifier with a line feed after it. -/
def BreaksOff (name : Text) : Prop :=
  ∃ word, isIdentifier word = true ∧ name.toList = word ++ [('\n' : CodePoint)]

/-- The line of a field up to its type. -/
def fieldHead (level : Int) (field : Field TypeExpr) : List CodePoint :=
  (indentation level ++ modifier field.readOnly ++ fieldName field.name field.required ++ ": ").toList

variable {name : Text}

/-- Characters of names at the start do not matter for what may follow. -/
theorem isNameTail_append {word : List CodePoint} (h : word.all isNamePart = true) (rest : List CodePoint) :
    isNameTail (word ++ rest) = isNameTail rest := by
  induction word with
  | nil => rfl
  | cons c word ih =>
    rw [List.all_cons, Bool.and_eq_true] at h
    have hfeed : c ≠ '\n' := fun hc => absurd (hc ▸ h.1) (by decide)
    rw [List.cons_append, isNameTail, h.1, ih h.2, Bool.true_and]
    exact fun hc => absurd hc hfeed

/-- Only characters of names follow, or such characters and then one line feed. -/
theorem isNameTail_iff {cs : List CodePoint} :
    isNameTail cs = true ↔
      cs.all isNamePart = true ∨ ∃ word, word.all isNamePart = true ∧ cs = word ++ [('\n' : CodePoint)] := by
  constructor
  · intro htail
    fun_induction isNameTail cs with
    | case1 => exact Or.inl rfl
    | case2 => exact Or.inr ⟨[], rfl, rfl⟩
    | case3 c rest _ ih =>
      rw [Bool.and_eq_true] at htail
      rcases ih htail.2 with hall | ⟨word, hword, rfl⟩
      · exact Or.inl (by rw [List.all_cons, htail.1, hall, Bool.and_self])
      · exact Or.inr ⟨c :: word, by rw [List.all_cons, htail.1, hword, Bool.and_self], rfl⟩
  · rintro (hall | ⟨word, hword, rfl⟩)
    · rw [← List.append_nil cs, isNameTail_append hall]
      rfl
    · rw [isNameTail_append hword]
      rfl

/-- The names that stand bare are the identifiers and the names that break off. -/
theorem isBareName_iff : isBareName name.toList = true ↔ isIdentifier name.toList = true ∨ BreaksOff name := by
  unfold BreaksOff
  cases hname : name.toList with
  | nil => simp [isBareName, isIdentifier]
  | cons c rest =>
    rw [isBareName, isIdentifier, Bool.and_eq_true, Bool.and_eq_true, isNameTail_iff, and_or_left]
    refine or_congr_right ?_
    constructor
    · rintro ⟨hc, word, hword, rfl⟩
      exact ⟨c :: word, by rw [isIdentifier, hc, hword, Bool.and_self], rfl⟩
    · rintro ⟨word, hword, hrest⟩
      obtain ⟨d, cs, rfl, -⟩ := exists_cons_of_isIdentifier hword
      obtain ⟨rfl, rfl⟩ := List.cons.inj hrest
      rw [isIdentifier, Bool.and_eq_true] at hword
      exact ⟨hword.1, cs, hword.2, rfl⟩

/-- An identifier holds no line end. -/
theorem oneLine_of_isIdentifier {word : List CodePoint} (h : isIdentifier word = true) : OneLine word :=
  fun c hc => isLineEnd_eq_false (p := isNamePart) (by decide) (isNamePart_of_isIdentifier h c hc)

/-- A name that breaks off holds a line end. -/
theorem BreaksOff.not_oneLine (h : BreaksOff name) : ¬ OneLine name.toList := by
  obtain ⟨word, -, hname⟩ := h
  intro hline
  have hfeed := hline '\n' (by simp [hname])
  cases hfeed

/-- A name that breaks off is printed as it is. -/
theorem BreaksOff.propertyName_eq (h : BreaksOff name) : propertyName name = name := by
  rw [propertyName, if_pos (isBareName_iff.mpr (Or.inr h))]

/-- A name that does not break off is printed bare if it is an identifier and quoted otherwise. -/
theorem propertyName_eq (h : ¬ BreaksOff name) :
    propertyName name = if isIdentifier name.toList then name else quote name := by
  have hbare : isBareName name.toList = true ↔ isIdentifier name.toList = true :=
    isBareName_iff.trans (or_iff_left h)
  rw [propertyName, Bool.eq_iff_iff.mpr hbare]

/-- What starts with an identifier does not start with a quote. -/
theorem head?_ne_quote {word cs : List CodePoint} (h : isIdentifier word = true) (hcs : word <+: cs) :
    cs.head? ≠ some ('"' : CodePoint) := by
  obtain ⟨c, rest, rfl, hc⟩ := exists_cons_of_isIdentifier h
  obtain ⟨after, rfl⟩ := hcs
  intro hquote
  cases hquote
  cases hc

/-- An identifier denotes itself and nothing else. -/
theorem denotes_iff_of_isIdentifier {other : Text} (h : isIdentifier name.toList = true) :
    Denotes name other ↔ other = name := by
  constructor
  · rintro (⟨hname, -⟩ | ⟨hquote, -⟩)
    · exact hname.symm
    · exact absurd hquote (head?_ne_quote h List.prefix_rfl)
  · rintro rfl
    exact Or.inl ⟨rfl, h⟩

/-- A quoted text denotes the text that is read, and nothing else. -/
theorem denotes_quote_iff {other : Text} : Denotes (quote name) other ↔ other = name.merged := by
  have hquote : (quote name).toList.head? = some ('"' : CodePoint) := by
    rw [toList_quote]
    rfl
  constructor
  · rintro (⟨-, hidentifier⟩ | ⟨-, hread⟩)
    · exact absurd hquote (head?_ne_quote hidentifier List.prefix_rfl)
    · rw [readQuoted_quote] at hread
      cases hread
      rfl
  · rintro rfl
    exact Or.inr ⟨hquote, readQuoted_quote name⟩

/-- A name that breaks off denotes nothing. -/
theorem BreaksOff.not_denotes (h : BreaksOff name) (other : Text) : ¬ Denotes name other := by
  rintro (⟨-, hidentifier⟩ | ⟨hquote, -⟩)
  · exact h.not_oneLine (oneLine_of_isIdentifier hidentifier)
  · obtain ⟨word, hword, hname⟩ := h
    exact head?_ne_quote hword (hname ▸ List.prefix_append word _) hquote

/-- A property name denotes the name with its pairs replaced, and nothing else; if the name breaks off, it
denotes nothing at all. -/
theorem denotes_propertyName_iff (name other : Text) :
    Denotes (propertyName name) other ↔ ¬ BreaksOff name ∧ other = name.merged := by
  by_cases hbreaks : BreaksOff name
  · rw [hbreaks.propertyName_eq]
    exact iff_of_false (hbreaks.not_denotes other) fun h => h.1 hbreaks
  · rw [propertyName_eq hbreaks, and_iff_right hbreaks]
    split
    · rename_i hidentifier
      rw [denotes_iff_of_isIdentifier hidentifier, merged_of_isIdentifier hidentifier]
    · exact denotes_quote_iff

/-- A property name is printed on one line exactly if it does not break off. -/
theorem oneLine_propertyName_iff (name : Text) :
    OneLine (propertyName name).toList ↔ ¬ BreaksOff name := by
  constructor
  · intro hline hbreaks
    rw [hbreaks.propertyName_eq] at hline
    exact hbreaks.not_oneLine hline
  · intro hbreaks
    rw [propertyName_eq hbreaks]
    split
    · rename_i hidentifier
      exact oneLine_of_isIdentifier hidentifier
    · exact oneLine_quote name

/-- The line of a field stands on one line up to its type exactly if the name does not break off. -/
theorem oneLine_fieldHead_iff (level : Int) {field : Field TypeExpr} (hname : field.name = .text name) :
    OneLine (fieldHead level field) ↔ ¬ BreaksOff name := by
  have hmodifier : OneLine (modifier field.readOnly).toList := by cases field.readOnly <;> decide
  have hmark : OneLine (ofString (if field.required then "" else "?")).toList := by cases field.required <;> decide
  have hcolon : OneLine (": " : Text).toList := by decide
  have happend (cs rest : List CodePoint) : OneLine (cs ++ rest) ↔ OneLine cs ∧ OneLine rest :=
    List.forall_mem_append
  rw [fieldHead, hname, ← oneLine_propertyName_iff]
  simp only [fieldName, Text.toList_append, happend, oneLine_indentation, hmodifier, hmark, hcolon,
    and_true, true_and]

/-- The text of an object type holds the line of every field, after a line feed. -/
theorem exists_fieldHead {fields : List (Field TypeExpr)} {field : Field TypeExpr} (hfield : field ∈ fields)
    (index : Option (IndexSignature TypeExpr)) (level : Int) :
    ∃ before after, ((object fields index).print level).toList =
      before ++ ('\n' : CodePoint) :: (fieldHead (level + 1) field ++ after) := by
  obtain ⟨closing, -, htext⟩ := toList_block
    (fields.map (fieldLine (level + 1)) ++ index.toList.map (indexLine (level + 1))) level
  obtain ⟨front, rest, hlines⟩ := List.append_of_mem
    (List.mem_append_left (index.toList.map (indexLine (level + 1)))
      (List.mem_map_of_mem (f := fieldLine (level + 1)) hfield))
  have hline : (indentation (level + 1)).toList ++ (fieldLine (level + 1) field).toList =
      fieldHead (level + 1) field ++ (field.type.print (level + 1) ++ ";").toList := by
    simp [fieldHead, fieldLine]
  rw [print, printFields_eq, printIndex_eq, htext, hlines, List.flatMap_append, List.flatMap_cons,
    List.cons_append, hline]
  refine ⟨('\x7b' : CodePoint) ::
      front.flatMap (fun line => (('\n' : CodePoint) :: (indentation (level + 1)).toList) ++ line.toList),
    (field.type.print (level + 1) ++ ";").toList ++
      (rest.flatMap (fun line => (('\n' : CodePoint) :: (indentation (level + 1)).toList) ++ line.toList) ++
        (closing ++ [('\x7d' : CodePoint)])), ?_⟩
  simp only [List.append_assoc, List.cons_append]

/-- A property name is printed as a token that denotes the name, up to pairs of surrogates, on one line, and
the line of its field in an object type starts after a line feed and goes on to the type, unless the name is
an identifier with a line feed after it. Such a name is printed as it is: the token denotes nothing, and the
line breaks off. In every other name, a pair of surrogates is read as the character of the pair, so the token
denotes the name itself exactly if it has no pair. -/
theorem propertyName_denotes_iff (name : Text) :
    (Denotes (propertyName name) name ↔ ¬ BreaksOff name ∧ hasPair name.toList = false) ∧
      (∀ other, Denotes (propertyName name) other ↔ ¬ BreaksOff name ∧ other = name.merged) ∧
      (OneLine (propertyName name).toList ↔ ¬ BreaksOff name) ∧
      (BreaksOff name → propertyName name = name) ∧
      ∀ (fields : List (Field TypeExpr)) (index : Option (IndexSignature TypeExpr)) (level : Int),
        ∀ field ∈ fields, field.name = .text name →
          (∃ before after, ((object fields index).print level).toList =
            before ++ ('\n' : CodePoint) :: (fieldHead (level + 1) field ++ after)) ∧
            (OneLine (fieldHead (level + 1) field) ↔ ¬ BreaksOff name) := by
  refine ⟨?_, denotes_propertyName_iff name, oneLine_propertyName_iff name, fun h => h.propertyName_eq, ?_⟩
  · rw [denotes_propertyName_iff, ← merged_eq_self_iff, eq_comm]
  · intro fields index level field hfield hname
    exact ⟨exists_fieldHead hfield index level, oneLine_fieldHead_iff (level + 1) hname⟩

/-- A name with a hyphen is quoted. -/
theorem propertyName_denotes_iff_hyphen :
    propertyName "content-type" = "\"content-type\"" ∧
      Denotes (propertyName "content-type") "content-type" ∧
      OneLine (fieldHead 1 ⟨.text "content-type", keyword "string", true, false⟩) := by
  have hwhole : ¬ BreaksOff "content-type" := by
    rintro ⟨word, -, hname⟩
    have hlast := congrArg List.getLast? hname
    rw [List.getLast?_concat] at hlast
    exact absurd hlast (by decide)
  obtain ⟨hdenotes, -, -, -, hfields⟩ := propertyName_denotes_iff "content-type"
  have hhead := hfields [⟨.text "content-type", keyword "string", true, false⟩] none 0 _
    (List.mem_singleton_self _) rfl
  exact ⟨by decide, hdenotes.mpr ⟨hwhole, by decide⟩, hhead.2.mpr hwhole⟩

/-- An identifier with a line feed after it is printed as it is, over two lines, and two surrogates that make
a pair are printed like the character of the pair. -/
theorem propertyName_breaks_off :
    ¬ Denotes (propertyName "a\n") "a\n" ∧ ¬ OneLine (propertyName "a\n").toList ∧
      (object [⟨.text "a\n", keyword "string", false, false⟩] none).print 0 =
        "\x7b\n    a\n?: string;\n\x7d" ∧
      propertyName (.ofList [.surrogate 0x3d, .surrogate 0x600]) = propertyName "😀" := by
  have hbreaks : BreaksOff "a\n" := ⟨['a'], by decide, by decide⟩
  refine ⟨fun hdenotes => ((denotes_propertyName_iff _ _).mp hdenotes).1 hbreaks,
    fun hline => (oneLine_propertyName_iff _).mp hline hbreaks, ?_, ?_⟩
  · decide +kernel
  · decide +kernel

end SchemaTypes.TypeExpr
