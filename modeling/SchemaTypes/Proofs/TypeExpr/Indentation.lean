import SchemaTypes.Proofs.Text.Shift
import SchemaTypes.Proofs.TypeExpr.PropertyName
import SchemaTypes.Proofs.TypeExpr.WellFormed

/-!
# The nesting depth shifts a text

The text of a type at a greater nesting depth is its text at a smaller one, shifted to the right: behind
every line feed there are more blanks, four for each level, and nothing else is different. For line feeds come
into the text around the members of object types only, and there the indentation follows them, whatever other
types the object type stands in.

This takes names that do not break lines. A keyword, the parts of a reference and the key of an index signature
are printed as they are and must not hold a line feed. The name of a field must not end in one: every other
line feed is quoted.
-/

namespace SchemaTypes.TypeExpr

open Text

/-- The names that a type holds outside its parts break no line: names that are printed as they are hold no
line feed, and names of fields do not end in one. -/
def HoldsUnbroken : TypeExpr → Prop
  | keyword name => ('\n' : CodePoint) ∉ name.toList
  | literal _ => True
  | nonNull _ => True
  | array _ => True
  | object fields index =>
    (∀ field ∈ fields, ∀ s, field.name = .text s → s.toList.getLast? ≠ some ('\n' : CodePoint)) ∧
      ∀ signature ∈ index, ('\n' : CodePoint) ∉ signature.key.toList
  | reference names => ∀ s : Text, .text s ∈ names → ('\n' : CodePoint) ∉ s.toList
  | union _ => True
  | intersection _ => True

/-- No name inside a type breaks a line. -/
def Unbroken (t : TypeExpr) : Prop := ∀ inner, Occurs inner t → HoldsUnbroken inner

/-- No name inside a type breaks a line if none does that it holds itself or that is inside its parts. -/
theorem unbroken_iff {t : TypeExpr} : Unbroken t ↔ HoldsUnbroken t ∧ ∀ part ∈ t.parts, Unbroken part :=
  forall_occurs_iff

/-- A text on one line holds no line feed. -/
theorem newline_not_mem {cs : List CodePoint} (h : OneLine cs) : ('\n' : CodePoint) ∉ cs := by
  intro hmem
  cases h '\n' hmem

/-- The indentation of a nesting depth stays where it is. -/
theorem shift_indentation (blanks : Nat) (level : Int) : shift blanks (indentation level) = indentation level :=
  shift_of_not_mem blanks (newline_not_mem (oneLine_indentation level))

/-- The blanks of some levels in front of the indentation of others. -/
theorem blanks_append_indentation (level more : Nat) :
    Text.ofList (List.replicate (4 * more) ' ') ++ indentation level = indentation (level + more : Nat) := by
  rw [← repeated_blanks, indentation, indentation, Int.toNat_natCast, Int.toNat_natCast, Nat.add_comm,
    repeated_add]

/-- Parentheses stay around a text that is shifted. -/
theorem shift_parenthesized (blanks : Nat) (parentheses : Bool) (s : Text) :
    shift blanks (parenthesized parentheses s) = parenthesized parentheses (shift blanks s) := by
  cases parentheses with
  | false => rfl
  | true =>
    change shift blanks ("(" ++ s ++ ")") = "(" ++ shift blanks s ++ ")"
    rw [shift_append, shift_append]
    rfl

/-- The lines of members are shifted together. -/
theorem shift_lines {members : List Text} (hne : members ≠ []) (level more : Nat) :
    shift (4 * more) ("\n" ++ joinWith "\n" (members.map (indentation level ++ ·))) =
      "\n" ++ joinWith "\n" ((members.map (shift (4 * more))).map (indentation (level + more : Nat) ++ ·)) := by
  have hmember (member : Text) : Text.ofList (List.replicate (4 * more) ' ') ++
      shift (4 * more) (indentation level ++ member) =
        indentation (level + more : Nat) ++ shift (4 * more) member := by
    rw [shift_append, shift_indentation, ← Text.append_assoc, blanks_append_indentation]
  rw [shift_append, shift_joinWith, shift_newline, Text.append_assoc, append_joinWith _ _ (by simpa using hne)]
  simp only [List.map_map, Function.comp_def, hmember]

/-- The line of a closing brace is shifted like the others. -/
theorem shift_lastLine (level more : Nat) :
    shift (4 * more) ("\n" ++ indentation level) = "\n" ++ indentation (level + more : Nat) := by
  rw [shift_append, shift_newline, shift_indentation, Text.append_assoc, blanks_append_indentation]

/-- The text of members that are there, line by line between braces. -/
theorem block_eq {members : List Text} (hne : members ≠ []) (level : Int) :
    block members level = "\x7b" ++ ("\n" ++ joinWith "\n" (members.map (indentation (level + 1) ++ ·))) ++
      ("\n" ++ indentation level) ++ "\x7d" := by
  obtain ⟨first, rest, rfl⟩ := List.exists_cons_of_ne_nil hne
  have hopening : Text.ofString "\x7b\n" = "\x7b" ++ "\n" := rfl
  change "\x7b\n" ++ _ ++ "\n" ++ indentation level ++ "\x7d" = _
  rw [hopening]
  simp only [Text.append_assoc]

/-- The next level stays the next one when it is shifted. -/
theorem succ_shifted (level more : Nat) : ((level + more : Nat) : Int) + 1 = ((level + 1 + more : Nat) : Int) := by
  omega

/-- The members of an object type and its closing brace are shifted together. -/
theorem shift_block (members : List Text) (level more : Nat) :
    shift (4 * more) (block members level) =
      block (members.map (shift (4 * more))) (level + more : Nat) := by
  have hbrace : shift (4 * more) "\x7b" = "\x7b" := rfl
  have hclosing : shift (4 * more) "\x7d" = "\x7d" := rfl
  by_cases hne : members = []
  · subst hne
    exact shift_of_not_mem (4 * more) (by decide : ('\n' : CodePoint) ∉ ("\x7b\x7d" : Text).toList)
  · have hnext : (level : Int) + 1 = ((level + 1 : Nat) : Int) := rfl
    rw [block_eq hne, block_eq (by simpa using hne), hnext, succ_shifted, shift_append, shift_append, shift_append,
      shift_lines hne, shift_lastLine, hbrace, hclosing]

section Line

variable {level more : Nat}

/-- A name that does not end in a line feed is printed without one. -/
theorem newline_not_mem_propertyName {s : Text} (hlast : s.toList.getLast? ≠ some ('\n' : CodePoint)) :
    ('\n' : CodePoint) ∉ (propertyName s).toList := by
  apply newline_not_mem
  apply (oneLine_propertyName_iff s).mpr
  rintro ⟨word, -, hname⟩
  rw [hname, List.getLast?_concat] at hlast
  exact hlast rfl

/-- The line of a field is shifted with its type. -/
theorem shift_fieldLine {field : Field TypeExpr} {s : Text} (hname : field.name = .text s)
    (hlast : s.toList.getLast? ≠ some ('\n' : CodePoint))
    (htype : field.type.print (level + more : Nat) = shift (4 * more) (field.type.print level)) :
    fieldLine (level + more : Nat) field = shift (4 * more) (fieldLine level field) := by
  have hmodifier : ('\n' : CodePoint) ∉ (modifier field.readOnly).toList := by cases field.readOnly <;> decide
  have hfieldName : ('\n' : CodePoint) ∉ (fieldName field.name field.required).toList := by
    have hmark : ('\n' : CodePoint) ∉ (Text.ofString (if field.required then "" else "?")).toList := by
      cases field.required <;> decide
    rw [hname, fieldName, Text.toList_append, List.mem_append]
    exact not_or.mpr ⟨newline_not_mem_propertyName hlast, hmark⟩
  have hcolon : shift (4 * more) ": " = ": " := rfl
  have hsemicolon : shift (4 * more) ";" = ";" := rfl
  rw [fieldLine, fieldLine, shift_append, shift_append, shift_append, shift_append,
    shift_of_not_mem _ hmodifier, shift_of_not_mem _ hfieldName, hcolon, hsemicolon, htype]

/-- The line of an index signature is shifted with its type. -/
theorem shift_indexLine {signature : IndexSignature TypeExpr} (hkey : ('\n' : CodePoint) ∉ signature.key.toList)
    (htype : signature.type.print (level + more : Nat) = shift (4 * more) (signature.type.print level)) :
    indexLine (level + more : Nat) signature = shift (4 * more) (indexLine level signature) := by
  have hmodifier : ('\n' : CodePoint) ∉ (modifier signature.readOnly).toList := by
    cases signature.readOnly <;> decide
  have hbracket : shift (4 * more) "[" = "[" := rfl
  have hstring : shift (4 * more) ": string]: " = ": string]: " := rfl
  have hsemicolon : shift (4 * more) ";" = ";" := rfl
  simp only [indexLine, shift_append, shift_of_not_mem _ hmodifier, shift_of_not_mem _ hkey, hbracket, hstring,
    hsemicolon, htype]

end Line

/-- The members of a union or an intersection are shifted together. -/
theorem shift_members {separator : Text} (hseparator : ('\n' : CodePoint) ∉ separator.toList)
    (needed : TypeExpr → Bool)
    {members : List TypeExpr} {level more : Nat}
    (h : ∀ t ∈ members, t.print (level + more : Nat) = shift (4 * more) (t.print level)) :
    joinWith separator (members.map fun t => parenthesized (needed t) (t.print (level + more : Nat))) =
      shift (4 * more) (joinWith separator (members.map fun t => parenthesized (needed t) (t.print level))) := by
  rw [shift_joinWith, shift_of_not_mem _ hseparator, List.map_map]
  congr 1
  apply List.map_congr_left
  intro t ht
  rw [Function.comp_apply, shift_parenthesized, h t ht]

/-- A value that is text is a text. -/
theorem exists_text {v : Value} (h : v.isText = true) : ∃ s, v = .text s := by
  cases v with
  | scalar s =>
    cases s with
    | text s => exact ⟨s, rfl⟩
    | _ => cases h
  | _ => cases h

/-- The name of a field that is text is a text. -/
theorem exists_textName {name : Scalar} (h : hasTextName name = true) : ∃ s, name = .text s := by
  cases name with
  | text s => exact ⟨s, rfl⟩
  | _ => cases h

/-- A reference is written without a line feed if its parts hold none. -/
theorem newline_not_mem_qualifiedName {names : List Value} (htexts : names.all Value.isText = true)
    (h : ∀ s : Text, .text s ∈ names → ('\n' : CodePoint) ∉ s.toList) :
    ('\n' : CodePoint) ∉ (qualifiedName names).toList := by
  have hparts : ∀ c ∈ (qualifiedName names).toList, c ≠ '\n' := by
    apply forall_mem_joinWith
    · exact List.forall_mem_singleton.mpr (by decide)
    · intro part hpart c hc
      obtain ⟨name, hname, rfl⟩ := List.mem_map.mp hpart
      obtain ⟨s, rfl⟩ := exists_text (List.all_eq_true.mp htexts name hname)
      rintro rfl
      exact h s hname hc
  exact fun hmem => hparts '\n' hmem rfl

/-- An object type is shifted with the types of its members, which are one level deeper. -/
theorem print_object_add {fields : List (Field TypeExpr)} {index : Option (IndexSignature TypeExpr)}
    {level more : Nat} (htexts : ∀ field ∈ fields, hasTextName field.name = true)
    (hself : HoldsUnbroken (object fields index))
    (hparts : ∀ part ∈ (object fields index).parts,
      part.print (level + 1 + more : Nat) = shift (4 * more) (part.print (level + 1 : Nat))) :
    (object fields index).print (level + more : Nat) = shift (4 * more) ((object fields index).print level) := by
  have hnext : (level : Int) + 1 = ((level + 1 : Nat) : Int) := rfl
  have hfields : fields.map (fieldLine (level + 1 + more : Nat)) =
      fields.map (shift (4 * more) ∘ fieldLine (level + 1 : Nat)) := by
    apply List.map_congr_left
    intro field hfield
    obtain ⟨s, hname⟩ := exists_textName (htexts field hfield)
    exact shift_fieldLine hname (hself.1 field hfield s hname)
      (hparts field.type (List.mem_append_left _ (List.mem_map_of_mem hfield)))
  have hindex : index.toList.map (indexLine (level + 1 + more : Nat)) =
      index.toList.map (shift (4 * more) ∘ indexLine (level + 1 : Nat)) := by
    apply List.map_congr_left
    intro signature hsignature
    exact shift_indexLine (hself.2 signature (Option.mem_toList.mp hsignature))
      (hparts signature.type (List.mem_append_right _ (List.mem_map_of_mem hsignature)))
  rw [print, print, printFields_eq, printFields_eq, printIndex_eq, printIndex_eq, shift_block, List.map_append,
    List.map_map, List.map_map, hnext, succ_shifted, hfields, hindex]

/-- The text of a type without names that break lines is shifted by the nesting depth. -/
theorem print_add {t : TypeExpr} (hprintable : t.obstacle? = none) (h : Unbroken t) (level more : Nat) :
    t.print (level + more : Nat) = shift (4 * more) (t.print level) := by
  -- The level is kept general, for the members of an object type are one level deeper.
  induction t using induction_parts generalizing level with
  | h t ih =>
    rw [obstacle?_eq_none_iff_parts] at hprintable
    obtain ⟨hself, hunbroken⟩ := unbroken_iff.mp h
    have hparts (part : TypeExpr) (hpart : part ∈ t.parts) (level : Nat) :
        part.print (level + more : Nat) = shift (4 * more) (part.print level) :=
      ih part hpart (hprintable.2 part hpart) (hunbroken part hpart) level
    cases t with
    | keyword name => rw [print, print, shift_of_not_mem _ hself]
    | literal value => rw [print, print, shift_of_not_mem _ (newline_not_mem value.oneLine_json)]
    | nonNull inner =>
      have hopening : shift (4 * more) "NonNullable<" = "NonNullable<" := rfl
      have hclosing : shift (4 * more) ">" = ">" := rfl
      rw [print, print, shift_append, shift_append, hopening, hclosing, hparts inner (List.mem_singleton_self _)]
    | array item =>
      have hbrackets : shift (4 * more) "[]" = "[]" := rfl
      rw [print, print, shift_append, shift_parenthesized, hbrackets, hparts item (List.mem_singleton_self _)]
    | object fields index =>
      have hnames : ∀ field ∈ fields, hasTextName field.name = true := by simpa [ownObstacle?] using hprintable.1
      exact print_object_add hnames hself fun part hpart => hparts part hpart (level + 1)
    | reference names =>
      have hnames : names.all Value.isText = true := by simpa [ownObstacle?] using hprintable.1
      rw [print, print, shift_of_not_mem _ (newline_not_mem_qualifiedName hnames hself)]
    | union members =>
      rw [print, print, printUnion_eq, printUnion_eq]
      exact shift_members (by decide) isUnion fun t ht => hparts t ht level
    | intersection members =>
      rw [print, print, printIntersection_eq, printIntersection_eq]
      exact shift_members (by decide) isCompound fun t ht => hparts t ht level

/-- The nesting depth shifts the text of a type uniformly: at a level that is greater by some levels, the text
of every type whose names break no lines is the text at the smaller level with four more blanks for each of
these levels behind every line feed. So the text at a level is the text at the outermost level with the
indentation of the level in front of all its lines but the first. -/
theorem print?_shifts {t : TypeExpr} (h : Unbroken t) (level more : Nat) :
    t.print? (level + more : Nat) = (t.print? level).map (shift (4 * more)) ∧
      t.print? level = (t.print? 0).map fun s =>
        joinWith "\n" (indentLater (indentation level) (splitAt '\n' s.toList)) := by
  cases hobstacle : t.obstacle? with
  | some cause => simp [print?, hobstacle, Except.map]
  | none =>
    have hfirst : t.print (0 + level : Nat) = shift (4 * level) (t.print (0 : Nat)) :=
      print_add hobstacle h 0 level
    rw [Nat.zero_add, shift_eq_joinWith, ← repeated_blanks] at hfirst
    rw [print?, print?, print?, hobstacle]
    exact ⟨congrArg Except.ok (print_add hobstacle h level more), congrArg Except.ok hfirst⟩

/-- An object type with a line feed inside the name of its field. -/
def leafType : TypeExpr := object [⟨.text "up\ndown", string, true, false⟩] none

/-- The object type in an array, and marked as never null under an index signature, in a union. -/
def branchingType : TypeExpr :=
  union [array leafType, object [] (some ⟨nonNull leafType, false, true, "key"⟩)]

/-- All object types of the branching type are shifted alike. -/
theorem print?_shifts_branchingType :
    Unbroken branchingType ∧
      ∃ text, branchingType.print? 1 = .ok text ∧ ('\n' : CodePoint) ∈ text.toList ∧
        branchingType.print? 3 = .ok (shift 8 text) := by
  have hstring : Unbroken string :=
    unbroken_iff.mpr ⟨show ('\n' : CodePoint) ∉ ("string" : Text).toList by decide, List.forall_mem_nil _⟩
  have hleaf : Unbroken leafType := by
    refine unbroken_iff.mpr ⟨⟨List.forall_mem_singleton.mpr fun s hs => ?_, fun signature hsignature => ?_⟩,
      List.forall_mem_singleton.mpr hstring⟩
    · cases hs
      decide
    · cases hsignature
  have hmarked : Unbroken (nonNull leafType) := unbroken_iff.mpr ⟨trivial, List.forall_mem_singleton.mpr hleaf⟩
  have harray : Unbroken (array leafType) := unbroken_iff.mpr ⟨trivial, List.forall_mem_singleton.mpr hleaf⟩
  have hindexed : Unbroken (object [] (some ⟨nonNull leafType, false, true, "key"⟩)) := by
    refine unbroken_iff.mpr ⟨⟨List.forall_mem_nil _, fun signature hsignature => ?_⟩,
      List.forall_mem_singleton.mpr hmarked⟩
    cases hsignature
    decide
  have hunbroken : Unbroken branchingType :=
    unbroken_iff.mpr ⟨trivial, List.forall_mem_cons.mpr ⟨harray, List.forall_mem_singleton.mpr hindexed⟩⟩
  have hprint : branchingType.print? 1 = .ok (branchingType.print 1) := print?_of_printable (by decide) 1
  obtain ⟨hshift, -⟩ := print?_shifts hunbroken 1 2
  change branchingType.print? 3 = (branchingType.print? 1).map (shift 8) at hshift
  rw [hprint] at hshift
  exact ⟨hunbroken, _, hprint, by decide +kernel, hshift⟩

end SchemaTypes.TypeExpr
