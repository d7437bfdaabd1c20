import SchemaTypes.Proofs.TypeExpr.Token

/-!
# Reading the members of an object type

A printed object type holds one line for each field and one for its index signature. A reader that
reads the printed types of the members reads the members: names and marks come back as they were
given, and a modifier is told from a member of the same name.
-/

namespace SchemaTypes.TypeExpr

/-- The line of a field. -/
def fieldLine (level : Int) (field : Field TypeExpr) : Text :=
  modifier field.readOnly ++ fieldName field.name field.required ++ ": " ++ field.type.print level ++ ";"

/-- The line of an index signature. -/
def indexLine (level : Int) (index : IndexSignature TypeExpr) : Text :=
  modifier index.readOnly ++ "[" ++ index.key ++ ": string]: " ++ index.type.print level ++ ";"

/-- Fields are printed line by line. -/
theorem printFields_eq (fields : List (Field TypeExpr)) (level : Int) :
    printFields fields level = fields.map (fieldLine level) := by
  induction fields with
  | nil => simp [printFields]
  | cons field rest ih => rw [printFields, ih, List.map_cons, fieldLine]

/-- An index signature is printed on a line. -/
theorem printIndex_eq (index : Option (IndexSignature TypeExpr)) (level : Int) :
    printIndex index level = index.toList.map (indexLine level) := by
  cases index with
  | none => simp [printIndex]
  | some index => simp [printIndex, indexLine]

/-- A text that starts with a character that is no blank. -/
def StartsSolid (cs : List CodePoint) : Prop := ∃ c rest, cs = c :: rest ∧ c.isWhitespace = false

/-- A text that does not start with a blank is kept. -/
theorem StartsSolid.skipBlanks_append {cs : List CodePoint} (h : StartsSolid cs) (rest : List CodePoint) :
    skipBlanks (cs ++ rest) = cs ++ rest := by
  obtain ⟨c, tail, rfl, hc⟩ := h
  exact skipBlanks_cons hc (tail ++ rest)

/-- A text that goes on after its start starts the same way. -/
theorem StartsSolid.append {cs : List CodePoint} (h : StartsSolid cs) (rest : List CodePoint) :
    StartsSolid (cs ++ rest) := by
  obtain ⟨c, tail, rfl, hc⟩ := h
  exact ⟨c, tail ++ rest, rfl, hc⟩

/-- A reader reads the printed type of a member up to the semicolon. -/
structure ReadsMember (type : Reader TypeExpr) (level : Int) (t : TypeExpr) : Prop where
  /-- The printed type does not start with a blank. -/
  solid : StartsSolid (t.print level).toList
  /-- The type is read back and the semicolon is left. -/
  reads : ∀ rest, type ((t.print level).toList ++ (';' : CodePoint) :: rest) =
    some (t.asRead, (';' : CodePoint) :: rest)

variable {type : Reader TypeExpr} {level : Int} {t : TypeExpr}

/-- The type of a member is read from its colon to its semicolon. -/
theorem ReadsMember.readMemberType (h : ReadsMember type level t) (rest : List CodePoint) :
    readMemberType type ((':' : CodePoint) :: ' ' :: ((t.print level).toList ++ (';' : CodePoint) :: rest)) =
      some (t.asRead, rest) := by
  have hcolon : (':' : CodePoint).isWhitespace = false := by decide
  have hsemicolon : (';' : CodePoint).isWhitespace = false := by decide
  simp [TypeExpr.readMemberType, skipBlanks_cons hcolon, h.solid.skipBlanks_append, h.reads,
    skipBlanks_cons hsemicolon]

/-- A field without its modifier is read. -/
theorem ReadsMember.readField (h : ReadsMember type level t) {s : Text}
    (hlast : s.toList.getLast? ≠ some ('\n' : CodePoint)) (required readOnly : Bool) (rest : List CodePoint) :
    readField type readOnly ((fieldName (.text s) required).toList ++
        (':' : CodePoint) :: ' ' :: ((t.print level).toList ++ (';' : CodePoint) :: rest)) =
      some (⟨.text s.merged, t.asRead, required, readOnly⟩, rest) := by
  have hcolon : (':' : CodePoint).isWhitespace = false := by decide
  have hmark : ('?' : CodePoint).isWhitespace = false := by decide
  cases required with
  | true =>
    have hname := readName_propertyName hlast
      (headIn_cons (by decide) ((' ' : CodePoint) :: ((t.print level).toList ++ (';' : CodePoint) :: rest)) :
        HeadIn _ ((':' : CodePoint) :: _))
    simp [TypeExpr.readField, fieldName, hname, skipBlanks_cons hcolon, readMark, expect,
      h.readMemberType]
  | false =>
    have hname := readName_propertyName hlast
      (headIn_cons (by decide)
        ((':' : CodePoint) :: ' ' :: ((t.print level).toList ++ (';' : CodePoint) :: rest)) :
          HeadIn _ (('?' : CodePoint) :: _))
    simp [TypeExpr.readField, fieldName, hname, skipBlanks_cons hmark, readMark, h.readMemberType]

/-- An index signature without its modifier and its opening bracket is read. -/
theorem ReadsMember.readIndex (h : ReadsMember type level t) {key : Text}
    (hkey : isIdentifier key.toList = true) (readOnly : Bool) (rest : List CodePoint) :
    readIndex type readOnly (key.toList ++
        ((": string]: " : Text).toList ++ ((t.print level).toList ++ (';' : CodePoint) :: rest))) =
      some (⟨t.asRead, false, readOnly, key⟩, rest) := by
  obtain ⟨c, cs, hcs, hc⟩ := exists_cons_of_isIdentifier hkey
  have hsolid : StartsSolid key.toList := ⟨c, cs, hcs, isWhitespace_of_isNameStart hc⟩
  have hcolon (rest : List CodePoint) : skipBlanks ((':' : CodePoint) :: rest) = (':' : CodePoint) :: rest :=
    skipBlanks_cons (by decide) rest
  have hbracket (rest : List CodePoint) : skipBlanks ((']' : CodePoint) :: rest) = (']' : CodePoint) :: rest :=
    skipBlanks_cons (by decide) rest
  have hword (rest : List CodePoint) :
      expect ("string" : Text).toList (skipBlanks (("string" : Text).toList ++ rest)) = some rest := by
    have hstring : StartsSolid ("string" : Text).toList := ⟨'s', ("tring" : Text).toList, rfl, by decide⟩
    rw [hstring.skipBlanks_append, expect_append]
  have htext : (": string]: " : Text).toList ++ ((t.print level).toList ++ (';' : CodePoint) :: rest) =
      (':' : CodePoint) :: ' ' :: (("string" : Text).toList ++
        (']' : CodePoint) :: ':' :: ' ' :: ((t.print level).toList ++ (';' : CodePoint) :: rest)) := by simp
  have hident := readIdentifier_append hkey
    (headIn_cons List.mem_cons_self ((' ' : CodePoint) :: (("string" : Text).toList ++
      (']' : CodePoint) :: ':' :: ' ' :: ((t.print level).toList ++ (';' : CodePoint) :: rest))) :
        HeadIn [':'] ((':' : CodePoint) :: _)) (by decide)
  rw [htext, TypeExpr.readIndex, hsolid.skipBlanks_append, hident]
  simp only [Option.bind_eq_bind, Option.bind_some, hcolon, expect_singleton_cons, skipBlanks_space, hword,
    hbracket, h.readMemberType, Text.ofList_toList]

/-- A text that a member without its modifier may have. -/
structure StartsMember (member : List CodePoint) : Prop where
  /-- The member does not start with a blank. -/
  solid : StartsSolid member
  /-- The member does not start with a colon. -/
  noColon : expect [':'] member = none
  /-- The member does not start with a question mark. -/
  noMark : expect ['?'] member = none
  /-- The member does not start with a closing brace. -/
  noBrace : expect ['\x7d'] member = none
  /-- The member has no modifier. -/
  plain : readModifier member = (false, member)

/-- The first character of a member decides all but the absence of a modifier. -/
theorem startsMember_cons {c : CodePoint} {rest : List CodePoint} (hblank : c.isWhitespace = false)
    (hc : c ∉ [(':' : CodePoint), '?', '\x7d']) (hplain : readModifier (c :: rest) = (false, c :: rest)) :
    StartsMember (c :: rest) := by
  simp only [List.mem_cons, List.not_mem_nil, or_false, not_or] at hc
  obtain ⟨hcolon, hmark, hbrace⟩ := hc
  exact {
    solid := ⟨c, rest, rfl, hblank⟩
    noColon := by simp [expect, Ne.symm hcolon]
    noMark := by simp [expect, Ne.symm hmark]
    noBrace := by simp [expect, Ne.symm hbrace]
    plain := hplain }

/-- The modifier in front of a member is read. -/
theorem StartsMember.readModifier {member : List CodePoint} (h : StartsMember member) (readOnly : Bool) :
    readModifier ((modifier readOnly).toList ++ member) = (readOnly, member) := by
  cases readOnly with
  | false => simpa [modifier] using h.plain
  | true =>
    have htext : (modifier true).toList ++ member = ("readonly" : Text).toList ++ (' ' : CodePoint) :: member := by
      simp [modifier]
    have hletters : ∀ c ∈ ("readonly" : Text).toList, isNamePart c = true := List.all_eq_true.1 (by decide)
    have hspace : HeadIn [' '] ((' ' : CodePoint) :: member) := headIn_cons List.mem_cons_self member
    have hskip : skipBlanks member = member := by simpa using h.solid.skipBlanks_append []
    rw [htext, TypeExpr.readModifier, takeWhile_append_of_headIn hletters hspace (by decide),
      dropWhile_append_of_headIn hletters hspace (by decide), skipBlanks_space, hskip]
    simp [h.noColon, h.noMark]

/-- A line is read from its first character that is no blank. -/
theorem StartsMember.skipBlanks {member : List CodePoint} (h : StartsMember member) (readOnly : Bool)
    {blanks : List CodePoint} (hblanks : ∀ c ∈ blanks, c.isWhitespace = true) :
    skipBlanks (blanks ++ ((modifier readOnly).toList ++ member)) =
      (modifier readOnly).toList ++ member := by
  rw [TypeExpr.skipBlanks_append hblanks]
  cases readOnly with
  | false => simpa [modifier] using h.solid.skipBlanks_append []
  | true =>
    have hsolid : StartsSolid (modifier true).toList := ⟨'r', ("eadonly " : Text).toList, rfl, by decide⟩
    exact hsolid.skipBlanks_append member

/-- A line does not start with a closing brace. -/
theorem StartsMember.expect_brace {member : List CodePoint} (h : StartsMember member) (readOnly : Bool) :
    expect ['\x7d'] ((modifier readOnly).toList ++ member) = none := by
  cases readOnly with
  | false => simpa [modifier] using h.noBrace
  | true => simp [modifier, expect]

/-- A member that does not start with a character of names has no modifier. -/
theorem readModifier_cons {c : CodePoint} (hc : isNamePart c = false) (rest : List CodePoint) :
    readModifier (c :: rest) = (false, c :: rest) := by
  simp [readModifier, hc]

/-- A field name is not taken for a modifier. -/
theorem readModifier_propertyName {s : Text} (hlast : s.toList.getLast? ≠ some ('\n' : CodePoint)) {d : CodePoint}
    (hd : d ∈ [(':' : CodePoint), '?']) (rest : List CodePoint) :
    readModifier ((propertyName s).toList ++ d :: rest) =
      (false, (propertyName s).toList ++ d :: rest) := by
  unfold propertyName
  split
  · rename_i hbare
    have hparts := isNamePart_of_isIdentifier (isIdentifier_of_isBareName hbare hlast)
    have hrest : HeadIn [':', '?'] (d :: rest) := headIn_cons hd rest
    have hcases : d = ':' ∨ d = '?' := by simpa using hd
    have hblank : d.isWhitespace = false := by
      rcases hcases with rfl | rfl <;> rfl
    have hfound : expect [':'] (d :: rest) ≠ none ∨ expect ['?'] (d :: rest) ≠ none := by
      rcases hcases with rfl | rfl
      · exact .inl (by simp)
      · exact .inr (by simp)
    rw [readModifier, takeWhile_append_of_headIn hparts hrest (by decide),
      dropWhile_append_of_headIn hparts hrest (by decide), skipBlanks_cons hblank]
    refine if_neg fun h => ?_
    exact hfound.elim (fun hcolon => hcolon h.2.1) fun hmark => hmark h.2.2
  · rw [Text.toList_quote, List.cons_append]
    exact readModifier_cons (by decide) _

/-- A field without its modifier starts a member. -/
theorem startsMember_fieldName {s : Text} (hlast : s.toList.getLast? ≠ some ('\n' : CodePoint)) (required : Bool)
    (rest : List CodePoint) :
    StartsMember ((fieldName (.text s) required).toList ++ (':' : CodePoint) :: rest) := by
  obtain ⟨d, more, hmore, hd⟩ : ∃ d more, (fieldName (.text s) required).toList ++ (':' : CodePoint) :: rest =
      (propertyName s).toList ++ d :: more ∧ d ∈ [(':' : CodePoint), '?'] := by
    cases required with
    | true => exact ⟨':', rest, by simp [fieldName], by decide⟩
    | false => exact ⟨'?', (':' : CodePoint) :: rest, by simp [fieldName], by decide⟩
  have hplain := readModifier_propertyName hlast hd more
  obtain ⟨c, cs, hcs, hc⟩ := exists_cons_propertyName s
  rw [hmore]
  rw [hcs, List.cons_append] at hplain ⊢
  rcases hc with hc | rfl
  · have hother (d : CodePoint) (hd : isNameStart d = false) : c ≠ d := ne_of_isNameStart hc hd
    exact startsMember_cons (isWhitespace_of_isNameStart hc)
      (by simp [hother ':' (by decide), hother '?' (by decide), hother '\x7d' (by decide)]) hplain
  · exact startsMember_cons (by decide) (by decide) hplain

/-- A field without its modifier does not start with a bracket. -/
theorem expect_bracket_fieldName (s : Text) (required : Bool) (rest : List CodePoint) :
    expect ['['] ((fieldName (.text s) required).toList ++ rest) = none := by
  obtain ⟨c, cs, hcs, hc⟩ := exists_cons_propertyName s
  have hne : ('[' : CodePoint) ≠ c := by
    rcases hc with hc | rfl
    · exact (ne_of_isNameStart hc (by decide)).symm
    · decide
  simp [fieldName, hcs, expect, hne]

/-- An index signature without its modifier starts a member. -/
theorem startsMember_bracket (rest : List CodePoint) : StartsMember (('[' : CodePoint) :: rest) :=
  startsMember_cons (by decide) (by decide) (readModifier_cons (by decide) rest)

/-- The field on the first line is read before the other members. -/
theorem ReadsMember.readMembers_fieldLine {field : Field TypeExpr}
    (h : ReadsMember type level field.type) (hname : isWritableFieldName field.name = true)
    {blanks : List CodePoint} (hblanks : ∀ c ∈ blanks, c.isWhitespace = true) (bound : Nat)
    (rest : List CodePoint) :
    readMembers type (bound + 1) (blanks ++ ((fieldLine level field).toList ++ rest)) =
      (readMembers type bound rest).map fun ((fields, index), rest) =>
        ((⟨field.name.mapText Text.merged, field.type.asRead, field.required, field.readOnly⟩ :: fields,
          index), rest) := by
  obtain ⟨name, t, required, readOnly⟩ := field
  cases name with
  | text s =>
    have hlast : s.toList.getLast? ≠ some ('\n' : CodePoint) := by simpa [isWritableFieldName] using hname
    have htext : (fieldLine level ⟨.text s, t, required, readOnly⟩).toList ++ rest =
        (modifier readOnly).toList ++ ((fieldName (.text s) required).toList ++
          (':' : CodePoint) :: ' ' :: ((t.print level).toList ++ (';' : CodePoint) :: rest)) := by simp [fieldLine]
    have hstart := startsMember_fieldName hlast required
      ((' ' : CodePoint) :: ((t.print level).toList ++ (';' : CodePoint) :: rest))
    rw [htext, readMembers, hstart.skipBlanks readOnly hblanks, hstart.expect_brace]
    simp only [hstart.readModifier, expect_bracket_fieldName, h.readField hlast, Option.bind_eq_bind,
      Option.bind_some]
    cases readMembers type bound rest <;> rfl
  | _ => cases hname

/-- The index signature on the last line is read with the closing brace. -/
theorem ReadsMember.readMembers_indexLine {index : IndexSignature TypeExpr}
    (h : ReadsMember type level index.type) (hkey : isIdentifier index.key.toList = true)
    {blanks closing : List CodePoint} (hblanks : ∀ c ∈ blanks, c.isWhitespace = true)
    (hclosing : ∀ c ∈ closing, c.isWhitespace = true) (bound : Nat) (rest : List CodePoint) :
    readMembers type (bound + 1)
        (blanks ++ ((indexLine level index).toList ++ (closing ++ ('\x7d' : CodePoint) :: rest))) =
      some (([], some { index with type := index.type.asRead, required := false }), rest) := by
  obtain ⟨t, required, readOnly, key⟩ := index
  have htext : (indexLine level ⟨t, required, readOnly, key⟩).toList ++ (closing ++ ('\x7d' : CodePoint) :: rest) =
      (modifier readOnly).toList ++ ('[' : CodePoint) :: (key.toList ++ ((": string]: " : Text).toList ++
        ((t.print level).toList ++ (';' : CodePoint) :: (closing ++ ('\x7d' : CodePoint) :: rest)))) := by
      simp [indexLine]
  have hstart := startsMember_bracket (key.toList ++ ((": string]: " : Text).toList ++
    ((t.print level).toList ++ (';' : CodePoint) :: (closing ++ ('\x7d' : CodePoint) :: rest))))
  have hbrace : skipBlanks (closing ++ ('\x7d' : CodePoint) :: rest) = ('\x7d' : CodePoint) :: rest := by
    rw [skipBlanks_append hclosing, skipBlanks_cons (by decide)]
  rw [htext, readMembers, hstart.skipBlanks readOnly hblanks, hstart.expect_brace]
  simp only [hstart.readModifier, expect_singleton_cons, h.readIndex hkey, Option.bind_eq_bind,
    Option.bind_some, hbrace]

/-- The lines of an object type are read up to its closing brace. -/
theorem readMembers_lines {blanks closing : List CodePoint} (hblanks : ∀ c ∈ blanks, c.isWhitespace = true)
    (hclosing : ∀ c ∈ closing, c.isWhitespace = true) {fields : List (Field TypeExpr)}
    {index : Option (IndexSignature TypeExpr)} (hfields : writableFields fields = true)
    (hindex : writableIndex index = true) (hreads : ∀ field ∈ fields, ReadsMember type level field.type)
    (hreadsIndex : ∀ signature ∈ index, ReadsMember type level signature.type) {bound : Nat}
    (hbound : fields.length < bound) (rest : List CodePoint) :
    readMembers type bound
        ((fields.map (fieldLine level) ++ index.toList.map (indexLine level)).flatMap
          (fun line => blanks ++ line.toList) ++ (closing ++ ('\x7d' : CodePoint) :: rest)) =
      some ((rewrittenFields Text.merged fields, rewrittenIndex Text.merged index), rest) := by
  induction fields generalizing bound with
  | nil =>
    obtain ⟨bound, rfl⟩ : ∃ n, bound = n + 1 := ⟨bound - 1, by simp at hbound; omega⟩
    cases index with
    | none =>
      have hbrace : skipBlanks (closing ++ ('\x7d' : CodePoint) :: rest) = ('\x7d' : CodePoint) :: rest := by
        rw [skipBlanks_append hclosing, skipBlanks_cons (by decide)]
      simp [readMembers, hbrace, rewrittenFields, rewrittenIndex]
    | some signature =>
      rw [writableIndex, Bool.and_eq_true] at hindex
      have hline := (hreadsIndex signature rfl).readMembers_indexLine hindex.1 hblanks hclosing bound rest
      simpa [rewrittenFields, rewrittenIndex, asRead] using hline
  | cons field fields ih =>
    simp only [writableFields, Bool.and_eq_true] at hfields
    rw [List.length_cons] at hbound
    obtain ⟨bound, rfl⟩ : ∃ n, bound = n + 1 := ⟨bound - 1, by omega⟩
    have hrest := ih hfields.2 (fun other hother => hreads other (List.mem_cons_of_mem field hother))
      (by omega : fields.length < bound)
    have hline := (hreads field List.mem_cons_self).readMembers_fieldLine hfields.1.1 hblanks bound
      ((fields.map (fieldLine level) ++ index.toList.map (indexLine level)).flatMap
        (fun line => blanks ++ line.toList) ++ (closing ++ ('\x7d' : CodePoint) :: rest))
    rw [hrest] at hline
    simpa [rewrittenFields, asRead] using hline

/-- An indentation is blank. -/
theorem isWhitespace_of_mem_indentation {level : Int} {c : CodePoint}
    (h : c ∈ (indentation level).toList) : c.isWhitespace = true := by
  have hspaces : ∀ d ∈ ("    " : Text).toList, d.isWhitespace = true := List.all_eq_true.1 (by decide)
  exact hspaces c (Text.mem_of_mem_repeated h)

/-- A line feed and an indentation are blank. -/
theorem isWhitespace_of_mem_newline (level : Int) :
    ∀ c ∈ ('\n' : CodePoint) :: (indentation level).toList, c.isWhitespace = true :=
  List.forall_mem_cons.2 ⟨by decide, fun _ hc => isWhitespace_of_mem_indentation hc⟩

/-- The text of an object type holds its lines, each after a line feed and an indentation. -/
theorem toList_block (lines : List Text) (level : Int) :
    ∃ closing : List CodePoint, (∀ c ∈ closing, c.isWhitespace = true) ∧
      (block lines level).toList = ('\x7b' : CodePoint) :: (lines.flatMap
        (fun line => (('\n' : CodePoint) :: (indentation (level + 1)).toList) ++ line.toList) ++
          (closing ++ [('\x7d' : CodePoint)])) := by
  cases lines with
  | nil => exact ⟨[], by simp, by simp [block]⟩
  | cons line lines =>
    have hjoin := Text.append_toList_joinWith "\n"
      (List.cons_ne_nil (indentation (level + 1) ++ line) (lines.map (indentation (level + 1) ++ ·)))
    have hlines :
        ('\n' : CodePoint) :: (Text.joinWith "\n" ((line :: lines).map (indentation (level + 1) ++ ·))).toList =
        (line :: lines).flatMap
          (fun line => (('\n' : CodePoint) :: (indentation (level + 1)).toList) ++ line.toList) := by
      simpa [List.flatMap_map] using hjoin
    refine ⟨('\n' : CodePoint) :: (indentation level).toList, isWhitespace_of_mem_newline level, ?_⟩
    rw [← hlines]
    simp [block]

/-- A list of texts that are not empty is no longer than all of them together. -/
theorem length_le_length_flatMap_cons {α : Type} (c : CodePoint) (text : α → List CodePoint) (as : List α) :
    as.length ≤ (as.flatMap fun a => c :: text a).length := by
  induction as with
  | nil => simp
  | cons a as ih =>
    simp only [List.flatMap_cons, List.length_append, List.length_cons] at ih ⊢
    omega

/-- The text of an object type is read back. -/
theorem readPrimary_block {fields : List (Field TypeExpr)} {index : Option (IndexSignature TypeExpr)}
    (hfields : writableFields fields = true) (hindex : writableIndex index = true)
    (hreads : ∀ field ∈ fields, ReadsMember type level field.type)
    (hreadsIndex : ∀ signature ∈ index, ReadsMember type level signature.type) (outer : Int)
    (rest : List CodePoint) :
    readPrimary type ((block (fields.map (fieldLine level) ++ index.toList.map (indexLine level))
        outer).toList ++ rest) =
      some (object (rewrittenFields Text.merged fields) (rewrittenIndex Text.merged index), rest) := by
  obtain ⟨closing, hclosing, hblock⟩ := toList_block
    (fields.map (fieldLine level) ++ index.toList.map (indexLine level)) outer
  have hlength := length_le_length_flatMap_cons '\n'
    (fun line : Text => (indentation (outer + 1)).toList ++ line.toList)
    (fields.map (fieldLine level) ++ index.toList.map (indexLine level))
  rw [List.length_append, List.length_map] at hlength
  have hread (bound : Nat) (hbound : fields.length < bound) :=
    readMembers_lines (isWhitespace_of_mem_newline (outer + 1)) hclosing hfields hindex hreads
      hreadsIndex hbound rest
  rw [hblock, List.cons_append, List.append_assoc, List.append_assoc, List.singleton_append, readPrimary,
    if_neg (by decide), if_pos rfl, hread]
  · rfl
  · rw [List.length_append]
    exact Nat.lt_succ_of_le (Nat.le_trans (Nat.le_trans (Nat.le_add_right _ _) hlength)
      (Nat.le_add_right _ _))

end SchemaTypes.TypeExpr
