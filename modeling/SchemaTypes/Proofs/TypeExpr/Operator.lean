import SchemaTypes.Proofs.TypeExpr.Member

/-!
# Reading types by precedence

A printed type is read back by the reader of its own level of the grammar and by every looser one,
if the text goes on in a way that the level allows. For each kind of type this follows from the same
fact about the types in it, which are read with a smaller bound on the nesting wherever they stand
between parentheses, angle brackets or braces.
-/

namespace SchemaTypes.TypeExpr

/-- The characters that may follow a whole type. -/
def afterType : List CodePoint := [')', '>', ';']

/-- The characters that may follow an operand. -/
def afterOperand : List CodePoint := afterType ++ [(' ' : CodePoint)]

/-- The characters that may follow a primary type. -/
def afterPrimary : List CodePoint := afterOperand ++ [('[' : CodePoint)]

/-- A printed type is read back at every level of the grammar that it belongs to. -/
structure Reads (bound : Nat) (t : TypeExpr) (level : Int) : Prop where
  /-- The text does not start with a blank. -/
  solid : StartsSolid (t.print level).toList
  /-- A type that is no union or intersection is an operand, and may be given brackets. -/
  operand : t.isCompound = false → ∀ rest, HeadIn afterPrimary rest →
    readOperand (readType bound) ((t.print level).toList ++ rest) = some (readBrackets t.asRead rest)
  /-- A type that is no union is an intersection or the only member of one. -/
  intersection : t.isUnion = false → ∀ rest, HeadIn afterOperand rest →
    expect [' ', '&', ' '] rest = none →
    readIntersection (readType bound) ((t.print level).toList ++ rest) = some (t.asRead, rest)
  /-- Every type is a union or the only member of one. -/
  type : ∀ rest, HeadIn afterType rest →
    readType (bound + 1) ((t.print level).toList ++ rest) = some (t.asRead, rest)

/-- Brackets end where something else than a bracket follows. -/
theorem readBrackets_of_headIn (t : TypeExpr) {rest : List CodePoint} (hrest : HeadIn afterOperand rest) :
    readBrackets t rest = (t, rest) := by
  unfold readBrackets
  split
  · rename_i more
    exact absurd (hrest '[' rfl) (by decide)
  · rfl

/-- Types between separators are read from their joined texts. -/
theorem readSeparated_joinWith (item : Reader TypeExpr) (text : TypeExpr → Text)
    (Follows : List CodePoint → Prop) {separator : Text} {token : List CodePoint}
    (htoken : separator.toList = token) {members : List TypeExpr} (hne : members ≠ [])
    (hitem : ∀ t ∈ members, ∀ rest, Follows rest →
      item ((text t).toList ++ rest) = some (t.asRead, rest))
    (hseparator : ∀ rest, Follows (token ++ rest)) {rest : List CodePoint} (hrest : Follows rest)
    (hend : expect token rest = none) {bound : Nat} (hbound : members.length ≤ bound) :
    readSeparated token item bound ((Text.joinWith separator (members.map text)).toList ++ rest) =
      some (members.map asRead, rest) := by
  induction members generalizing bound with
  | nil => exact absurd rfl hne
  | cons t more ih =>
    rw [List.length_cons] at hbound
    obtain ⟨bound, rfl⟩ : ∃ n, bound = n + 1 := ⟨bound - 1, by omega⟩
    cases more with
    | nil =>
      have hread := hitem t List.mem_cons_self rest hrest
      simp [readSeparated, hread, hend]
    | cons u more =>
      have hread := hitem t List.mem_cons_self _
        (hseparator ((Text.joinWith separator ((u :: more).map text)).toList ++ rest))
      have htail := ih (List.cons_ne_nil u more) (fun v hv => hitem v (List.mem_cons_of_mem t hv))
        (by omega : (u :: more).length ≤ bound)
      have htext : (Text.joinWith separator ((t :: u :: more).map text)).toList ++ rest =
          (text t).toList ++ (token ++
            ((Text.joinWith separator ((u :: more).map text)).toList ++ rest)) := by
        simp [Text.joinWith_cons_cons, htoken]
      rw [htext, readSeparated, hread]
      simp only [Option.bind_eq_bind, Option.bind_some, expect_append, htail]
      rfl

/-- The length of a joined text bounds the number of types in it. -/
theorem length_le_length_append {separator : Text} (hseparator : 0 < separator.toList.length)
    (text : TypeExpr → Text) (members : List TypeExpr) (rest : List CodePoint) :
    members.length ≤ ((Text.joinWith separator (members.map text)).toList ++ rest).length + 1 := by
  have hlength := Text.length_le_joinWith_add_one hseparator (members.map text)
  rw [List.length_map] at hlength
  rw [List.length_append]
  omega

/-- Joined texts start as the first of them. -/
theorem startsSolid_joinWith (separator : Text) {text : TypeExpr → Text} {members : List TypeExpr}
    (hne : members ≠ []) (h : ∀ t ∈ members, StartsSolid (text t).toList) :
    StartsSolid (Text.joinWith separator (members.map text)).toList := by
  rcases members with _ | ⟨t, _ | ⟨u, members⟩⟩
  · exact absurd rfl hne
  · exact h t List.mem_cons_self
  · obtain ⟨c, tail, hc, hblank⟩ := h t List.mem_cons_self
    exact ⟨c, _, by simp [Text.joinWith_cons_cons, hc]; rfl, hblank⟩

/-- An intersection of several types keeps them. -/
theorem intersectionOf_of_two_le {ts : List TypeExpr} (h : 2 ≤ ts.length) :
    intersectionOf ts = intersection ts := by
  rcases ts with _ | ⟨t, _ | ⟨u, ts⟩⟩
  · simp at h
  · simp at h
  · rfl

/-- A union of several types keeps them. -/
theorem unionOf_of_two_le {ts : List TypeExpr} (h : 2 ≤ ts.length) : unionOf ts = union ts := by
  rcases ts with _ | ⟨t, _ | ⟨u, ts⟩⟩
  · simp at h
  · simp at h
  · rfl

variable {type : Reader TypeExpr} {cs rest : List CodePoint} {t : TypeExpr} {level : Int} {bound : Nat}

/-- An operand alone is an intersection. -/
theorem readIntersection_of_readOperand (h : readOperand type cs = some (t, rest))
    (hend : expect [' ', '&', ' '] rest = none) : readIntersection type cs = some (t, rest) := by
  simp [readIntersection, readSeparated, h, hend, intersectionOf]

/-- An intersection alone is a union. -/
theorem readUnion_of_readIntersection (h : readIntersection type cs = some (t, rest))
    (hend : expect [' ', '|', ' '] rest = none) : readUnion type cs = some (t, rest) := by
  simp [readUnion, readSeparated, h, hend, unionOf]

/-- A type between parentheses is an operand. -/
theorem readOperand_parentheses
    (h : type (cs ++ (')' : CodePoint) :: rest) = some (t, (')' : CodePoint) :: rest)) :
    readOperand type (('(' : CodePoint) :: (cs ++ (')' : CodePoint) :: rest)) = some (readBrackets t rest) := by
  simp [readOperand, readPrimary, h]

/-- A type is read as a whole if it is read as an intersection. -/
theorem reads_of_intersection (hsolid : StartsSolid (t.print level).toList)
    (hoperand : t.isCompound = false → ∀ rest, HeadIn afterPrimary rest →
      readOperand (readType bound) ((t.print level).toList ++ rest) = some (readBrackets t.asRead rest))
    (hintersection : ∀ rest, HeadIn afterOperand rest → expect [' ', '&', ' '] rest = none →
      readIntersection (readType bound) ((t.print level).toList ++ rest) = some (t.asRead, rest)) :
    Reads bound t level where
  solid := hsolid
  operand := hoperand
  intersection _ := hintersection
  type rest hrest := by
    have hread := hintersection rest hrest.append_right (expect_eq_none _ hrest (by decide))
    exact readUnion_of_readIntersection hread (expect_eq_none _ hrest (by decide))

/-- A type is read as a whole if it is read as an operand. -/
theorem reads_of_operand (hsolid : StartsSolid (t.print level).toList)
    (hoperand : ∀ rest, HeadIn afterPrimary rest →
      readOperand (readType bound) ((t.print level).toList ++ rest) = some (readBrackets t.asRead rest)) :
    Reads bound t level := by
  apply reads_of_intersection hsolid fun _ => hoperand
  intro rest hrest hend
  have hread := hoperand rest hrest.append_right
  rw [readBrackets_of_headIn t.asRead hrest] at hread
  exact readIntersection_of_readOperand hread hend

/-- A primary type is read as a whole if it is read as such. -/
theorem reads_of_primary (hsolid : StartsSolid (t.print level).toList)
    (hprimary : ∀ rest, HeadIn afterPrimary rest →
      readPrimary (readType bound) ((t.print level).toList ++ rest) = some (t.asRead, rest)) :
    Reads bound t level :=
  reads_of_operand hsolid fun rest hrest => by simp [readOperand, hprimary rest hrest]

/-- A word that does not start another kind of primary type is read as a word. -/
theorem readPrimary_of_isNameStart {c : CodePoint} (hc : isNameStart c = true) (cs : List CodePoint) :
    readPrimary type (c :: cs) = readWord type (c :: cs) := by
  have hother (d : CodePoint) (hd : isNameStart d = false) : c ≠ d := ne_of_isNameStart hc hd
  simp [readPrimary, hother '(' (by decide), hother '\x7b' (by decide), hother '"' (by decide),
    hother '-' (by decide), isDigit_of_isNameStart hc]

/-- A type whose text is a word that stands for it is read. -/
theorem reads_of_word {c : CodePoint} {cs : List CodePoint} (htext : (t.print level).toList = c :: cs)
    (hc : isNameStart c = true) (hparts : ∀ d ∈ c :: cs, isDottedPart d = true)
    (hword : ofWord (c :: cs) = some t.asRead) : Reads bound t level := by
  apply reads_of_primary ⟨c, cs, htext, isWhitespace_of_isNameStart hc⟩
  intro rest hrest
  have hread := readWord_append (readType bound) hparts hrest (by decide) (by decide)
  rw [List.cons_append] at hread
  rw [htext, List.cons_append, readPrimary_of_isNameStart hc, hread, hword, Option.map_some]

/-- A type whose text is an identifier that stands for it is read. -/
theorem reads_of_identifier (word : Text) (htext : t.print level = word)
    (hidentifier : isIdentifier word.toList = true) (hword : ofWord word.toList = some t.asRead) :
    Reads bound t level := by
  obtain ⟨c, cs, hcs, hc⟩ := exists_cons_of_isIdentifier hidentifier
  have hparts := isDottedPart_of_isIdentifier hidentifier
  rw [hcs] at hparts hword
  exact reads_of_word (by rw [htext, hcs]) hc hparts hword

/-- A keyword is read back. -/
theorem reads_keyword {name : Text} (h : name ∈ keywords) : Reads bound (keyword name) level := by
  have hletters : ∀ w ∈ keywords, isIdentifier w.toList = true := by decide
  exact reads_of_identifier name rfl (hletters name h) (ofWord_keyword h)

/-- A dotted name starts with a character that starts a name. -/
theorem exists_cons_joinWith {names : List Text} (hne : names ≠ [])
    (hnames : ∀ s ∈ names, isIdentifier s.toList = true) :
    ∃ c cs, (Text.joinWith "." names).toList = c :: cs ∧ isNameStart c = true := by
  rcases names with _ | ⟨s, rest⟩
  · exact absurd rfl hne
  · obtain ⟨c, cs, hcs, hc⟩ := exists_cons_of_isIdentifier (hnames s List.mem_cons_self)
    cases rest with
    | nil => exact ⟨c, cs, hcs, hc⟩
    | cons u rest => exact ⟨c, _, by rw [Text.joinWith_cons_cons]; simp [hcs]; rfl, hc⟩

/-- A reference is read back. -/
theorem reads_reference {parts : List Value} (h : isWritableName parts = true) :
    Reads bound (reference parts) level := by
  obtain ⟨names, rfl, hne, hnames, hsingle⟩ := exists_of_isWritableName h
  have htext : qualifiedName (names.map fun s => .scalar (.text s)) = Text.joinWith "." names := by
    simp [qualifiedName, Function.comp_def, Value.display, Scalar.display]
  obtain ⟨c, cs, hcs, hc⟩ := exists_cons_joinWith hne hnames
  have hprint : ((reference (names.map fun s => .scalar (.text s))).print level).toList = c :: cs :=
    (congrArg Text.toList htext).trans hcs
  apply reads_of_word hprint hc
  · rw [← hcs]
    exact isDottedPart_of_mem_joinWith hnames
  · rw [← hcs]
    exact ofWord_joinWith hne hnames hsingle

/-- An integer literal is read back. -/
theorem reads_literal_int (n : Int) : Reads bound (literal (.scalar (.int n))) level := by
  obtain ⟨c, cs, hcs, hc⟩ := exists_cons_toString n
  have htext : ((literal (.scalar (.int n))).print level).toList = (toString n : Text).toList := rfl
  have hother (d : CodePoint) (hd : d ≠ '-' ∧ d.isDigit = false) : c ≠ d := by
    rintro rfl
    rcases hc with rfl | hdigit
    · exact hd.1 rfl
    · simp [hdigit] at hd
  have hblank : c.isWhitespace = false := by
    have hblanks : ∀ d ∈ blankCharacters, d ≠ '-' ∧ d.isDigit = false := by decide
    exact Bool.eq_false_iff.2 fun hblank =>
      hother c (hblanks c (mem_blankCharacters_of_isWhitespace hblank)) rfl
  apply reads_of_primary ⟨c, cs, htext.trans hcs, hblank⟩
  intro rest hrest
  have hread := readInteger_toString n hrest (by decide)
  rw [hcs, List.cons_append] at hread
  rw [htext, hcs, List.cons_append]
  change _ = some (literal (.scalar (.int n)), rest)
  simp [readPrimary, hother '(' (by decide), hother '\x7b' (by decide), hother '"' (by decide), hc, hread]

/-- A text literal is read back. -/
theorem reads_literal_text (s : Text) : Reads bound (literal (.scalar (.text s))) level := by
  have htext : ((literal (.scalar (.text s))).print level).toList =
      ('"' : CodePoint) :: (Text.escapeChars s.toList ++ [('"' : CodePoint)]) := Text.toList_quote s
  apply reads_of_primary ⟨'"', _, htext, by decide⟩
  intro rest _
  have hread := Text.unquote_escapeChars s rest
  rw [htext]
  change _ = some (literal (.scalar (.text s.merged)), rest)
  simp [readPrimary, hread]

/-- A literal is read back. -/
theorem reads_literal {value : Value} (h : isWritableLiteral value = true) :
    Reads bound (literal value) level := by
  unfold isWritableLiteral at h
  split at h
  · cases h
  · rename_i s hfloat
    cases s with
    | null => exact reads_of_identifier "null" rfl (by decide) rfl
    | bool b =>
      cases b with
      | true => exact reads_of_identifier "true" rfl (by decide) rfl
      | false => exact reads_of_identifier "false" rfl (by decide) rfl
    | int n => exact reads_literal_int n
    | float x => exact absurd rfl (hfloat x)
    | text s => exact reads_literal_text s
  · cases h

/-- A type marked as never null is read back. -/
theorem reads_nonNull (h : Reads bound t level) : Reads (bound + 1) (nonNull t) level := by
  have htext : ((nonNull t).print level).toList =
      ("NonNullable" : Text).toList ++ ('<' : CodePoint) :: ((t.print level).toList ++ [('>' : CodePoint)]) := by
    change ("NonNullable<" ++ t.print level ++ ">").toList = _
    simp
  have hparts : ∀ c ∈ ("NonNullable" : Text).toList, isDottedPart c = true :=
    List.all_eq_true.1 (by decide)
  apply reads_of_primary ⟨'N', _, htext, by decide⟩
  intro rest _
  have hangle : HeadIn ['<'] (('<' : CodePoint) :: ((t.print level).toList ++ ('>' : CodePoint) :: rest)) :=
    headIn_cons List.mem_cons_self _
  have hinner := h.type (('>' : CodePoint) :: rest) (headIn_cons (by decide) rest)
  have hfull : ((nonNull t).print level).toList ++ rest =
      ("NonNullable" : Text).toList ++ ('<' : CodePoint) ::
        ((t.print level).toList ++ ('>' : CodePoint) :: rest) := by simp [htext]
  have hword : readPrimary (readType (bound + 1)) (((nonNull t).print level).toList ++ rest) =
      readWord (readType (bound + 1)) (((nonNull t).print level).toList ++ rest) := by
    rw [hfull]
    exact readPrimary_of_isNameStart (by decide) _
  rw [hword, hfull, readWord, dropWhile_append_of_headIn hparts hangle (by decide),
    takeWhile_append_of_headIn hparts hangle (by decide)]
  change _ = some (nonNull t.asRead, rest)
  simp [hinner]

/-- A type between parentheses, or one that needs none, is read back as an operand. -/
theorem Reads.operand_parenthesized (h : Reads (bound + 1) t level) (hinner : Reads bound t level)
    (hrest : HeadIn afterPrimary rest) :
    readOperand (readType (bound + 1)) ((parenthesized t.isCompound (t.print level)).toList ++ rest) =
      some (readBrackets t.asRead rest) := by
  cases hcompound : t.isCompound with
  | false => simpa [parenthesized] using h.operand hcompound rest hrest
  | true =>
    have hread := readOperand_parentheses (hinner.type ((')' : CodePoint) :: rest) (headIn_cons (by decide) rest))
    simpa [parenthesized] using hread

/-- Parentheses do not start with a blank. -/
theorem Reads.solid_parenthesized (h : Reads bound t level) (needed : Bool) :
    StartsSolid (parenthesized needed (t.print level)).toList := by
  cases needed with
  | false => simpa [parenthesized] using h.solid
  | true => exact ⟨'(', _, by simp [parenthesized]; rfl, by decide⟩

/-- An array type is read back. -/
theorem reads_array (h : Reads (bound + 1) t level) (hinner : Reads bound t level) :
    Reads (bound + 1) (array t) level := by
  have htext : ((array t).print level).toList =
      (parenthesized t.isCompound (t.print level)).toList ++ [('[' : CodePoint), ']'] := by
    change (parenthesized t.isCompound (t.print level) ++ "[]").toList = _
    simp
  apply reads_of_operand (htext ▸ (h.solid_parenthesized t.isCompound).append _)
  intro rest _
  have hread := h.operand_parenthesized hinner
    (headIn_cons (by decide) ((']' : CodePoint) :: rest) : HeadIn _ (('[' : CodePoint) :: _))
  rw [htext, List.append_assoc]
  exact hread

/-- A type between parentheses, or one that needs none in a union, is read back as an intersection. -/
theorem Reads.intersection_parenthesized (h : Reads (bound + 1) t level) (hinner : Reads bound t level)
    (hrest : HeadIn afterOperand rest) (hend : expect [' ', '&', ' '] rest = none) :
    readIntersection (readType (bound + 1)) ((parenthesized t.isUnion (t.print level)).toList ++ rest) =
      some (t.asRead, rest) := by
  cases hunion : t.isUnion with
  | false => simpa [parenthesized] using h.intersection hunion rest hrest hend
  | true =>
    have hread := readOperand_parentheses (hinner.type ((')' : CodePoint) :: rest) (headIn_cons (by decide) rest))
    rw [readBrackets_of_headIn t.asRead hrest] at hread
    simpa [parenthesized] using readIntersection_of_readOperand hread hend

/-- An intersection of several types is read back. -/
theorem reads_intersection {members : List TypeExpr} (hmembers : 2 ≤ members.length)
    (h : ∀ t ∈ members, Reads (bound + 1) t level) (hinner : ∀ t ∈ members, Reads bound t level) :
    Reads (bound + 1) (intersection members) level := by
  have hne : members ≠ [] := List.ne_nil_of_length_pos (by omega)
  have htext : (intersection members).print level = Text.joinWith " & "
      (members.map fun t => parenthesized t.isCompound (t.print level)) :=
    congrArg (Text.joinWith " & ") (printIntersection_eq members level)
  have hsolid : StartsSolid ((intersection members).print level).toList :=
    htext ▸ startsSolid_joinWith " & " hne fun t ht => (h t ht).solid_parenthesized t.isCompound
  apply reads_of_intersection hsolid nofun
  intro rest hrest hend
  have hitem (t : TypeExpr) (ht : t ∈ members) (more : List CodePoint) (hmore : HeadIn afterOperand more) :
      readOperand (readType (bound + 1))
          ((parenthesized t.isCompound (t.print level)).toList ++ more) = some (t.asRead, more) := by
    rw [(h t ht).operand_parenthesized (hinner t ht) hmore.append_right,
      readBrackets_of_headIn t.asRead hmore]
  have htoken : (" & " : Text).toList = [(' ' : CodePoint), '&', ' '] := rfl
  have hbound := length_le_length_append (by decide : 0 < (" & " : Text).toList.length)
    (fun t => parenthesized t.isCompound (t.print level)) members rest
  have hread := readSeparated_joinWith (readOperand (readType (bound + 1)))
    (fun t => parenthesized t.isCompound (t.print level)) (HeadIn afterOperand)
    htoken hne hitem (fun more => headIn_cons (by decide) _) hrest hend hbound
  have htwo : 2 ≤ (members.map asRead).length := by rwa [List.length_map]
  have hmap : (intersection members).asRead = intersection (members.map asRead) :=
    congrArg intersection (rewrittenAll_eq Text.merged members)
  rw [htext, readIntersection, hread, hmap, ← intersectionOf_of_two_le htwo]
  rfl

/-- A union of several types is read back. -/
theorem reads_union {members : List TypeExpr} (hmembers : 2 ≤ members.length)
    (h : ∀ t ∈ members, Reads (bound + 1) t level) (hinner : ∀ t ∈ members, Reads bound t level) :
    Reads (bound + 1) (union members) level := by
  have hne : members ≠ [] := List.ne_nil_of_length_pos (by omega)
  have htext : (union members).print level = Text.joinWith " | "
      (members.map fun t => parenthesized t.isUnion (t.print level)) :=
    congrArg (Text.joinWith " | ") (printUnion_eq members level)
  have hsolid : StartsSolid ((union members).print level).toList :=
    htext ▸ startsSolid_joinWith " | " hne fun t ht => (h t ht).solid_parenthesized t.isUnion
  refine ⟨hsolid, nofun, nofun, fun rest hrest => ?_⟩
  have htoken : (" | " : Text).toList = [(' ' : CodePoint), '|', ' '] := rfl
  have hbound := length_le_length_append (by decide : 0 < (" | " : Text).toList.length)
    (fun t => parenthesized t.isUnion (t.print level)) members rest
  have hread := readSeparated_joinWith (readIntersection (readType (bound + 1)))
    (fun t => parenthesized t.isUnion (t.print level))
    (fun more => HeadIn afterOperand more ∧ expect [' ', '&', ' '] more = none)
    htoken hne
    (fun t ht more hmore => (h t ht).intersection_parenthesized (hinner t ht) hmore.1 hmore.2)
    (fun more => ⟨headIn_cons (by decide) _, rfl⟩)
    ⟨hrest.append_right, expect_eq_none _ hrest (by decide)⟩ (expect_eq_none _ hrest (by decide)) hbound
  have htwo : 2 ≤ (members.map asRead).length := by rwa [List.length_map]
  have hmap : (union members).asRead = union (members.map asRead) :=
    congrArg union (rewrittenAll_eq Text.merged members)
  rw [htext, readType, readUnion, hread, hmap, ← unionOf_of_two_le htwo]
  rfl

/-- The type of a member is read up to its semicolon. -/
theorem Reads.readsMember (h : Reads bound t level) : ReadsMember (readType (bound + 1)) level t :=
  ⟨h.solid, fun rest => h.type ((';' : CodePoint) :: rest) (headIn_cons (by decide) rest)⟩

/-- An object type is read back. -/
theorem reads_object {fields : List (Field TypeExpr)} {index : Option (IndexSignature TypeExpr)}
    (hfields : writableFields fields = true) (hindex : writableIndex index = true)
    (hreads : ∀ field ∈ fields, Reads bound field.type (level + 1))
    (hreadsIndex : ∀ signature ∈ index, Reads bound signature.type (level + 1)) :
    Reads (bound + 1) (object fields index) level := by
  have htext : (object fields index).print level = block
      (fields.map (fieldLine (level + 1)) ++ index.toList.map (indexLine (level + 1))) level := by
    rw [← printFields_eq, ← printIndex_eq]
    rfl
  have hsolid : StartsSolid ((object fields index).print level).toList := by
    obtain ⟨closing, -, hblock⟩ := toList_block
      (fields.map (fieldLine (level + 1)) ++ index.toList.map (indexLine (level + 1))) level
    exact ⟨'\x7b', _, htext ▸ hblock, by decide⟩
  apply reads_of_primary hsolid
  intro rest _
  rw [htext]
  exact readPrimary_block hfields hindex (fun field hfield => (hreads field hfield).readsMember)
    (fun signature hsignature => (hreadsIndex signature hsignature).readsMember) level rest

end SchemaTypes.TypeExpr
