import SchemaTypes.Proofs.TypeExpr.Operator

/-!
# Parsing undoes printing

The text of a type is longer than the texts of the types in it, so its length bounds the nesting that
the reader meets, and induction on the length shows that every writable type is read back. Types with
the same text therefore differ at most in the flags of their index signatures and in the spelling of
characters by pairs of surrogates, which no text shows.

A type with an integer of too many digits has no text at all.
-/

namespace SchemaTypes.TypeExpr

/-- Parentheses make no text shorter. -/
theorem length_le_length_parenthesized (needed : Bool) (s : Text) :
    s.toList.length ≤ (parenthesized needed s).toList.length := by
  cases needed with
  | false => simp [parenthesized]
  | true =>
    simp only [parenthesized, if_true, Text.toList_append, List.length_append]
    omega

/-- A member of a union or an intersection has a shorter text. -/
theorem length_lt_length_joinWith_parenthesized {separator : Text}
    (hseparator : 0 < separator.toList.length) {members : List TypeExpr} (hmembers : 2 ≤ members.length)
    (needed : TypeExpr → Bool) (level : Int) {t : TypeExpr} (ht : t ∈ members) :
    (t.print level).toList.length < (Text.joinWith separator
      (members.map fun t => parenthesized (needed t) (t.print level))).toList.length := by
  have hmem : parenthesized (needed t) (t.print level) ∈
      members.map fun t => parenthesized (needed t) (t.print level) := List.mem_map_of_mem ht
  have hlt := Text.length_lt_length_joinWith hseparator (by rwa [List.length_map]) hmem
  exact Nat.lt_of_le_of_lt (length_le_length_parenthesized _ _) hlt

/-- A line of an object type is shorter than its text. -/
theorem length_lt_length_block {lines : List Text} {line : Text} (hline : line ∈ lines) (level : Int) :
    line.toList.length < (block lines level).toList.length := by
  obtain ⟨closing, -, hblock⟩ := toList_block lines level
  have hmem : (('\n' : CodePoint) :: (indentation (level + 1)).toList) ++ line.toList ∈
      lines.map fun line => (('\n' : CodePoint) :: (indentation (level + 1)).toList) ++ line.toList :=
    List.mem_map_of_mem hline
  have hlength := (List.sublist_flatten_of_mem hmem).length_le
  rw [← List.flatMap_def] at hlength
  rw [hblock]
  simp only [List.length_cons, List.length_append] at hlength ⊢
  omega

/-- The line of a member is shorter than the text of the object type. -/
theorem length_lt_length_print_object {fields : List (Field TypeExpr)}
    {index : Option (IndexSignature TypeExpr)} {line : Text} {level : Int}
    (hline : line ∈ fields.map (fieldLine (level + 1)) ++ index.toList.map (indexLine (level + 1))) :
    line.toList.length < ((object fields index).print level).toList.length := by
  have hlt := length_lt_length_block hline level
  rw [← printFields_eq, ← printIndex_eq] at hlt
  exact hlt

/-- The type of a field has a shorter text than the object type. -/
theorem length_print_field_lt {fields : List (Field TypeExpr)} {field : Field TypeExpr}
    (hfield : field ∈ fields) (index : Option (IndexSignature TypeExpr)) (level : Int) :
    (field.type.print (level + 1)).toList.length < ((object fields index).print level).toList.length := by
  have hlt : (fieldLine (level + 1) field).toList.length < _ := length_lt_length_print_object
    (List.mem_append_left (index.toList.map (indexLine (level + 1))) (List.mem_map_of_mem hfield))
  simp only [fieldLine, Text.toList_append, List.length_append] at hlt
  omega

/-- The type of an index signature has a shorter text than the object type. -/
theorem length_print_index_lt (fields : List (Field TypeExpr)) {index : Option (IndexSignature TypeExpr)}
    {signature : IndexSignature TypeExpr} (hindex : signature ∈ index) (level : Int) :
    (signature.type.print (level + 1)).toList.length <
      ((object fields index).print level).toList.length := by
  have hlt : (indexLine (level + 1) signature).toList.length < _ := length_lt_length_print_object
    (List.mem_append_right (fields.map (fieldLine (level + 1)))
      (List.mem_map_of_mem (Option.mem_toList.2 hindex)))
  simp only [indexLine, Text.toList_append, List.length_append] at hlt
  omega

/-- A writable type is read back if its text is shorter than the bound on the nesting. -/
theorem reads_of_length_lt (length : Nat) : ∀ (t : TypeExpr) (level : Int) (bound : Nat),
    t.writable = true → (t.print level).toList.length = length → length < bound →
      Reads bound t level := by
  induction length using Nat.strongRecOn with
  | ind length ih =>
    intro t level bound hwritable hlength hbound
    obtain ⟨bound, rfl⟩ : ∃ n, bound = n + 1 := ⟨bound - 1, by omega⟩
    -- A part is shorter than the type, so it is read both beside and inside brackets of any kind.
    have hpart (part : TypeExpr) (inner : Int) (hwritten : part.writable = true)
        (hlt : (part.print inner).toList.length < (t.print level).toList.length) :
        Reads (bound + 1) part inner ∧ Reads bound part inner :=
      ⟨ih _ (by omega) part inner _ hwritten rfl (by omega),
        ih _ (by omega) part inner _ hwritten rfl (by omega)⟩
    cases t with
    | keyword name => exact reads_keyword (List.contains_iff_mem.1 hwritable)
    | literal value => exact reads_literal hwritable
    | nonNull inner =>
      have hlt : (inner.print level).toList.length < ((nonNull inner).print level).toList.length := by
        change _ < ("NonNullable<" ++ inner.print level ++ ">").toList.length
        simp only [Text.toList_append, List.length_append]
        have hmark : 0 < (">" : Text).toList.length := Nat.one_pos
        omega
      exact reads_nonNull (hpart inner level hwritable hlt).2
    | array item =>
      have hlt : (item.print level).toList.length < ((array item).print level).toList.length := by
        have hle := length_le_length_parenthesized item.isCompound (item.print level)
        have hbrackets : 0 < ("[]" : Text).toList.length := Nat.two_pos
        change _ < (parenthesized item.isCompound (item.print level) ++ "[]").toList.length
        simp only [Text.toList_append, List.length_append]
        omega
      exact reads_array (hpart item level hwritable hlt).1 (hpart item level hwritable hlt).2
    | object fields index =>
      have hobject := hwritable
      change (writableFields fields && writableIndex index) = true at hwritable
      rw [Bool.and_eq_true] at hwritable
      exact reads_object hwritable.1 hwritable.2
        (fun field hfield => (hpart field.type (level + 1)
          (writable_of_mem_parts hobject (List.mem_append_left _ (List.mem_map_of_mem hfield)))
          (length_print_field_lt hfield index level)).2)
        (fun signature hindex => (hpart signature.type (level + 1)
          (writable_of_mem_parts hobject
            (List.mem_append_right _ (List.mem_map_of_mem (Option.mem_toList.2 hindex))))
          (length_print_index_lt fields hindex level)).2)
    | reference parts => exact reads_reference hwritable
    | union members =>
      change (decide (2 ≤ members.length) && writableAll members) = true at hwritable
      rw [writableAll_eq, Bool.and_eq_true, decide_eq_true_eq, List.all_eq_true] at hwritable
      have hmember (t : TypeExpr) (ht : t ∈ members) := hpart t level (hwritable.2 t ht) (by
        change _ < (Text.joinWith " | " (printUnion members level)).toList.length
        rw [printUnion_eq]
        exact length_lt_length_joinWith_parenthesized (by decide) hwritable.1 isUnion level ht)
      exact reads_union hwritable.1 (fun t ht => (hmember t ht).1) fun t ht => (hmember t ht).2
    | intersection members =>
      change (decide (2 ≤ members.length) && writableAll members) = true at hwritable
      rw [writableAll_eq, Bool.and_eq_true, decide_eq_true_eq, List.all_eq_true] at hwritable
      have hmember (t : TypeExpr) (ht : t ∈ members) := hpart t level (hwritable.2 t ht) (by
        change _ < (Text.joinWith " & " (printIntersection members level)).toList.length
        rw [printIntersection_eq]
        exact length_lt_length_joinWith_parenthesized (by decide) hwritable.1 isCompound level ht)
      exact reads_intersection hwritable.1 (fun t ht => (hmember t ht).1) fun t ht => (hmember t ht).2

/-- The text of a writable type stands for the type as it is read. -/
theorem parse_print {t : TypeExpr} (h : t.writable = true) (level : Int) :
    parse (t.print level) = some t.asRead := by
  have hreads := reads_of_length_lt _ t level _ h rfl (Nat.lt_succ_self _)
  have hread := hreads.type [] nofun
  rw [List.append_nil] at hread
  simp only [parse, hread]

/-- A writable type is printed at every depth if no integer in it has too many digits. -/
theorem print?_of_writable {t : TypeExpr} (h : t.writable = true) (hoverlong : ¬t.HoldsOverlong)
    (level : Int) : t.print? level = .ok (t.print level) :=
  print?_of_printable (printable_iff.mpr ((obstacle?_of_writable h).1 hoverlong)) level

/-- What is printed as a text has this text. -/
theorem print_eq_of_print? {t : TypeExpr} {level : Int} {text : Text} (h : t.print? level = .ok text) :
    t.print level = text := by
  rw [print?] at h
  split at h
  · exact Except.ok.inj h
  · cases h

/-- A writable type is refused if an integer in it has too many digits, and printed otherwise, at every
depth. The text stands for the type as it is read back: without the flags of its index signatures and
with a character for every pair of surrogates in its literals and field names. So the type is read back,
flags apart, exactly if there are no such pairs, and writable types that are printed alike, at any depth,
are read back alike: without pairs they differ in their flags only. -/
theorem parse_print_faithful (t : TypeExpr) (level : Int) (h : t.writable = true) :
    (t.HoldsOverlong → t.print? level = .error .overlongInteger) ∧
      (¬t.HoldsOverlong → ∃ text, t.print? level = .ok text ∧ parse text = some t.asRead ∧
        (parse text = some t.unflagged ↔ ¬t.HoldsPair) ∧
        ∀ (u : TypeExpr) (other : Int), u.writable = true → u.print? other = .ok text →
          u.asRead = t.asRead ∧ (¬t.HoldsPair → ¬u.HoldsPair → u.unflagged = t.unflagged)) := by
  refine ⟨fun hoverlong => ?_, fun hoverlong => ?_⟩
  · rw [print?, (obstacle?_of_writable h).2 hoverlong]
  · have hparse := parse_print h level
    refine ⟨t.print level, print?_of_writable h hoverlong level, hparse, ?_, fun u other hu htext => ?_⟩
    · rw [hparse, Option.some.injEq, asRead_eq_unflagged_iff]
    · have hsame := parse_print hu other
      rw [print_eq_of_print? htext, hparse, Option.some.injEq] at hsame
      refine ⟨hsame.symm, fun ht hu => ?_⟩
      rw [← asRead_eq_unflagged_iff.mpr ht, ← asRead_eq_unflagged_iff.mpr hu, hsame]

/-- An object type with a member named like the modifier, quoted names, types that need parentheses
and an index signature whose text does not show that it is required. -/
def nestedType : TypeExpr :=
  object
    [⟨.text "readonly", array (union [number, union [string, null]]), true, true⟩,
      ⟨.text "content-type", intersection
        [union [reference [.scalar (.text "Components"), .scalar (.text "Pet")], nonNull boolean],
          object [] none], false, false⟩,
      ⟨.text "", literal (.scalar (.int (-7))), true, false⟩]
    (some ⟨union [literal (.scalar (.text "a | \"b\"")), array (array any)], true, true, "key"⟩)

/-- The nested type is printed below the top level as a text that stands for it alone. -/
theorem parse_print_faithful_nestedType :
    nestedType.writable = true ∧ ¬nestedType.HoldsPair ∧
      ∃ text, nestedType.print? 1 = .ok text ∧ parse text = some nestedType.unflagged ∧
        ∀ (u : TypeExpr) (other : Int), u.writable = true → u.print? other = .ok text →
          ¬u.HoldsPair → u.unflagged = nestedType.unflagged := by
  have hwritable : nestedType.writable = true := by decide
  have hobstacle : nestedType.obstacle?.isNone = true := by decide +kernel
  have hoverlong : ¬nestedType.HoldsOverlong := fun hoverlong => by
    rw [(obstacle?_of_writable hwritable).2 hoverlong] at hobstacle
    cases hobstacle
  have hpair : ¬nestedType.HoldsPair := asRead_eq_unflagged_iff.mp (by rfl)
  obtain ⟨text, hprint, -, hparse, hothers⟩ :=
    (parse_print_faithful nestedType 1 hwritable).2 hoverlong
  exact ⟨hwritable, hpair, text, hprint, hparse.mpr hpair,
    fun u other hu hsame => (hothers u other hu hsame).2 hpair⟩

/-- The literal of a pair of surrogates. -/
def pairLiteral : TypeExpr :=
  literal (.scalar (.text (.ofList [.ofNat 0xd83d, .ofNat 0xde00])))

/-- The literal of the character that the pair stands for. -/
def pairedLiteral : TypeExpr := literal (.scalar (.text (.ofList [.ofNat 0x1f600])))

/-- The literal of the least integer with too many digits. -/
def overlongLiteral : TypeExpr := literal (.scalar (.int (Nat.pow 10 Scalar.digitLimit)))

/-- A pair of surrogates and its character are printed alike, and an integer with too many digits is not
printed. -/
theorem unfaithful_literals :
    (pairLiteral.writable = true ∧ pairedLiteral.writable = true ∧
      pairLiteral.unflagged ≠ pairedLiteral.unflagged ∧
      pairLiteral.print? 0 = .ok "\"\\ud83d\\ude00\"" ∧
      pairedLiteral.print? 0 = .ok "\"\\ud83d\\ude00\"") ∧
    overlongLiteral.writable = true ∧ overlongLiteral.print? 0 = .error .overlongInteger := by
  have hprint : pairLiteral.print 0 = "\"\\ud83d\\ude00\"" := by decide +kernel
  have hprinted : pairedLiteral.print 0 = "\"\\ud83d\\ude00\"" := by decide +kernel
  refine ⟨⟨by decide, by decide, fun hsame => ?_, hprint ▸ rfl, hprinted ▸ rfl⟩, by decide, ?_⟩
  · have htexts := Value.scalar.inj (literal.inj hsame)
    exact absurd (Scalar.text.inj htexts) (by decide)
  · have hoverlong : overlongLiteral.HoldsOverlong := ⟨_, .self, by decide +kernel⟩
    rw [print?, (obstacle?_of_writable (by decide)).2 hoverlong]

end SchemaTypes.TypeExpr
