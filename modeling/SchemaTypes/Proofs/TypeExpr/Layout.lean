import SchemaTypes.Proofs.Document.OneLine
import SchemaTypes.Proofs.TypeExpr.Member

/-!
# The text of a type is laid out in lines

Line feeds come into the text of a type around the members of object types only, and each of them is
followed by the indentation of a member or by the closing brace. So the text is laid out in lines as
long as no name that is printed as it is holds a line end; quoted names and literals never do.
-/

namespace SchemaTypes.TypeExpr

open Text

/-- Whether the name of a field is printed on one line: it is if it is quoted. -/
def isFieldNameOnOneLine : Scalar → Bool
  | .text s => !isBareName s.toList || isOneLine s
  | _ => true

mutual

/-- Whether no name that is printed as it is inside a type holds a line end. -/
def namesOnOneLine : TypeExpr → Bool
  | keyword name => isOneLine name
  | literal _ => true
  | nonNull inner => namesOnOneLine inner
  | array item => namesOnOneLine item
  | object fields index => fieldsOnOneLine fields && indexOnOneLine index
  | reference parts => parts.all fun part => isOneLine part.display
  | union members => allOnOneLine members
  | intersection members => allOnOneLine members

/-- Whether no such name in and inside a list of fields holds a line end. -/
def fieldsOnOneLine : List (Field TypeExpr) → Bool
  | [] => true
  | ⟨name, type, _, _⟩ :: rest =>
    isFieldNameOnOneLine name && namesOnOneLine type && fieldsOnOneLine rest

/-- Whether neither the key of an index signature nor a name inside it holds a line end. -/
def indexOnOneLine : Option (IndexSignature TypeExpr) → Bool
  | none => true
  | some ⟨type, _, _, key⟩ => isOneLine key && namesOnOneLine type

/-- Whether no such name inside a list of types holds a line end. -/
def allOnOneLine : List TypeExpr → Bool
  | [] => true
  | t :: rest => namesOnOneLine t && allOnOneLine rest

end

/-- The indentation of a nesting depth holds no line end. -/
theorem oneLine_indentation (level : Int) : OneLine (indentation level).toList := by
  have hblanks : OneLine ("    " : Text).toList := by decide
  exact fun c hc => hblanks c (mem_of_mem_repeated hc)

/-- A text that is indented by at least one step starts a line. -/
theorem startsLine_indentation {level : Int} (hlevel : 0 ≤ level) (s : Text) :
    StartsLine (indentation (level + 1) ++ s).toList := by
  have hstep : (level + 1).toNat = level.toNat + 1 := by omega
  refine ⟨' ', ?_, by decide⟩
  rw [indentation, hstep, repeated]
  simp

/-- The name of a field is printed on one line if it is quoted or holds no line end. -/
theorem oneLine_fieldName {name : Scalar} (h : isFieldNameOnOneLine name = true) (required : Bool) :
    OneLine (fieldName name required).toList := by
  have hmark : OneLine (Text.ofString (if required then "" else "?")).toList := by cases required <;> decide
  unfold fieldName
  rw [Text.toList_append]
  refine OneLine.append ?_ hmark
  cases name with
  | text s =>
    change OneLine (propertyName s).toList
    by_cases hbare : isBareName s.toList = true
    · rw [propertyName, if_pos hbare]
      exact oneLine_of_isOneLine (by simpa [isFieldNameOnOneLine, hbare] using h)
    · rw [propertyName, if_neg hbare]
      exact oneLine_quote s
  | _ => exact Scalar.oneLine_jsonKey _

/-- The name that a reference is written with stands on one line if all its parts do. -/
theorem oneLine_qualifiedName {parts : List Value}
    (h : (parts.all fun part => isOneLine part.display) = true) :
    OneLine (qualifiedName parts).toList := by
  refine .join (by decide) fun part hpart => ?_
  obtain ⟨value, hvalue, rfl⟩ := List.mem_map.mp hpart
  exact oneLine_of_isOneLine (List.all_eq_true.mp h value hvalue)

/-- Parentheses around a laid out text leave it laid out. -/
theorem laidOut_parenthesized (parentheses : Bool) {s : Text} (h : LaidOut s.toList) :
    LaidOut (parenthesized parentheses s).toList := by
  cases parentheses with
  | false => exact h
  | true =>
    change LaidOut ("(" ++ s ++ ")").toList
    rw [Text.toList_append, Text.toList_append]
    exact ((show OneLine ("(" : Text).toList by decide).laidOut.append h).append
      (show OneLine (")" : Text).toList by decide).laidOut

/-- Laid out members make a laid out object type. -/
theorem laidOut_block {members : List Text} {level : Int} (hlevel : 0 ≤ level)
    (hmembers : ∀ member ∈ members, LaidOut member.toList) : LaidOut (block members level).toList := by
  cases members with
  | nil => exact (show OneLine ("\x7b\x7d" : Text).toList by decide).laidOut
  | cons first rest =>
    have hlines : ∀ line ∈ (first :: rest).map (indentation (level + 1) ++ ·),
        LaidOut line.toList ∧ StartsLine line.toList := by
      intro line hline
      obtain ⟨member, hmember, rfl⟩ := List.mem_map.mp hline
      refine ⟨?_, startsLine_indentation hlevel member⟩
      rw [Text.toList_append]
      exact (oneLine_indentation _).laidOut.append (hmembers member hmember)
    obtain ⟨hjoined, hstarts⟩ := laidOut_joinWith hlines
    have hclosing : OneLine (indentation level ++ "\x7d").toList := by
      rw [Text.toList_append]
      exact (oneLine_indentation level).append (by decide)
    have hstartsClosing : StartsLine (indentation level ++ "\x7d").toList :=
      hclosing.startsLine (by simp)
    have htext : (block (first :: rest) level).toList =
        ('\x7b' : CodePoint) :: '\n' ::
          ((joinWith "\n" ((first :: rest).map (indentation (level + 1) ++ ·))).toList ++
            ('\n' : CodePoint) :: (indentation level ++ "\x7d").toList) := by
      simp [block]
    rw [htext]
    have hinside := (hjoined.append (hclosing.laidOut.newline hstartsClosing)).newline
      (hstarts (by simp)).append
    exact (show OneLine ['\x7b'] by decide).laidOut.append hinside

mutual

/-- The text of a type is laid out in lines if the names in it are printed on one line. -/
theorem laidOut_print : ∀ (t : TypeExpr) {level : Int}, t.namesOnOneLine = true → 0 ≤ level →
    LaidOut (t.print level).toList
  | keyword name, _, h, _ => by
    rw [namesOnOneLine] at h
    rw [print]
    exact (oneLine_of_isOneLine h).laidOut
  | literal value, _, _, _ => by
    rw [print]
    exact value.oneLine_json.laidOut
  | nonNull inner, level, h, hlevel => by
    rw [namesOnOneLine] at h
    rw [print, Text.toList_append, Text.toList_append]
    exact ((show OneLine ("NonNullable<" : Text).toList by decide).laidOut.append
      (laidOut_print inner h hlevel)).append (show OneLine (">" : Text).toList by decide).laidOut
  | array item, level, h, hlevel => by
    rw [namesOnOneLine] at h
    rw [print, Text.toList_append]
    exact (laidOut_parenthesized _ (laidOut_print item h hlevel)).append
      (show OneLine ("[]" : Text).toList by decide).laidOut
  | object fields index, level, h, hlevel => by
    rw [namesOnOneLine, Bool.and_eq_true] at h
    have hinner : 0 ≤ level + 1 := by omega
    rw [print]
    exact laidOut_block hlevel (List.forall_mem_append.mpr
      ⟨laidOut_printFields fields h.1 hinner, laidOut_printIndex index h.2 hinner⟩)
  | reference parts, _, h, _ => by
    rw [namesOnOneLine] at h
    rw [print]
    exact (oneLine_qualifiedName h).laidOut
  | union members, level, h, hlevel => by
    rw [namesOnOneLine] at h
    rw [print, printUnion_eq]
    refine .join (show OneLine (" | " : Text).toList by decide).laidOut fun part hpart => ?_
    obtain ⟨t, ht, rfl⟩ := List.mem_map.mp hpart
    exact laidOut_parenthesized _ (laidOut_printAll members h hlevel t ht)
  | intersection members, level, h, hlevel => by
    rw [namesOnOneLine] at h
    rw [print, printIntersection_eq]
    refine .join (show OneLine (" & " : Text).toList by decide).laidOut fun part hpart => ?_
    obtain ⟨t, ht, rfl⟩ := List.mem_map.mp hpart
    exact laidOut_parenthesized _ (laidOut_printAll members h hlevel t ht)

/-- The fields of an object type are laid out. -/
theorem laidOut_printFields : ∀ (fields : List (Field TypeExpr)) {level : Int},
    fieldsOnOneLine fields = true → 0 ≤ level →
      ∀ member ∈ printFields fields level, LaidOut member.toList
  | [], _, _, _ => by
    rw [printFields]
    exact List.forall_mem_nil _
  | ⟨name, type, required, readOnly⟩ :: rest, level, h, hlevel => by
    rw [fieldsOnOneLine, Bool.and_eq_true, Bool.and_eq_true] at h
    have hmodifier : OneLine (modifier readOnly).toList := by cases readOnly <;> decide
    rw [printFields]
    refine List.forall_mem_cons.mpr ⟨?_, laidOut_printFields rest h.2 hlevel⟩
    simp only [Text.toList_append]
    exact (((hmodifier.append (oneLine_fieldName h.1.1 required)).append
      (show OneLine (": " : Text).toList by decide)).laidOut.append (laidOut_print type h.1.2 hlevel)).append
        (show OneLine (";" : Text).toList by decide).laidOut

/-- The index signature of an object type is laid out. -/
theorem laidOut_printIndex : ∀ (index : Option (IndexSignature TypeExpr)) {level : Int},
    indexOnOneLine index = true → 0 ≤ level →
      ∀ member ∈ printIndex index level, LaidOut member.toList
  | none, _, _, _ => by
    rw [printIndex]
    exact List.forall_mem_nil _
  | some ⟨type, _, readOnly, key⟩, level, h, hlevel => by
    rw [indexOnOneLine, Bool.and_eq_true] at h
    have hmodifier : OneLine (modifier readOnly).toList := by cases readOnly <;> decide
    rw [printIndex]
    refine List.forall_mem_singleton.mpr ?_
    simp only [Text.toList_append]
    exact ((((hmodifier.append (show OneLine ("[" : Text).toList by decide)).append
      (oneLine_of_isOneLine h.1)).append (show OneLine (": string]: " : Text).toList by decide)).laidOut.append
        (laidOut_print type h.2 hlevel)).append (show OneLine (";" : Text).toList by decide).laidOut

/-- The texts of several types are laid out. -/
theorem laidOut_printAll : ∀ (ts : List TypeExpr) {level : Int}, allOnOneLine ts = true → 0 ≤ level →
    ∀ t ∈ ts, LaidOut (t.print level).toList
  | [], _, _, _ => List.forall_mem_nil _
  | t :: rest, level, h, hlevel => by
    rw [allOnOneLine, Bool.and_eq_true] at h
    exact List.forall_mem_cons.mpr ⟨laidOut_print t h.1 hlevel, laidOut_printAll rest h.2 hlevel⟩

end

end SchemaTypes.TypeExpr
