import SchemaTypes.Namespace.Basic
import SchemaTypes.Proofs.Document.Same
import Mathlib.Data.List.Induction

/-!
# Looking up what was put into namespaces

A declaration that is added to a namespace is found under its qualified name, unless a declaration
of the same qualified name is there already. All other look-ups give what they gave before. Hence a
look-up among entries put together in order of arrival finds the first entry that has the qualified
name, whichever namespaces had to be made or merged on the way.

The names of namespaces are texts throughout; the name of a declaration may be any value.
-/

namespace SchemaTypes

/-- The entry of a declaration at a path. -/
def entryOf (result : List Text × Declaration) : Entry := ⟨result.1.map .text, result.2⟩

/-- Texts are never refused as names. -/
theorem Naming.applyAll_texts (naming : Naming) (names : List Text) :
    naming.applyAll (names.map .text) = .ok ((names.map naming.ofText).map .text) := by
  induction names with
  | nil => rfl
  | cons name rest ih =>
    rw [List.map_cons, applyAll, ih]
    rfl

namespace Namespace

/-- Adding a declaration keeps the name of the namespace. -/
theorem insertAt_name (d : Declaration) (names : List Value) (node : Namespace) :
    (insertAt d names node).name = node.name := by
  cases names <;> rfl

/-- Nothing is found in a namespace that holds nothing. -/
theorem findIn?_empty (outer : Value) (path : List Value) (name : Value) :
    (empty outer).findIn? path name = none := by
  cases path <;> rfl

/-- The changed namespace is found under its name, and every other one as before. -/
theorem find?_updateChild (name other : Text) {change : Namespace → Namespace}
    (hname : ∀ node, (change node).name = node.name) (children : List Namespace) :
    (updateChild (.text name) change children).find? (fun child => child.name.same (.text other)) =
      if name = other then
        some (change ((children.find? fun child => child.name.same (.text name)).getD
          (empty (.text name))))
      else children.find? fun child => child.name.same (.text other) := by
  induction children with
  | nil =>
    rw [updateChild, List.find?_singleton, hname, empty, Value.text_same_text]
    by_cases h : name = other <;> simp [h]
  | cons child rest ih =>
    by_cases hchild : child.name.same (.text name) = true
    · have hnamed : child.name = .text name := (Value.same_text_iff _ _).mp hchild
      rw [updateChild, if_pos hchild, List.find?_cons, hname, hnamed, Value.text_same_text,
        List.find?_cons, hchild, List.find?_cons, hnamed, Value.text_same_text]
      by_cases h : name = other <;> simp [h]
    · rw [updateChild, if_neg hchild, List.find?_cons, ih, List.find?_cons, List.find?_cons]
      rw [Bool.not_eq_true] at hchild
      rw [hchild]
      by_cases h : name = other
      · subst h
        simp [hchild]
      · simp only [if_neg h]

/-- A declaration that is added is found under its qualified name unless another one is. -/
theorem findIn?_insertAt (d : Declaration) (names path : List Text) (name : Text)
    (node : Namespace) :
    (insertAt d (names.map .text) node).findIn? (path.map .text) (.text name) =
      (node.findIn? (path.map .text) (.text name)).or
        (if names = path ∧ d.name.same (.text name) then some d else none) := by
  induction names generalizing path node with
  | nil =>
    cases path with
    | nil =>
      simp only [List.map_nil, insertAt, findIn?, descend?, Option.bind_some, List.find?_append,
        List.find?_singleton, true_and]
    | cons segment rest =>
      rw [if_neg (by simp), Option.or_none]
      rfl
  | cons first others ih =>
    cases path with
    | nil =>
      rw [if_neg (by simp), Option.or_none]
      rfl
    | cons segment rest =>
      have hchild := find?_updateChild first segment (insertAt_name d (others.map .text)) node.children
      simp only [List.map_cons, insertAt, findIn?, descend?, child?] at ih ⊢
      rw [hchild]
      by_cases h : first = segment
      · subst h
        cases hfound : node.children.find? fun child => child.name.same (.text first) with
        | none =>
          have hnone := findIn?_empty (.text first) (rest.map .text) (.text name)
          rw [findIn?] at hnone
          simp [ih, hnone]
        | some child => simp [ih]
      · simp [h]

/-- Put declarations into the namespaces that their paths name, one after the other. -/
def place (naming : Naming) (node : Namespace) (results : List (List Text × Declaration)) : Namespace :=
  results.foldl
    (fun inner result => insertAt result.2 ((result.1.dropLast.map naming.ofText).map .text) inner) node

/-- Entries with paths of texts are never refused. -/
theorem assemble_entryOf (naming : Naming) (results : List (List Text × Declaration)) :
    assemble naming (results.map entryOf) = .ok (place naming (empty (.text "")) results) := by
  have hfold (node : Namespace) :
      (results.map entryOf).foldlM (insert naming) node = .ok (place naming node results) := by
    induction results generalizing node with
    | nil => rfl
    | cons result rest ih =>
      have hinsert : insert naming node (entryOf result) =
          .ok (insertAt result.2 ((result.1.dropLast.map naming.ofText).map .text) node) := by
        rw [insert, entryOf, ← List.map_dropLast, naming.applyAll_texts]
        rfl
      rw [List.map_cons, List.foldlM_cons, hinsert]
      exact ih _
  exact hfold _

/-- The first declaration with a qualified name is found, after those that were there before. -/
theorem findIn?_place (naming : Naming) (node : Namespace) (results : List (List Text × Declaration))
    (path : List Text) (name : Text) :
    (place naming node results).findIn? (path.map .text) (.text name) =
      (node.findIn? (path.map .text) (.text name)).or
        ((results.find? fun result => result.1.dropLast.map naming.ofText = path ∧
          result.2.name.same (.text name)).map (·.2)) := by
  induction results generalizing node with
  | nil => exact (Option.or_none).symm
  | cons result rest ih =>
    rw [place, List.foldl_cons, ← place, ih, findIn?_insertAt, Option.or_assoc, List.find?_cons]
    by_cases h : result.1.dropLast.map naming.ofText = path ∧ result.2.name.same (.text name) = true
    · rw [if_pos h, decide_eq_true h]
      rfl
    · rw [if_neg h, decide_eq_false h, Option.none_or]

/-- A declaration is named by the end of its path. -/
structure Named (naming : Naming) (result : List Text × Declaration) : Prop where
  ne_nil : result.1 ≠ []
  name_eq : result.2.name = .text (naming.ofText (result.1.getLastD ""))

/-- A declaration named by the end of its path has the qualified name of its path and no other. -/
theorem Named.qualified_iff {naming : Naming} {result : List Text × Declaration}
    (h : Named naming result) (path : List Text) (name : Text) :
    (result.1.dropLast.map naming.ofText = path ∧ result.2.name.same (.text name)) ↔
      result.1.map naming.ofText = path ++ [name] := by
  obtain ⟨segments, declaration⟩ := result
  obtain ⟨front, last, rfl⟩ := (List.eq_nil_or_concat segments).resolve_left h.ne_nil
  have hname : declaration.name = .text (naming.ofText last) := by simpa using h.name_eq
  simp [hname, Value.text_same_text]

/-- A look-up of a qualified name with several parts goes into the namespace of all but the last. -/
theorem find?_concat (node : Namespace) (path : List Value) (name : Value) :
    node.find? (path ++ [name]) = .ok (node.findIn? path name) := by
  rw [find?, List.getLast?_concat, List.dropLast_concat]

/-- The look-up of a qualified name finds the first declaration that is put into the namespaces of all parts
but the last and has the last part as its name. -/
theorem find?_place (naming : Naming) (results : List (List Text × Declaration)) (names : List Text)
    (name : Text) :
    (place naming (empty (.text "")) results).find? ((names ++ [name]).map .text) =
      .ok ((results.find? fun result => result.1.dropLast.map naming.ofText = names ∧
        result.2.name = .text name).map (·.2)) := by
  rw [List.map_append, List.map_singleton, find?_concat, findIn?_place, findIn?_empty, Option.none_or]
  simp only [Value.same_text_iff]

/-- Among declarations named by the ends of their paths, the look-up of a path finds the first one
whose path has the same identifiers. -/
theorem findIn?_place_of_named {naming : Naming} {results : List (List Text × Declaration)}
    (hnamed : ∀ result ∈ results, Named naming result) (path : List Text) (name : Text) :
    (place naming (empty (.text "")) results).findIn? (path.map .text) (.text name) =
      (results.find? fun result => result.1.map naming.ofText = path ++ [name]).map (·.2) := by
  rw [findIn?_place, findIn?_empty, Option.none_or]
  rw [← List.head?_filter, ← List.head?_filter, List.filter_congr fun result hresult => ?_]
  rw [decide_eq_decide]
  exact (hnamed result hresult).qualified_iff path name

/-- A declaration named by the end of its path is found under its path, or another one is. -/
theorem exists_find?_place {naming : Naming} {results : List (List Text × Declaration)}
    {result : List Text × Declaration} (hmem : result ∈ results) (hnamed : Named naming result) :
    ∃ declaration, (place naming (empty (.text "")) results).find?
      ((result.1.map naming.ofText).map .text) = .ok (some declaration) := by
  obtain ⟨front, last, hpath⟩ := (List.eq_nil_or_concat result.1).resolve_left hnamed.ne_nil
  rw [List.concat_eq_append] at hpath
  have hqualified := (hnamed.qualified_iff (front.map naming.ofText) (naming.ofText last)).mpr
    (by rw [hpath, List.map_append, List.map_singleton])
  have hsome : (results.find? fun other => other.1.dropLast.map naming.ofText = front.map naming.ofText ∧
      other.2.name.same (.text (naming.ofText last))).isSome = true :=
    List.find?_isSome.mpr ⟨result, hmem, decide_eq_true hqualified⟩
  obtain ⟨found, hfound⟩ := Option.isSome_iff_exists.mp hsome
  refine ⟨found.2, ?_⟩
  rw [hpath, List.map_append, List.map_append, List.map_singleton, List.map_singleton, find?_concat,
    findIn?_place, findIn?_empty, Option.none_or, hfound, Option.map_some]

/-- Changing one namespace so that only a given declaration is new adds only that one. -/
theorem mem_entriesUnderAll_updateChild {name : Value} {change : Namespace → Namespace}
    {path : List Value} {d : Declaration} {children : List Namespace} {entry : List Value × Declaration}
    (hchange : ∀ child, entry ∈ entriesUnder path (change child) →
      entry ∈ entriesUnder path child ∨ entry.2 = d)
    (h : entry ∈ entriesUnderAll path (updateChild name change children)) :
    entry ∈ entriesUnderAll path children ∨ entry.2 = d := by
  induction children with
  | nil =>
    simp only [updateChild, entriesUnderAll, List.append_nil] at h
    refine (hchange (empty name) h).imp_left fun hmem => ?_
    simp [empty, entriesUnder, entriesUnderAll] at hmem
  | cons child rest ih =>
    rw [updateChild] at h
    split at h
    · simp only [entriesUnderAll, List.mem_append] at h ⊢
      rcases h with h | h
      · exact (hchange child h).imp_left Or.inl
      · exact Or.inl (Or.inr h)
    · simp only [entriesUnderAll, List.mem_append] at h ⊢
      rcases h with h | h
      · exact Or.inl (Or.inl h)
      · exact (ih h).imp_left Or.inr

/-- Adding a declaration adds nothing else. -/
theorem mem_entriesUnder_insertAt {d : Declaration} {names path : List Value} {node : Namespace}
    {entry : List Value × Declaration} (h : entry ∈ entriesUnder path (insertAt d names node)) :
    entry ∈ entriesUnder path node ∨ entry.2 = d := by
  obtain ⟨outer, declarations, children⟩ := node
  cases names with
  | nil =>
    simp only [insertAt, entriesUnder, List.map_append, List.mem_append, List.map_singleton,
      List.mem_singleton] at h ⊢
    rcases h with (h | h) | h
    · exact Or.inl (Or.inl h)
    · exact Or.inr (h ▸ rfl)
    · exact Or.inl (Or.inr h)
  | cons name rest =>
    simp only [insertAt, entriesUnder, List.mem_append] at h ⊢
    rcases h with h | h
    · exact Or.inl (Or.inl h)
    · exact (mem_entriesUnderAll_updateChild (fun _ => mem_entriesUnder_insertAt) h).imp_left Or.inr

/-- The declarations in namespaces are those that were put there. -/
theorem mem_entries_place {naming : Naming} {results : List (List Text × Declaration)}
    {entry : List Value × Declaration}
    (h : entry ∈ (place naming (empty (.text "")) results).entries) :
    ∃ result ∈ results, entry.2 = result.2 := by
  induction results using List.reverseRecOn with
  | nil => simp [place, entries, empty, entriesUnder, entriesUnderAll] at h
  | append_singleton results result ih =>
    rw [place, List.foldl_append, ← place] at h
    rcases mem_entriesUnder_insertAt h with h | h
    · obtain ⟨other, hmem, heq⟩ := ih h
      exact ⟨other, List.mem_append_left _ hmem, heq⟩
    · exact ⟨result, by simp, h⟩

end Namespace

end SchemaTypes
