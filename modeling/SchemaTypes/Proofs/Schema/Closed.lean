import SchemaTypes.Proofs.Schema.Mentions
import SchemaTypes.Proofs.Schema.Reachability

/-!
# Every mentioned name is declared

The names that the declarations of a document mention are those of paths that can be reached, or
that of the document. Each of these paths has a declaration named by its end, in the namespaces named
by the segments before. So a look-up of a mentioned name finds a declaration: the root declaration
where the name is its own, and otherwise that of the first path with these identifiers.
-/

namespace SchemaTypes

open Namespace

namespace Resolution

variable {document : Value} {scope : Scope} {start : List (List Text)}
  {results : List (List Text × Declaration)}

/-- A declaration is named by the end of its path. -/
theorem Declares.named {path : List Text} {schema : Value} {declaration : Declaration}
    (h : Declares document scope path schema declaration) (hproper : Pointer.Proper path) :
    Named scope.naming (path, declaration) := by
  have hname := Schema.declare_named scope schema _ _ _ _ _ h.built
  rw [Value.orElse, if_pos (by
    simpa [Value.isPresent, Scalar.isPresent] using hproper.getLastD_ne_empty)] at hname
  exact ⟨hproper.ne_nil, (Except.ok.inj hname).symm⟩

/-- A declaration mentions the names of the paths visited in its schema, or that of the document. -/
theorem Declares.mentions {path : List Text} {schema : Value} {declaration : Declaration}
    (h : Declares document scope path schema declaration) :
    Schema.Mentions scope (Schema.referencesAt document path) [declaration.type] := by
  rw [h.referencesAt_eq]
  exact Schema.declare_mentions scope schema _ _ _ _ _ h.built

/-- All declarations are named by the ends of their paths. -/
theorem Resolves.named (h : Resolves document scope start results) :
    ∀ result ∈ results, Named scope.naming result := by
  intro result hresult
  obtain ⟨schema, hdeclares⟩ := h.declares result hresult
  exact hdeclares.named (h.proper result.1 (List.mem_map_of_mem hresult))

/-- What is visited at a declared path is declared. -/
theorem Resolves.referencesAt_subset (h : Resolves document scope start results) {path : List Text}
    (hpath : path ∈ results.map (·.1)) : Schema.referencesAt document path ⊆ results.map (·.1) :=
  fun inner hinner => (h.mem_iff inner).mpr (((h.mem_iff path).mp hpath).step hinner)

/-- The start is declared. -/
theorem Resolves.start_subset (h : Resolves document scope start results) :
    start ⊆ results.map (·.1) :=
  fun path hpath => (h.mem_iff path).mpr (.start hpath)

/-- All declarations mention names of declared paths, or that of the document. -/
theorem Resolves.mentions (h : Resolves document scope start results) :
    ∀ result ∈ results, Schema.Mentions scope (results.map (·.1)) [result.2.type] := by
  intro result hresult
  obtain ⟨schema, hdeclares⟩ := h.declares result hresult
  exact hdeclares.mentions.mono (h.referencesAt_subset (List.mem_map_of_mem hresult))

end Resolution

namespace Schema

open Resolution

variable {naming : Naming} {document name : Value} {root : Declaration}
  {results : List (List Text × Declaration)}

/-- The root declaration is found first at the top level, and everything else as before. -/
theorem findIn?_withRoot (root : Declaration) (node : Namespace) (path : List Value) (name : Value) :
    (withRoot root node).findIn? path name =
      if path.isEmpty ∧ root.name.same name then some root else node.findIn? path name := by
  cases path with
  | nil =>
    by_cases h : root.name.same name = true <;>
      simp [withRoot, findIn?, descend?, h]
  | cons segment rest =>
    rw [if_neg (by simp)]
    rfl

/-- The first declaration whose path has the same identifiers as a path. -/
def firstAlike (naming : Naming) (results : List (List Text × Declaration)) (path : List Text) :
    Option Declaration :=
  (results.find? fun result => result.1.map naming.ofText = path.map naming.ofText).map (·.2)

/-- A path that is declared has a declaration. -/
theorem exists_firstAlike {path : List Text} (h : path ∈ results.map (·.1)) :
    ∃ declaration, firstAlike naming results path = some declaration := by
  obtain ⟨result, hresult, rfl⟩ := List.mem_map.mp h
  have hsome : (results.find? fun other =>
      other.1.map naming.ofText = result.1.map naming.ofText).isSome = true :=
    List.find?_isSome.mpr ⟨result, hresult, decide_eq_true rfl⟩
  obtain ⟨found, hfound⟩ := Option.isSome_iff_exists.mp hsome
  exact ⟨found.2, by rw [firstAlike, hfound, Option.map_some]⟩

/-- Where identifiers tell paths apart, a declared path has its own declaration. -/
theorem firstAlike_of_injective (hnodup : (results.map (·.1)).Nodup)
    (hinjective : ∀ path ∈ results.map (·.1), ∀ other ∈ results.map (·.1),
      path.map naming.ofText = other.map naming.ofText → path = other)
    {path : List Text} {declaration : Declaration} (h : (path, declaration) ∈ results) :
    firstAlike naming results path = some declaration := by
  have hpath : path ∈ results.map (·.1) := List.mem_map_of_mem h
  rw [firstAlike]
  cases hfound : results.find? fun result =>
      result.1.map naming.ofText = path.map naming.ofText with
  | none =>
    rw [List.find?_eq_none] at hfound
    exact absurd (decide_eq_true rfl) (hfound _ h)
  | some found =>
    have hmem := List.mem_of_find?_eq_some hfound
    have halike := List.find?_some hfound
    rw [decide_eq_true_eq] at halike
    have hsame := hinjective _ (List.mem_map_of_mem hmem) _ hpath halike
    have heq : found = (path, declaration) :=
      List.inj_on_of_nodup_map hnodup hmem h hsame
    rw [heq, Option.map_some]

/-- A path of one segment that has the name of the root declaration. -/
def NamesRoot (naming : Naming) (root : Declaration) (path : List Text) : Prop :=
  ∃ segment, path = [segment] ∧ root.name = .text (naming.ofText segment)

/-- A path that has the name of the root declaration leads there. -/
theorem find?_of_namesRoot {node : Namespace} {path : List Text} (h : NamesRoot naming root path) :
    (withRoot root node).find? ((path.map naming.ofText).map .text) = .ok (some root) := by
  obtain ⟨segment, rfl, hname⟩ := h
  change (withRoot root node).find? ([] ++ [.text (naming.ofText segment)]) = _
  rw [find?_concat, findIn?_withRoot, if_pos ⟨rfl, (Value.same_text_iff _ _).mpr hname⟩]

/-- Every other path leads to the first declaration whose path has the same identifiers. -/
theorem find?_of_not_namesRoot (hnamed : ∀ result ∈ results, Named naming result) {path : List Text}
    (hpath : path ≠ []) (h : ¬NamesRoot naming root path) :
    (withRoot root (place naming (empty (.text "")) results)).find?
      ((path.map naming.ofText).map .text) = .ok (firstAlike naming results path) := by
  obtain ⟨front, last, rfl⟩ := (List.eq_nil_or_concat path).resolve_left hpath
  rw [List.concat_eq_append] at h ⊢
  have hroot : ¬(((front.map naming.ofText).map Value.text).isEmpty = true ∧
      root.name.same (.text (naming.ofText last)) = true) := by
    rintro ⟨hempty, hsame⟩
    have hfront : front = [] := by simpa using hempty
    exact h ⟨last, by rw [hfront, List.nil_append], (Value.same_text_iff _ _).mp hsame⟩
  rw [List.map_append, List.map_append, List.map_singleton, List.map_singleton, find?_concat,
    findIn?_withRoot, if_neg hroot, findIn?_place_of_named hnamed, firstAlike, List.map_append,
    List.map_singleton]

/-- A declared path leads to some declaration. -/
theorem exists_find?_of_mem (hnamed : ∀ result ∈ results, Named naming result) {path : List Text}
    (hpath : path ∈ results.map (·.1)) :
    ∃ declaration, (withRoot root (place naming (empty (.text "")) results)).find?
      ((path.map naming.ofText).map .text) = .ok (some declaration) := by
  by_cases h : NamesRoot naming root path
  · exact ⟨root, find?_of_namesRoot h⟩
  · obtain ⟨result, hresult, rfl⟩ := List.mem_map.mp hpath
    obtain ⟨declaration, hfirst⟩ := exists_firstAlike hpath
    exact ⟨declaration, by rw [find?_of_not_namesRoot hnamed (hnamed result hresult).ne_nil h, hfirst]⟩

/-- The root of a document always has a name. -/
theorem isPresent_rootName (document name : Value) : (rootName document name).isPresent = true := by
  by_cases hname : name.isPresent
  · rwa [rootName, Value.orElse, if_pos hname]
  · by_cases htitle : (title document).isPresent
    · rwa [rootName, Value.orElse, if_neg hname, Value.orElse, if_pos htitle]
    · rw [rootName, Value.orElse, if_neg hname, Value.orElse, if_neg htitle]
      rfl

/-- The root declaration has the identifier made from the name of the document. -/
theorem apply_rootName {d d' : Discovery}
    (h : (declare (rootScope naming document name) document (rootName document name) true).run d =
      (.ok root, d')) :
    naming.apply (rootName document name) = .ok root.name := by
  have hname := declare_named _ _ _ _ _ _ _ h
  rw [Value.orElse, if_pos (isPresent_rootName document name), Scope.identify, rootScope] at hname
  cases happly : naming.apply (rootName document name) with
  | error cause =>
    rw [happly] at hname
    cases hname
  | ok identifier =>
    rw [happly] at hname
    exact congrArg Except.ok (Except.ok.inj hname)

/-- One name has one identifier. -/
theorem applyAll_singleton {v identifier : Value} (h : naming.apply v = .ok identifier) :
    naming.applyAll [v] = .ok [identifier] := by
  rw [Naming.applyAll, h]
  rfl

/-- The name of the document leads to the root declaration. -/
theorem find?_rootName {node : Namespace} (hroot : root.name.isDocument = true) :
    (withRoot root node).find? [root.name] = .ok (some root) := by
  change (withRoot root node).find? ([] ++ [root.name]) = _
  rw [find?_concat, findIn?_withRoot, if_pos ⟨rfl, Value.same_self hroot⟩]

/-- The root declaration comes before all others. -/
theorem entries_withRoot (root : Declaration) (node : Namespace) :
    (withRoot root node).entries = (extendPath [] node.name, root) :: node.entries := by
  obtain ⟨outer, declarations, children⟩ := node
  simp only [withRoot, Namespace.entries, entriesUnder, List.map_cons, List.cons_append]

/-- A reference to the document itself becomes the name of the document. -/
theorem run_types_of_root {members : Members} {ref : Text}
    (href : members.field? "$ref" = some (.text ref)) (hlocal : Pointer.isLocal ref = true)
    (hsplit : Pointer.split ref = [])
    (hroot : naming.apply (rootName document name) = .ok root.name) (d : Discovery) :
    (types (rootScope naming document name) (.object members)).run d =
      (.ok [.reference [root.name]], d) := by
  have hshape : Shape.ofMembers members = .ok .reference := by
    rw [Shape.ofMembers, Members.has, href, if_pos Option.isSome_some]
  have htarget : (rootScope naming document name).target (.text ref) =
      .ok (.root (rootName document name)) := by
    rw [Scope.target, if_pos hlocal, hsplit]
    rfl
  have hreference : (rootScope naming document name).reference [rootName document name] =
      .ok (.reference [root.name]) := by
    rw [Scope.reference, rootScope, applyAll_singleton hroot]
    rfl
  rw [types, hshape, Members.fieldOrNull, href]
  simp only [Option.getD_some, Scope.register, htarget, Faulting.run_bind, Faulting.run_lift,
    Faulting.run_pure, Target.segments, hreference]

/-- A name that stands for declared paths or for the document leads to a declaration. -/
theorem exists_find?_of_names (hnamed : ∀ result ∈ results, Named naming result)
    (happly : naming.apply (rootName document name) = .ok root.name)
    (hroot : root.name.isDocument = true) {parts : List Value}
    (h : (rootScope naming document name).Names (results.map (·.1)) parts) :
    ∃ declaration, (withRoot root (place naming (empty (.text "")) results)).find? parts =
      .ok (some declaration) := by
  cases h with
  | path hmem => exact exists_find?_of_mem hnamed hmem
  | root hname hparts =>
    cases hname
    cases (applyAll_singleton happly).symm.trans hparts
    exact ⟨root, find?_rootName hroot⟩

/-- Every name mentioned at any depth of a declaration leads to a declaration. The name of a
discovered path leads to the root declaration if it is that of the root, and otherwise to the first
declaration whose path has the same identifiers, which is its own where identifiers tell the
discovered paths apart. A reference to the document itself leads to the root declaration. The naming may
be any function; what it makes of the name of the document only has to be part of a document, as every
text is. -/
theorem compile_closed {tree : Namespace}
    (hname : ∀ identifier, naming.apply (rootName document name) = .ok identifier →
      identifier.isDocument = true)
    (h : compile naming document name = .ok tree) :
    ∃ (root : Declaration) (results : List (List Text × Declaration)) (final : Resolution),
      (entries naming document name).run .empty = (.ok (root, results.map entryOf), final) ∧
        (∀ entry ∈ tree.entries, ∀ parts ∈ entry.2.type.referenced,
          ∃ declaration, tree.find? parts = .ok (some declaration)) ∧
        (∀ path ∈ results.map (·.1),
          (NamesRoot naming root path →
            tree.find? ((path.map naming.ofText).map .text) = .ok (some root)) ∧
          (¬NamesRoot naming root path →
            ∃ declaration, firstAlike naming results path = some declaration ∧
              tree.find? ((path.map naming.ofText).map .text) = .ok (some declaration))) ∧
        ((∀ path ∈ results.map (·.1), ∀ other ∈ results.map (·.1),
            path.map naming.ofText = other.map naming.ofText → path = other) →
          ∀ path declaration, (path, declaration) ∈ results → ¬NamesRoot naming root path →
            tree.find? ((path.map naming.ofText).map .text) = .ok (some declaration)) ∧
        ∀ members ref d, Members.field? "$ref" members = some (.text ref) →
          Pointer.isLocal ref = true → Pointer.split ref = [] →
            ∃ parts, (types (rootScope naming document name) (.object members)).run d =
                (.ok [.reference parts], d) ∧ tree.find? parts = .ok (some root) := by
  obtain ⟨root, results, final, node, hentries, hdeclare, hresolves, hassemble, rfl⟩ := compile_ok h
  rw [assemble_entryOf] at hassemble
  cases hassemble
  have hnamed : ∀ result ∈ results, Named naming result := hresolves.named
  have happly := apply_rootName hdeclare
  have hroot := hname root.name happly
  refine ⟨root, results, final, hentries, ?_, fun path hpath => ⟨find?_of_namesRoot, fun hother => ?_⟩,
    fun hinjective path declaration hmem hother => ?_, fun members ref d href hlocal hsplit =>
      ⟨_, run_types_of_root href hlocal hsplit happly d, find?_rootName hroot⟩⟩
  · intro entry hentry parts hparts
    refine exists_find?_of_names hnamed happly hroot ?_
    rw [entries_withRoot, List.mem_cons] at hentry
    rcases hentry with rfl | hentry
    · have hmentions := declare_mentions _ _ _ _ _ _ _ hdeclare
      exact hmentions.mono hresolves.start_subset parts (by simpa using hparts)
    · obtain ⟨result, hresult, heq⟩ := mem_entries_place hentry
      exact hresolves.mentions result hresult parts (by simpa [← heq] using hparts)
  · obtain ⟨declaration, hfirst⟩ := exists_firstAlike hpath
    have hproper := hresolves.proper path hpath
    exact ⟨declaration, hfirst, by rw [find?_of_not_namesRoot hnamed hproper.ne_nil hother, hfirst]⟩
  · have hproper := hresolves.proper path (List.mem_map_of_mem hmem)
    rw [find?_of_not_namesRoot hnamed hproper.ne_nil hother,
      firstAlike_of_injective hresolves.nodup hinjective hmem]

/-- A document with a reference to itself and to two definitions whose identifiers are equal. -/
def collidingDocument : Value :=
  .object [
    (.text "oneOf", .list [.object [(.text "$ref", .text "#/definitions/a-b")],
      .object [(.text "$ref", .text "#/definitions/aB")], .object [(.text "$ref", .text "#/")]]),
    (.text "definitions", .object [
      (.text "a-b", .object [(.text "type", .text "string")]),
      (.text "aB", .object [(.text "type", .text "number")])])]

/-- Names that two definitions share are found nevertheless. -/
theorem compile_closed_colliding :
    ∃ tree, Naming.standard.apply (rootName collidingDocument .null) = .ok (.text "Main") ∧
      compile .standard collidingDocument .null = .ok tree ∧
      ∀ entry ∈ tree.entries, ∀ parts ∈ entry.2.type.referenced,
        ∃ declaration, tree.find? parts = .ok (some declaration) := by
  have happly : Naming.standard.apply (rootName collidingDocument .null) = .ok (.text "Main") := by
    rfl
  obtain ⟨tree, hcompile⟩ : ∃ tree, compile .standard collidingDocument .null = .ok tree :=
    Faulting.exists_eq_ok (by decide +kernel)
  obtain ⟨root, results, final, -, hfound, -⟩ := compile_closed
    (fun identifier hidentifier => by cases happly.symm.trans hidentifier; rfl) hcompile
  exact ⟨tree, happly, hcompile, hfound⟩

end Schema

end SchemaTypes
