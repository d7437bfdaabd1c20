import SchemaTypes.Proofs.Api.Walk
import SchemaTypes.Proofs.Schema.Closed

/-!
# Every name mentioned for an API document is declared

When the walk over the operations ends, every name mentioned is covered: it belongs to a discovered
path, which is then declared along with everything it leads to, or to a declaration of the walk. Both
are found among the declarations put together at the end.

A parameter named by the empty text is declared under its title or the fallback name, not under the
name that it is referred to by, and is excluded for this reason.
-/

namespace SchemaTypes.Api

open Faulting Namespace Resolution

variable {naming : Naming} {document : Value} {base : Text} {options : Options}

/-- The state of the walk at its start. -/
def State.initial : State := ⟨.empty, .empty, [], []⟩

/-- The name of the parameter that a declaration of an operation belongs to, if it does. -/
def OperationEntry.parameter? (entry : OperationEntry) : Option Text :=
  match entry.parts with
  | [kind, name] => if kind = "Parameters" then some name else none
  | _ => none

/-- The names of all parameters that the walk over the operations of a document collects. -/
def collectedParameters (naming : Naming) (document base : Value) (options : Options) : List Text :=
  match Overlay.ofDocument document with
  | .error _ => []
  | .ok overlay =>
    match (walk ⟨overlay, naming, base, options⟩).run .initial with
    | .error _ => []
    | .ok (_, state) => state.entries.filterMap OperationEntry.parameter?

/-- The declarations of the walk with their whole paths. -/
def operationResults (base : Text) (state : State) : List (List Text × Declaration) :=
  state.entries.map fun entry =>
    (operationPath base entry.operation entry.parts, entry.declaration)

/-- At its start the walk has mentioned nothing. -/
theorem sound_initial (naming : Naming) (base : Text) : Sound naming base .initial :=
  ⟨rfl, nofun, List.nodup_nil, nofun⟩

/-- The entries of a document are the declarations of the walk, followed by those of everything
discovered. -/
theorem entries_ok {overlay : Overlay} {found : List Entry}
    (h : entries ⟨overlay, naming, .text base, options⟩ = .ok found) :
    ∃ state results, (walk ⟨overlay, naming, .text base, options⟩).run .initial = .ok ((), state) ∧
      Sound naming base state ∧
      Resolves (overlay.value state.scratch) ⟨naming, none, none⟩ state.paths results ∧
      found = (operationResults base state ++ results).map entryOf := by
  obtain ⟨⟨⟨⟩, state⟩, hwalk, hresolved⟩ := bind_eq_ok h
  obtain ⟨resolved, hresolve, hfound⟩ := bind_eq_ok hresolved
  obtain ⟨hsound, -, -⟩ := walk_keeps rfl () state (sound_initial naming base) hwalk
  rcases hrun : (resolve (overlay.value state.scratch) ⟨naming, none, none⟩).run
    ⟨state.discovery, [], none⟩ with ⟨result, final⟩
  have hresult : result = .ok resolved := (congrArg Prod.fst hrun).symm.trans hresolve
  rw [hresult, hsound.discovery_eq] at hrun
  obtain ⟨results, rfl, hdrains, -⟩ := run_resolve_ok hsound.proper hsound.nodup hrun
  have hfresh : Discovery.fresh [] state.paths = state.paths := by
    rw [Discovery.fresh, List.removeAll_nil, BreadthFirst.eraseDups_of_nodup hsound.nodup]
  rw [← hfresh] at hdrains
  refine ⟨state, results, hwalk, hsound, hdrains.resolves hsound.proper, ?_⟩
  rw [← Except.ok.inj hfound, List.map_append, operationResults, List.map_map]
  rfl

/-- A document that compiles is walked, then everything discovered is declared, and all declarations
are put together in this order. -/
theorem compile_ok {tree : Namespace} (h : compile naming document (.text base) options = .ok tree) :
    ∃ overlay state results, Overlay.ofDocument document = .ok overlay ∧
      (walk ⟨overlay, naming, .text base, options⟩).run .initial = .ok ((), state) ∧
      Sound naming base state ∧
      Resolves (overlay.value state.scratch) ⟨naming, none, none⟩ state.paths results ∧
      tree = place naming (empty (.text "")) (operationResults base state ++ results) := by
  obtain ⟨overlay, hoverlay, h⟩ := bind_eq_ok h
  obtain ⟨found, hentries, hassemble⟩ := bind_eq_ok h
  obtain ⟨state, results, hwalk, hsound, hresolves, hfound⟩ := entries_ok hentries
  have htree := ofMalformed_eq_ok hassemble
  rw [hfound, assemble_entryOf] at htree
  exact ⟨overlay, state, results, ofMalformed_eq_ok hoverlay, hwalk, hsound, hresolves,
    (Except.ok.inj htree).symm⟩

/-- A declaration of the walk is named by the end of its path if no parameter is without a name. -/
theorem named_operationResult {state : State} {entry : OperationEntry} (hentry : entry ∈ state.entries)
    (husable : entry.Usable naming)
    (hparameters : ("" : Text) ∉ state.entries.filterMap OperationEntry.parameter?) :
    Named naming (operationPath base entry.operation entry.parts, entry.declaration) := by
  have hnamed : entry.parts ≠ [("Parameters" : Text), ""] := by
    intro hparts
    refine hparameters (List.mem_filterMap.mpr ⟨entry, hentry, ?_⟩)
    rw [OperationEntry.parameter?, hparts]
    rfl
  refine ⟨by simp [operationPath], ?_⟩
  have hlast : (operationPath base entry.operation entry.parts).getLastD "" = entry.parts.getLastD "" := by
    obtain ⟨first, rest, hparts⟩ := List.exists_cons_of_ne_nil husable.ne_nil
    rw [hparts, operationPath]
    rfl
  rw [husable.name_eq hnamed, hlast]

/-- A covered name leads to a declaration once everything discovered is declared. -/
theorem exists_find?_of_covered {state : State} {results : List (List Text × Declaration)}
    {overlay : Value} (hresolves : Resolves overlay ⟨naming, none, none⟩ state.paths results)
    (hparameters : ("" : Text) ∉ state.entries.filterMap OperationEntry.parameter?) {parts : List Value}
    (h : Covered naming base state parts) :
    ∃ declaration, (place naming (empty (.text "")) (operationResults base state ++ results)).find?
      parts = .ok (some declaration) := by
  cases h with
  | path hpath =>
    obtain ⟨result, hresult, rfl⟩ := List.mem_map.mp (hresolves.start_subset hpath)
    exact exists_find?_place (List.mem_append_right _ hresult) (hresolves.named result hresult)
  | entry hentry husable =>
    exact exists_find?_place (List.mem_append_left _ (List.mem_map_of_mem hentry))
      (named_operationResult hentry husable hparameters)

/-- Every name mentioned at any depth of a declaration for an API document leads to a declaration, as
long as no parameter is named by the empty text. -/
theorem compile_mentions_declared {tree : Namespace}
    (hparameters : ("" : Text) ∉ collectedParameters naming document (.text base) options)
    (h : compile naming document (.text base) options = .ok tree) :
    ∀ entry ∈ tree.entries, ∀ parts ∈ entry.2.type.referenced,
      ∃ declaration, tree.find? parts = .ok (some declaration) := by
  obtain ⟨overlay, state, results, hoverlay, hwalk, hsound, hresolves, rfl⟩ := compile_ok h
  rw [collectedParameters, hoverlay] at hparameters
  simp only [hwalk] at hparameters
  intro entry hentry parts hparts
  obtain ⟨result, hresult, heq⟩ := mem_entries_place hentry
  rw [heq] at hparts
  rw [List.mem_append] at hresult
  rcases hresult with hresult | hresult
  · obtain ⟨declared, hdeclared, rfl⟩ := List.mem_map.mp hresult
    exact exists_find?_of_covered hresolves hparameters (hsound.covered declared hdeclared parts hparts)
  · have hnames := hresolves.mentions result hresult parts (by simpa using hparts)
    cases hnames with
    | path hpath =>
      obtain ⟨other, hother, rfl⟩ := List.mem_map.mp hpath
      exact exists_find?_place (List.mem_append_right _ hother) (hresolves.named other hother)
    | root hname _ => cases hname

/-- A document with one operation: a shared parameter, a body that refers to a component schema, and a
response with a header. -/
def petDocument : Value :=
  .record [
    ("paths", .record [("/pets", .record [("post", .record [
      ("parameters", .list [.record [("$ref", .text "#/components/parameters/limit")]]),
      ("requestBody", .record [("content", .record [
        ("application/json", .record [("schema", .record [("$ref", .text "#/components/schemas/Pet")])])])]),
      ("responses", .record [("200", .record [
        ("headers", .record [("x-rate", .record [("schema", .record [("type", .text "integer")])])]),
        ("content", .record [
          ("application/json", .record [("schema", .record [("type", .text "string")])])])])])])])]),
    ("components", .record [
      ("parameters", .record [("limit", .record [("name", .text "limit"), ("in", .text "query"),
        ("schema", .record [("type", .text "integer")])])]),
      ("schemas", .record [("Pet", .record [("type", .text "object"), ("properties", .record [
        ("parent", .record [("$ref", .text "#/components/schemas/Pet")])])])])])]

/-- The names mentioned for one operation with all kinds of parts are found. -/
theorem compile_mentions_declared_pet :
    ∃ tree, ("" : Text) ∉ collectedParameters .standard petDocument (.text "API") .default ∧
      compile .standard petDocument (.text "API") .default = .ok tree ∧
      ∀ entry ∈ tree.entries, ∀ parts ∈ entry.2.type.referenced,
        ∃ declaration, tree.find? parts = .ok (some declaration) := by
  have hparameters : ("" : Text) ∉ collectedParameters .standard petDocument (.text "API") .default := by
    decide +kernel
  obtain ⟨tree, hcompile⟩ :
      ∃ tree, compile .standard petDocument (.text "API") .default = .ok tree :=
    exists_eq_ok (by decide +kernel)
  exact ⟨tree, hparameters, hcompile, compile_mentions_declared hparameters hcompile⟩

end SchemaTypes.Api
