import SchemaTypes.Proofs.Api.Declared

/-!
# Declaring unused schemas adds declarations

On demand, all component schemas of a document are discovered once its operations are declared. Nothing
that the walk does before depends on this. More paths are discovered in this way, so that more schemas
are declared afterwards, but those declared anyway are declared alike.

The name of a component schema is written into a reference and read back from it. All that is lost on the
way is a name without characters.

A declaration of an operation may have the path of a component schema: the base name may be that of the
components, the id of an operation that of the schemas, and a schema may be called like the input of the
operation. Then there are two declarations of one path.
-/

namespace SchemaTypes.Api

open Build Faulting Resolution

/-- A setting that asks for unused schemas, or does not. -/
def Setting.declaringUnused (setting : Setting) (unused : Bool) : Setting :=
  { setting with options := ⟨setting.options.statuses, unused⟩ }

variable (setting : Setting)

/-- The variants of responses do not depend on whether unused schemas are declared. -/
theorem variants_declaringUnused (unused : Bool) (operation : Operation) (responses : List Response) :
    variants (setting.declaringUnused unused) operation responses =
      variants setting operation responses := by
  induction responses with
  | nil => rfl
  | cons response rest ih =>
    rw [variants, variants, ih]
    rfl

/-- Operations are declared alike whether or not unused schemas are. -/
theorem OperationSource.compile_declaringUnused (unused : Bool) (source : OperationSource) :
    source.compile (setting.declaringUnused unused) = source.compile setting := by
  have hconclude (operation : Operation) (responses : List Response) :
      conclude (setting.declaringUnused unused) operation responses =
        conclude setting operation responses := by
    rw [conclude, conclude, outputType, outputType, variants_declaringUnused]
  simp only [compile_eq, hconclude]
  rfl

/-- The path of a component schema. -/
def componentPath (name : Text) : List Text := ["components", "schemas", name]

/-- The reference to a component schema visits its path, whatever characters its name has. -/
theorem visitedPath_componentPath {name : Text} (h : name ≠ "") :
    Schema.visitedPath (.text (Pointer.join (componentPath name))) = [componentPath name] := by
  have hsplit : Pointer.split (Pointer.join (componentPath name)) = componentPath name :=
    Pointer.split_join_of_not_mem (by simp [componentPath, h.symm])
  rw [Schema.visitedPath, if_pos (Pointer.isLocal_join _), Schema.addressed, hsplit]
  rfl

/-- Discovering component schemas discovers their paths and changes nothing else. -/
theorem discoverSchemas_ends (names : List Value) (state : State) :
    Ends state (discoverSchemas setting names) fun _ final =>
      ∃ paths : List (List Text), final = { state with discovery := state.discovery.addAll paths } ∧
        (∀ path ∈ paths, Pointer.Proper path) ∧
        ∀ name : Text, name ≠ "" → Value.text name ∈ names → componentPath name ∈ paths := by
  fun_induction discoverSchemas setting names generalizing state with
  | case1 => exact Ends.pure ⟨[], rfl, List.forall_mem_nil _, fun _ _ h => by cases h⟩
  | case2 name rest ref ih =>
    refine Ends.bind (Ends.build _) ?_
    rintro target _ ⟨d, hrun, rfl⟩
    have hvisits := (Schema.register_explores setting.outerScope (.text ref)).run_of_ok hrun none
      state.discovery
    cases hrun.symm.trans hvisits
    refine (ih _).weaken ?_
    rintro _ final ⟨paths, rfl, hproper, hnames⟩
    refine ⟨Schema.visitedPath (.text ref) ++ paths, ?_, List.forall_mem_append.mpr ⟨?_, hproper⟩, ?_⟩
    · rw [Discovery.addAll_append]
    · exact fun path hpath => Value.proper_of_mem_addressedPath (Schema.visitedPath_subset _ hpath)
    · intro other hother hmem
      rcases List.mem_cons.mp hmem with heq | hrest
      · cases heq
        exact List.mem_append_left _ (visitedPath_componentPath hother ▸ List.mem_singleton_self _)
      · exact List.mem_append_right _ (hnames other hother hrest)
  | case3 name rest hname => exact Ends.throw _

/-- An object with a member counts as present. -/
theorem orElse_of_field? {name : Text} {members : Members} {v other : Value}
    (h : members.field? name = some v) : (Value.object members).orElse other = .object members := by
  cases members with
  | nil => cases h
  | cons member rest => rfl

/-- A document has a component schema of a name. -/
def HasComponent (document : Value) (name : Text) : Prop :=
  ∃ members components schemas, document = .object members ∧
    Members.field? "components" members = some (.object components) ∧
    Members.field? "schemas" components = some (.object schemas) ∧ Members.has name schemas = true

/-- The names of component schemas that are discovered include that of every component schema. -/
theorem HasComponent.mem_schemaNames {document : Value} {name : Text} (h : HasComponent document name)
    {overlay : Overlay} (hoverlay : Overlay.ofDocument document = .ok overlay) {names : List Value}
    (hnames : schemaNames overlay.document = .ok names) : Value.text name ∈ names := by
  obtain ⟨members, components, schemas, rfl, hcomponents, hschemas, hname⟩ := h
  obtain ⟨_, ⟨⟩, hoverlay⟩ := bind_eq_ok hoverlay
  obtain ⟨_, -, hoverlay⟩ := bind_eq_ok hoverlay
  obtain ⟨_, -, ⟨⟩⟩ := bind_eq_ok hoverlay
  obtain ⟨found, hfound⟩ := Option.isSome_iff_exists.mp hname
  have hmembers : schemaNames members = .ok (schemas.map fun member => .scalar member.1) := by
    rw [schemaNames, Members.fieldOrNull, hcomponents, Option.getD_some, orElse_of_field? hschemas]
    change (Value.orElse (Members.fieldOrNull "schemas" components) _).items = _
    rw [Members.fieldOrNull, hschemas, Option.getD_some, orElse_of_field? hfound]
    rfl
  cases hnames.symm.trans hmembers
  exact List.mem_map.mpr ⟨_, Members.text_mem_of_field? hfound, rfl⟩

/-- Discovering all component schemas discovers the path of each of them and changes nothing else. -/
theorem discoverComponents_ends {document : Value}
    (hoverlay : Overlay.ofDocument document = .ok setting.overlay) (state : State) :
    Ends state (discoverComponents setting) fun _ final =>
      ∃ paths : List (List Text), final = { state with discovery := state.discovery.addAll paths } ∧
        (∀ path ∈ paths, Pointer.Proper path) ∧
        ∀ name : Text, name ≠ "" → HasComponent document name → componentPath name ∈ paths := by
  refine Ends.bind (Ends.lift _) ?_
  rintro names _ ⟨rfl, hnames⟩
  refine (discoverSchemas_ends setting names _).weaken ?_
  rintro _ final ⟨paths, hfinal, hproper, hpaths⟩
  exact ⟨paths, hfinal, hproper, fun name hne hname =>
    hpaths name hne (hname.mem_schemaNames hoverlay (ofMalformed_eq_ok hnames))⟩

/-- Asking for unused schemas, the walk goes on as it does otherwise and then discovers all component
schemas. -/
theorem walk_declaringUnused {final : State}
    (hrun : (walk (setting.declaringUnused true)).run .initial = .ok ((), final)) :
    ∃ middle, (walk (setting.declaringUnused false)).run .initial = .ok ((), middle) ∧
      (discoverComponents (setting.declaringUnused true)).run middle = .ok ((), final) := by
  obtain ⟨members, middle, hpaths, hsources, hrest⟩ := (run_walk_eq_ok _).mp hrun
  refine ⟨middle, (run_walk_eq_ok _).mpr ⟨members, middle, hpaths, ?_, rfl⟩, hrest⟩
  rw [funext (OperationSource.compile_declaringUnused setting true)] at hsources
  rw [funext (OperationSource.compile_declaringUnused setting false)]
  exact hsources

variable {naming : Naming} {document base : Value} {statuses : Option (List Int)} {tree : Namespace}

/-- Exactly one of some entries has a path. -/
def DeclaredOnce (entries : List Entry) (path : List Value) : Prop :=
  ∃! i : Nat, ∃ entry : Entry, entries[i]? = some entry ∧ entry.path = path

/-- An entry for a path is the only one if all paths are different. -/
theorem declaredOnce_of_nodup {results : List (List Text × Declaration)} (h : (results.map (·.1)).Nodup)
    {path : List Text} (hpath : path ∈ results.map (·.1)) :
    DeclaredOnce (results.map entryOf) (path.map .text) := by
  have hat (i : Nat) : (∃ entry, (results.map entryOf)[i]? = some entry ∧ entry.path = path.map .text) ↔
      (results.map (·.1))[i]? = some path := by
    rw [List.getElem?_map, List.getElem?_map]
    cases results[i]? <;> simp [entryOf, Value.map_text_inj]
  obtain ⟨i, hlt, hi⟩ := List.mem_iff_getElem.mp hpath
  have hsome := (List.getElem?_eq_getElem hlt).trans (congrArg some hi)
  refine ⟨i, (hat i).mpr hsome, fun j hj => ?_⟩
  exact ((List.getElem?_inj hlt h).mp (hsome.trans ((hat j).mp hj).symm)).symm

/-- Two lists of entries that both have a path declare it more than once together. -/
theorem not_declaredOnce_append {first second : List Entry} {path : List Value} {entry other : Entry}
    (hfirst : entry ∈ first) (hsecond : other ∈ second) (hentry : entry.path = path)
    (hother : other.path = path) : ¬DeclaredOnce (first ++ second) path := by
  rintro ⟨i, -, hunique⟩
  obtain ⟨j, hlt, hj⟩ := List.mem_iff_getElem.mp hfirst
  obtain ⟨k, hk⟩ := List.mem_iff_getElem?.mp hsecond
  have hleft : (first ++ second)[j]? = some entry := by
    rw [List.getElem?_append_left hlt, List.getElem?_eq_getElem hlt, hj]
  have hright : (first ++ second)[first.length + k]? = some other := by
    rw [List.getElem?_append_right (Nat.le_add_right _ _), Nat.add_sub_cancel_left, hk]
  have hindex := hunique j ⟨entry, hleft, hentry⟩
  rw [← hunique _ ⟨other, hright, hother⟩] at hindex
  omega

/-- More entries in front leave an entry the only one of its path exactly if none of them has the path. -/
theorem declaredOnce_append_iff {first second : List Entry} {path : List Value}
    (h : DeclaredOnce second path) :
    DeclaredOnce (first ++ second) path ↔ ∀ entry ∈ first, entry.path ≠ path := by
  obtain ⟨j, ⟨entry, hentry, hpath⟩, honly⟩ := h
  constructor
  · intro honce other hother hsame
    exact not_declaredOnce_append hother (List.mem_of_getElem? hentry) hsame hpath honce
  · intro hnone
    refine ⟨first.length + j, ⟨entry, ?_, hpath⟩, ?_⟩
    · rw [List.getElem?_append_right (Nat.le_add_right _ _), Nat.add_sub_cancel_left, hentry]
    rintro i ⟨other, hother, hsame⟩
    by_cases hlt : i < first.length
    · rw [List.getElem?_append_left hlt] at hother
      exact absurd hsame (hnone other (List.mem_of_getElem? hother))
    · rw [List.getElem?_append_right (Nat.le_of_not_lt hlt)] at hother
      have hindex := honly _ ⟨other, hother, hsame⟩
      omega

/-- An entry of an operation has the path of a component schema if the base name is that of the components,
the operation has the id of the schemas and the entry is called like the schema. -/
theorem wholePath_eq_componentPath_iff {entry : OperationEntry} {name : Text} :
    (wholePath base entry).path = (componentPath name).map .text ↔
      base = .text "components" ∧ entry.operation = "schemas" ∧ entry.parts = [name] := by
  have hparts : entry.parts.map Value.text = [name].map .text ↔ entry.parts = [name] := Value.map_text_inj
  rw [List.map_singleton] at hparts
  simp [wholePath, componentPath, hparts]

/-- A document that compiles with its unused schemas compiles without them. The declarations of its
operations are the same, and all other declarations are among those made with unused schemas. With them, the
path of every component schema whose name is not empty is declared once apart from the operations. It is
declared once in all exactly if no declaration of an operation has this path as well, which takes the base
name `components` and an operation `schemas`. -/
theorem unused_adds (h : compile naming document base ⟨statuses, true⟩ = .ok tree) :
    ∃ (own : List OperationEntry) (results : List (List Text × Declaration)) (fewer : List Entry),
      declared naming document base ⟨statuses, true⟩ = .ok (own, results.map entryOf) ∧
      Namespace.assemble naming (own.map (wholePath base) ++ results.map entryOf) = .ok tree ∧
      declared naming document base ⟨statuses, false⟩ = .ok (own, fewer) ∧
      (∃ tree, compile naming document base ⟨statuses, false⟩ = .ok tree) ∧
      fewer ⊆ results.map entryOf ∧
      ∀ name : Text, name ≠ "" → HasComponent document name →
        (results.map (·.1)).count (componentPath name) = 1 ∧
        (DeclaredOnce (own.map (wholePath base) ++ results.map entryOf) ((componentPath name).map .text) ↔
          ¬(base = .text "components" ∧
            ∃ entry ∈ own, entry.operation = "schemas" ∧ entry.parts = [name])) := by
  obtain ⟨own, resolved, hfull, hassemble⟩ := exists_declared_of_compile h
  obtain ⟨overlay, state, hoverlay, hwalk, hresolve, rfl⟩ := exists_walk_of_declared hfull
  obtain ⟨middle, hmiddle, hdiscover⟩ :=
    walk_declaringUnused ⟨overlay, naming, base, ⟨statuses, true⟩⟩ hwalk
  obtain ⟨more, rfl, hmore, hnames⟩ := discoverComponents_ends _ hoverlay _ _ _ hdiscover
  obtain ⟨change, hadds, hchange⟩ := walk_oblivious _ _ _ _ hmiddle
  obtain rfl := Oblivious.final_eq hmiddle hchange
  -- The paths of component schemas come after those that the operations have discovered.
  have hproper : ∀ path ∈ change.paths ++ more, Pointer.Proper path :=
    List.forall_mem_append.mpr ⟨hadds.proper, hmore⟩
  have hdiscovery : (State.initial.after change).discovery.addAll more =
      Discovery.empty.addAll (change.paths ++ more) := by
    rw [Discovery.addAll_append]
    rfl
  have hless : DiscoversLess
      { State.initial.after change with discovery := (State.initial.after change).discovery.addAll more }
      (State.initial.after change) :=
    ⟨rfl, _, change.paths, hdiscovery, rfl, List.subset_append_left _ _, hproper⟩
  obtain ⟨fewer, hfewer, hsubset⟩ := hless.exists_declared hoverlay hmiddle hresolve
  rw [hdiscovery] at hresolve
  obtain ⟨results, rfl, hresolves⟩ := resolves_of_run hproper hresolve
  refine ⟨_, results, fewer, hfull, hassemble, hfewer, ?_, hsubset, fun name hne hname => ?_⟩
  · exact exists_compile_of_declared h hfull hfewer (fun entry hentry => ⟨entry, hentry, rfl, rfl⟩)
      hsubset
  · have hmem : componentPath name ∈ results.map (·.1) :=
      hresolves.start_subset (List.mem_append_right _ (hnames name hne hname))
    refine ⟨List.count_eq_one_of_mem hresolves.nodup hmem, ?_⟩
    rw [declaredOnce_append_iff (declaredOnce_of_nodup hresolves.nodup hmem), List.forall_mem_map]
    simp only [ne_eq, wholePath_eq_componentPath_iff, not_and, not_exists]
    exact ⟨fun hall hbase entry hentry => hall entry hentry hbase,
      fun hall entry hentry hbase => hall hbase entry hentry⟩

/-- A document with two component schemas. One is used, and the name of the other has to be escaped in
references. -/
def spareDocument : Value :=
  .record [
    ("paths", .record [("/pets", .record [("get", .record [("requestBody", .record [
      ("content", .record [("application/json", .record [
        ("schema", .record [("$ref", .text "#/components/schemas/Pet")])])])])])])]),
    ("components", .record [("schemas", .record [
      ("Pet", .record [("type", .text "string")]), ("a/b~c", .record [("type", .text "number")])])])]

/-- The unused schema is declared once, and the used one as well. -/
theorem unused_adds_spareDocument :
    (∃ tree, compile .standard spareDocument (.text "API") ⟨none, true⟩ = .ok tree) ∧
    ∃ (own : List OperationEntry) (results : List (List Text × Declaration)) (fewer : List Entry),
      declared .standard spareDocument (.text "API") ⟨none, true⟩ = .ok (own, results.map entryOf) ∧
      declared .standard spareDocument (.text "API") ⟨none, false⟩ = .ok (own, fewer) ∧
      (∃ tree, compile .standard spareDocument (.text "API") ⟨none, false⟩ = .ok tree) ∧
      fewer ⊆ results.map entryOf ∧
      DeclaredOnce (own.map (wholePath (.text "API")) ++ results.map entryOf)
        ((componentPath "a/b~c").map .text) ∧
      DeclaredOnce (own.map (wholePath (.text "API")) ++ results.map entryOf)
        ((componentPath "Pet").map .text) := by
  obtain ⟨tree, h⟩ : ∃ tree, compile .standard spareDocument (.text "API") ⟨none, true⟩ = .ok tree :=
    exists_eq_ok (by decide +kernel)
  obtain ⟨own, results, fewer, hfull, -, hfewer, hcompile, hsubset, honce⟩ := unused_adds h
  have hbase : Value.text "API" ≠ .text "components" := by simp
  refine ⟨⟨tree, h⟩, own, results, fewer, hfull, hfewer, hcompile, hsubset, ?_, ?_⟩
  · exact (honce "a/b~c" (by decide) ⟨_, _, _, rfl, rfl, rfl, rfl⟩).2.mpr fun hsame => hbase hsame.1
  · exact (honce "Pet" (by decide) ⟨_, _, _, rfl, rfl, rfl, rfl⟩).2.mpr fun hsame => hbase hsame.1

/-- A document whose operation has the id `schemas`, with a component schema that is called like its input. -/
def doubledDocument : Value :=
  .record [
    ("paths", .record [("/a", .record [("get", .record [("operationId", .text "schemas")])])]),
    ("components", .record [("schemas", .record [("Input", .record [("type", .text "string")])])])]

/-- Under the base name `components`, the path of the component schema is declared twice. -/
theorem component_declared_twice :
    HasComponent doubledDocument "Input" ∧
      ∃ own resolved tree,
        declared .standard doubledDocument (.text "components") ⟨none, true⟩ = .ok (own, resolved) ∧
        compile .standard doubledDocument (.text "components") ⟨none, true⟩ = .ok tree ∧
        ¬DeclaredOnce (own.map (wholePath (.text "components")) ++ resolved)
          ((componentPath "Input").map .text) ∧
        tree.entries.map (fun entry => (entry.1.map Value.display, entry.2.name.display)) =
          [([("Components" : Text), "Schemas"], ("Input" : Text)), (["Components", "Schemas"], "Output"),
            (["Components", "Schemas"], "Input")] := by
  refine ⟨⟨_, _, _, rfl, rfl, rfl, rfl⟩, ?_⟩
  obtain ⟨⟨own, resolved⟩, hdeclared⟩ : ∃ found,
      declared .standard doubledDocument (.text "components") ⟨none, true⟩ = .ok found :=
    exists_eq_ok (by decide +kernel)
  obtain ⟨tree, hcompile⟩ :
      ∃ tree, compile .standard doubledDocument (.text "components") ⟨none, true⟩ = .ok tree :=
    exists_eq_ok (by decide +kernel)
  refine ⟨own, resolved, tree, hdeclared, hcompile, ?_, ?_⟩
  · have hpaths : (declared .standard doubledDocument (.text "components") ⟨none, true⟩).toOption.map
        (fun found => (found.1.map fun entry => (entry.operation, entry.parts),
          found.2.map fun entry => entry.path.map Value.display)) =
        some ([(("schemas" : Text), [("Input" : Text)]), ("schemas", ["Output"])],
          [[("components" : Text), "schemas", "Input"]]) := by decide +kernel
    obtain ⟨-, -, results, -, -, -, -, -, rfl⟩ := declared_ok hdeclared
    rw [hdeclared] at hpaths
    obtain ⟨hown, hresolved⟩ := Prod.mk.inj (Option.some.inj hpaths)
    obtain ⟨entry, others, rfl, hentry, -⟩ := List.map_eq_cons_iff.mp hown
    obtain ⟨hoperation, hparts⟩ := Prod.mk.inj hentry
    rw [List.map_map] at hresolved
    obtain ⟨result, rfl, hresult⟩ := List.map_eq_singleton_iff.mp hresolved
    have hdisplay : (result.1.map Value.text).map Value.display = result.1 := by
      rw [List.map_map]
      exact List.map_id _
    have hpath : result.1 = componentPath "Input" := hdisplay.symm.trans hresult
    refine not_declaredOnce_append (List.mem_map_of_mem List.mem_cons_self)
      (List.mem_map_of_mem (List.mem_singleton_self result)) ?_ ?_
    · exact wholePath_eq_componentPath_iff.mpr ⟨rfl, hoperation, hparts⟩
    · rw [entryOf, hpath]
  · have hentries : (compile .standard doubledDocument (.text "components") ⟨none, true⟩).toOption.map
        (fun tree => tree.entries.map fun entry => (entry.1.map Value.display, entry.2.name.display)) =
        some [([("Components" : Text), "Schemas"], ("Input" : Text)), (["Components", "Schemas"], "Output"),
          (["Components", "Schemas"], "Input")] := by decide +kernel
    rw [hcompile] at hentries
    exact Option.some.inj hentries

end SchemaTypes.Api
