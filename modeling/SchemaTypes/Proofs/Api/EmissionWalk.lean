import SchemaTypes.Proofs.Api.Emission
import SchemaTypes.Proofs.Api.Walk

/-!
# The emissions of the walk

One statement for each computation of the walk: it ends in a state that has its emissions stored, declared
and discovered. Only request bodies, responses and shared parameters emit anything. What they emit is
declared by references whose types are known in advance, so no other part of the document matters.
-/

namespace SchemaTypes.Api

open Build Faulting TypeExpr

variable {naming : Naming} {α : Type}

/-- Discovering more is no emission. -/
theorem emits_discover (state : State) (paths : List (List Text)) :
    Emits naming [] [] state { state with discovery := state.discovery.addAll paths } :=
  ⟨rfl, rfl, nofun, fun _ hkey => Discovery.mem_keys_addAll.mpr (Or.inl hkey), nofun, [], by simp, rfl,
    nofun⟩

/-- Building emits nothing. -/
theorem build_emits (naming : Naming) {action : Option Text → Build α} {paths : List (List Text)}
    (h : Explores action paths) (place : Option Text) (state : State) :
    Ends state (Api.build (action place)) fun _ final => Emits naming [] [] state final := by
  refine (Ends.build (action place)).weaken ?_
  rintro a final ⟨d, hrun, rfl⟩
  have hd : d = state.discovery.addAll paths :=
    congrArg Prod.snd (hrun.symm.trans (h.run_of_ok hrun place state.discovery))
  rw [hd]
  exact emits_discover state paths

/-- Adding a declaration other than a record of inputs emits nothing. -/
theorem addEntry_emits (naming : Naming) (operation : Operation) {parts : List Text}
    (hparts : parts ≠ [("Input" : Text)]) (declaration : Declaration) (state : State) :
    Ends state (addEntry operation parts declaration) fun _ final => Emits naming [] [] state final := by
  intro a final hrun
  cases hrun
  refine ⟨rfl, rfl, nofun, List.Subset.refl _, nofun, [⟨operation.id, parts, declaration⟩], rfl, ?_,
    nofun⟩
  simp [inputOperations, giveIds, hparts]

/-- Declaring a schema emits nothing by itself. -/
theorem declare_emits (setting : Setting) (operation : Operation) {parts : List Text}
    (hparts : parts ≠ [("Input" : Text)]) (schema : Value) (state : State) :
    Ends state (declare setting operation parts schema)
      fun _ final => Emits setting.naming [] [] state final := by
  have hexplores := Schema.declare_explores (setting.scope operation) schema
    (.text (parts.getLastD "")) false
  refine (build_emits setting.naming hexplores (some operation.place) state).bind
    fun declaration middle hmiddle => ?_
  exact (addEntry_emits setting.naming operation hparts declaration middle).weaken fun _ _ hfinal =>
    hmiddle.trans hfinal

/-- A schema whose types are references to paths of the scratch area. -/
def Refers (scope : Scope) (schema : Value) (paths : List (List Text)) : Prop :=
  ∃ ts, unionOf ts =
      unionOf (paths.map fun path => .reference (qualify scope.naming (scratchPath path))) ∧
    ∀ d, (Schema.types scope schema).run d = (.ok ts, d.addAll (paths.map scratchPath))

/-- The path of a part of the scratch area has no empty segment if the part has none. -/
theorem empty_not_mem_scratchPath {path : List Text} (h : ("" : Text) ∉ path) :
    ("" : Text) ∉ scratchPath path := by
  simp [scratchPath, h]

/-- A reference to the scratch area addresses its path there. -/
theorem target_scratch (scope : Scope) {path : List Text} (h : ("" : Text) ∉ path) :
    scope.target (.text (Pointer.join (scratchPath path))) = .ok (.path (scratchPath path)) := by
  rw [Scope.target]
  simp only [Pointer.isLocal_join, if_true, Pointer.split_join_of_not_mem (empty_not_mem_scratchPath h)]
  rfl

/-- The types of a reference to the scratch area. -/
theorem run_types_reference (scope : Scope) {path : List Text} (h : ("" : Text) ∉ path) (d : Discovery) :
    (Schema.types scope (Scratch.reference path)).run d =
      (.ok [.reference (qualify scope.naming (scratchPath path))], d.addAll [scratchPath path]) := by
  have hshape : Shape.ofMembers [(.text "$ref", .text (Pointer.join (scratchPath path)))] =
      .ok .reference := rfl
  have hregister : (scope.register (.text (Pointer.join (scratchPath path)))).run d =
      (.ok (.path (scratchPath path)), d.addAll [scratchPath path]) := by
    rw [Scope.register, target_scratch scope h]
    rfl
  change (Schema.types scope (.object [(.text "$ref", .text (Pointer.join (scratchPath path)))])).run d = _
  rw [Schema.types, hshape]
  change (scope.register (.text (Pointer.join (scratchPath path))) >>= _).run d = _
  rw [run_bind, hregister]
  simp only [Target.segments, Scope.reference, scope.naming.applyAll_texts]
  rfl

/-- A reference to the scratch area refers to its path. -/
theorem refers_reference (scope : Scope) {path : List Text} (h : ("" : Text) ∉ path) :
    Refers scope (Scratch.reference path) [path] :=
  ⟨_, rfl, run_types_reference scope h⟩

/-- The types of several references to the scratch area. -/
theorem run_branchTypes_references (scope : Scope) {paths : List (List Text)}
    (h : ∀ path ∈ paths, ("" : Text) ∉ path) (d : Discovery) :
    (Schema.branchTypes scope (paths.map Scratch.reference)).run d =
      (.ok (paths.map fun path => .reference (qualify scope.naming (scratchPath path))),
        d.addAll (paths.map scratchPath)) := by
  induction paths generalizing d with
  | nil =>
    rw [List.map_nil, Schema.branchTypes]
    rfl
  | cons path rest ih =>
    obtain ⟨hpath, hrest⟩ := List.forall_mem_cons.mp h
    rw [List.map_cons, Schema.branchTypes, run_bind, run_types_reference scope hpath]
    dsimp only
    rw [run_bind, ih hrest]
    rfl

/-- A choice of references to the scratch area refers to all their paths. -/
theorem refers_oneOf (scope : Scope) {paths : List (List Text)} (h : ∀ path ∈ paths, ("" : Text) ∉ path) :
    Refers scope (oneOf (paths.map Scratch.reference)) paths := by
  refine ⟨[unionOf (paths.map fun path => .reference (qualify scope.naming (scratchPath path)))], rfl,
    fun d => ?_⟩
  have hshape : Shape.ofMembers [(.text "oneOf", .list (paths.map Scratch.reference))] =
      .ok (.combined .oneOf) := rfl
  have hbranches (otherwise : Fault) : Schema.branchesUnder scope .oneOf otherwise
      [(.text "oneOf", .list (paths.map Scratch.reference))] =
        Schema.branchTypes scope (paths.map Scratch.reference) := by
    rw [Schema.branchesUnder_eq]
    rfl
  change (Schema.types scope (.object [(.text "oneOf", .list (paths.map Scratch.reference))])).run d = _
  rw [Schema.types, hshape]
  change (Schema.branchesUnder scope .oneOf _ _ >>= _).run d = _
  rw [hbranches, run_bind, run_branchTypes_references scope h]
  rfl

/-- What declaring a schema that refers to the scratch area gives and discovers. -/
theorem Refers.run_declare {scope : Scope} {schema name : Value} {paths : List (List Text)}
    (h : Refers scope schema paths) {ambient : Bool} {d d' : Discovery} {declaration : Declaration}
    (hrun : (Schema.declare scope schema name ambient).run d = (.ok declaration, d')) :
    declaration.type =
        unionOf (paths.map fun path => .reference (qualify scope.naming (scratchPath path))) ∧
      d' = d.addAll (paths.map scratchPath) := by
  obtain ⟨ts, hts, htypes⟩ := h
  obtain ⟨alternatives, middle, hfirst, hrest⟩ := run_bind_ok hrun
  rw [htypes] at hfirst
  cases hfirst
  obtain ⟨identifier, last, hidentify, hpure⟩ := run_bind_ok hrest
  rw [run_lift] at hidentify
  obtain ⟨-, rfl⟩ := Prod.mk.inj hidentify
  cases hpure
  exact ⟨hts, rfl⟩

/-- Declaring references to schemas that were just put aside completes their emission. -/
theorem declare_emission (setting : Setting) (operation : Operation) {e : Emission} (hproper : e.Proper)
    (hoperation : e.operation = operation.id) {schema : Value}
    (hschema : Refers (setting.scope operation) schema (e.targets.map (·.1))) (state : State) :
    Ends { state with scratch := e.store state.scratch } (declare setting operation e.parts schema)
      fun _ final => Emits setting.naming [] [e] state final := by
  refine Ends.bind (Ends.build _) fun declaration middle hmiddle => ?_
  obtain ⟨d, hrun, rfl⟩ := hmiddle
  obtain ⟨htype, rfl⟩ := hschema.run_declare hrun
  intro a final hfinal
  cases hfinal
  rw [List.map_map] at htype
  refine ⟨rfl, rfl, by simpa using hproper, fun key hkey => ?_, ?_,
    [⟨operation.id, e.parts, declaration⟩], rfl, ?_, ?_⟩
  · exact Discovery.mem_keys_addAll.mpr (Or.inl hkey)
  · intro other hother target htarget
    rw [List.mem_singleton.mp hother] at htarget
    refine Discovery.mem_keys_addAll.mpr (Or.inr ⟨scratchPath target.1, ?_, rfl⟩)
    exact List.mem_map_of_mem (List.mem_map_of_mem htarget)
  · simp [inputOperations, giveIds, e.parts_ne_input]
  · intro other hother
    rw [List.mem_singleton.mp hother]
    exact ⟨_, List.mem_singleton_self _, hoperation.symm, rfl, htype⟩

/-- Following references gives what they lead to. -/
theorem resolveChain_ends (setting : Setting) (operation : Operation) (value : Value) (state : State) :
    Ends state (resolveChain setting operation.place value) fun result final =>
      final = state ∧ result = resolved (setting.overlay.value state.scratch) operation value := by
  refine Ends.get_bind ((Ends.lift _).weaken ?_)
  rintro result final ⟨hfinal, hresult⟩
  rw [resolved, hresult]
  exact ⟨hfinal, rfl⟩

/-- Following several references gives what each of them leads to. -/
theorem resolveChains_ends (setting : Setting) (operation : Operation) (values : List Value)
    (state : State) :
    Ends state (values.mapM (resolveChain setting operation.place)) fun results final =>
      final = state ∧
        results = values.map (resolved (setting.overlay.value state.scratch) operation) := by
  induction values with
  | nil => exact Ends.pure ⟨rfl, rfl⟩
  | cons value rest ih =>
    rw [List.mapM_cons]
    refine Ends.bind (resolveChain_ends setting operation value state) ?_
    rintro result _ ⟨rfl, rfl⟩
    refine Ends.bind ih ?_
    rintro results _ ⟨rfl, rfl⟩
    exact Ends.pure ⟨rfl, rfl⟩

/-- The references to numbered schemas are those to where they are put. -/
theorem numberedReferences_eq (path : List Text) (stem : Text) (schemas : List Value) :
    numberedReferences path stem schemas.length =
      ((Scratch.numbered stem schemas).map fun target => path ++ target.1).map Scratch.reference := by
  rw [numberedReferences, Scratch.numbered, List.map_map, List.map_map, List.range_eq_range',
    ← List.zipIdx_map_snd 0 schemas, List.map_map]
  rfl

/-- No numbered name is empty. -/
theorem empty_not_mem_numbered {stem : Text} (h : stem ≠ "") {schemas : List Value}
    {target : List Text × Value} (htarget : target ∈ Scratch.numbered stem schemas) :
    ("" : Text) ∉ target.1 := by
  obtain ⟨⟨schema, i⟩, -, rfl⟩ := List.mem_map.mp htarget
  rw [List.mem_singleton]
  exact (append_ne_empty_left h _).symm

/-- Below a name that is not empty there is no empty segment if there was none before. -/
theorem empty_not_mem_nest {name : Text} (h : name ≠ "") {targets : List (List Text × Value)}
    (htargets : ∀ target ∈ targets, ("" : Text) ∉ target.1) :
    ∀ target ∈ Scratch.nest name targets, ("" : Text) ∉ target.1 := by
  intro target htarget
  obtain ⟨inner, hinner, rfl⟩ := List.mem_map.mp htarget
  simpa [h.symm] using htargets inner hinner

/-- The schemas of a request body are put aside at paths that references can write. -/
theorem proper_body {operation : Text} (hoperation : operation ≠ "") {schemas : List Value}
    (hschemas : schemas ≠ []) : (Emission.body operation schemas).Proper :=
  ⟨Scratch.nest_ne_nil _ (Scratch.nest_ne_nil _ (Scratch.numbered_ne_nil _ hschemas)),
    empty_not_mem_nest (by decide) (empty_not_mem_nest hoperation fun _ htarget =>
      empty_not_mem_numbered (by decide) htarget)⟩

/-- The schemas of a response are put aside at paths that references can write. -/
theorem proper_response {operation : Text} (hoperation : operation ≠ "") (status : Text)
    {schemas : List Value} (hschemas : schemas ≠ []) :
    (Emission.response operation status schemas).Proper :=
  ⟨Scratch.nest_ne_nil _ (Scratch.nest_ne_nil _ (Scratch.nest_ne_nil _
      (Scratch.numbered_ne_nil _ hschemas))),
    empty_not_mem_nest (by decide) (empty_not_mem_nest hoperation
      (empty_not_mem_nest (append_ne_empty_left (by decide) status) fun _ htarget =>
        empty_not_mem_numbered (by decide) htarget))⟩

/-- The schema of a shared parameter is put aside at a path that references can write. -/
theorem proper_parameter (operation name : Text) {key : Text} (hkey : key ≠ "") (schema : Value) :
    (Emission.parameter operation name key schema).Proper :=
  ⟨List.cons_ne_nil _ _, empty_not_mem_nest (by decide) (by simpa using hkey.symm)⟩

/-- Declaring a choice of references to schemas that were just put aside completes their emission. -/
theorem declare_choice (setting : Setting) (operation : Operation) {e : Emission} (hproper : e.Proper)
    (hoperation : e.operation = operation.id) (state : State) :
    Ends { state with scratch := e.store state.scratch }
      (declare setting operation e.parts (oneOf ((e.targets.map (·.1)).map Scratch.reference)))
      fun _ final => Emits setting.naming [] [e] state final := by
  refine declare_emission setting operation hproper hoperation (refers_oneOf _ fun path hpath => ?_) state
  obtain ⟨target, htarget, rfl⟩ := List.mem_map.mp hpath
  exact hproper.no_empty target htarget

/-- The references to the schemas of a request body are those to where they are put. -/
theorem bodyReferences_eq (operation : Text) (schemas : List Value) :
    numberedReferences [Scratch.requestBodiesKey, operation] "Body" schemas.length =
      ((Emission.body operation schemas).targets.map (·.1)).map Scratch.reference := by
  simp only [numberedReferences_eq, Emission.targets, Scratch.bodyTargets, Scratch.nest, List.map_map]
  rfl

/-- The references to the schemas of a response are those to where they are put. -/
theorem responseReferences_eq (operation status : Text) (schemas : List Value) :
    numberedReferences [Scratch.responsesKey, operation, "Response" ++ status] "Schema" schemas.length =
      ((Emission.response operation status schemas).targets.map (·.1)).map Scratch.reference := by
  simp only [numberedReferences_eq, Emission.targets, Scratch.responseTargets, Scratch.nest,
    List.map_map]
  rfl

/-- A value that is no object has no content. -/
theorem contentSchemas_of_not_object {v : Value} (h : ∀ members, v ≠ .object members) :
    contentSchemas v = [] := by
  cases v with
  | scalar s => rfl
  | list items => rfl
  | object members => exact absurd rfl (h members)

/-- Compiling a request body emits its schemas. -/
theorem compileBody_emits (setting : Setting) {operation : Operation} (hid : operation.id ≠ "")
    (requestBody : Value) (state : State) :
    Ends state (compileBody setting operation requestBody) fun _ final =>
      Emits setting.naming []
        (bodyEmissions (setting.overlay.value state.scratch) operation requestBody) state final := by
  rw [compileBody]
  split_ifs with hnull
  · rw [Value.isNull.eq_def] at hnull
    split at hnull
    · exact Ends.pure (Emits.refl state)
    · cases hnull
  · refine Ends.bind (resolveChain_ends setting operation requestBody state) ?_
    rintro result middle ⟨hmiddle, hresult⟩
    rw [bodyEmissions, ← hresult, hmiddle]
    split
    · rename_i members hmembers
      rw [hmembers, contentSchemas]
      cases hschemas : mediaSchemas (Members.fieldOrNull "content" members) with
      | nil => exact Ends.pure (Emits.refl state)
      | cons first rest =>
        have hproper := proper_body hid (List.cons_ne_nil first rest)
        refine Ends.bind (Ends.modify _) ?_
        rintro _ _ rfl
        rw [bodyReferences_eq]
        exact (declare_choice setting operation hproper rfl state).bind
          fun _ _ hfinal => Ends.pure hfinal
    · rename_i hother
      rw [contentSchemas_of_not_object hother]
      exact Ends.pure (Emits.refl state)

/-- Reading the headers of a response leaves the state as it is. -/
theorem compileHeaders_ends (setting : Setting) (operation : Operation) (headers : Value)
    (state : State) :
    Ends state (compileHeaders setting operation headers) fun _ final => final = state := by
  rw [compileHeaders.eq_def]
  split
  · refine Ends.bind (Ends.mapM (fun _ first last => last = first) (fun _ => rfl)
      (fun _ _ _ _ _ hfirst hrest => hrest.trans hfirst) (fun member state => ?_) _ state)
      fun _ _ hfinal => Ends.pure hfinal
    exact (resolveChain_ends setting operation member.2 state).bind
      fun _ _ hmiddle => Ends.pure hmiddle.1
  · exact Ends.pure rfl

/-- Compiling a response emits its schemas. -/
theorem compileResponse_emits (setting : Setting) {operation : Operation} (hid : operation.id ≠ "")
    (status : Text) (value : Value) (state : State) :
    Ends state (compileResponse setting operation status value) fun _ final =>
      Emits setting.naming []
        (responseEmissions (setting.overlay.value state.scratch) operation status value) state final := by
  refine Ends.bind (resolveChain_ends setting operation value state) ?_
  rintro result middle ⟨hmiddle, hresult⟩
  rw [responseEmissions, ← hresult, hmiddle]
  split
  · rename_i members hmembers
    rw [hmembers, contentSchemas]
    cases hschemas : mediaSchemas (Members.fieldOrNull "content" members) with
    | nil => exact Ends.pure (Emits.refl state)
    | cons first rest =>
      have hproper := proper_response hid status (List.cons_ne_nil first rest)
      refine Ends.bind (Ends.modify _) ?_
      rintro _ _ rfl
      refine Ends.bind (compileHeaders_ends setting operation _ _) ?_
      rintro headers _ rfl
      rw [responseReferences_eq]
      exact (declare_choice setting operation hproper rfl state).bind
        fun _ _ hfinal => Ends.pure hfinal
  · rename_i hother
    rw [contentSchemas_of_not_object hother]
    exact Ends.pure (Emits.refl state)

/-- Compiling several responses emits the schemas of each. -/
theorem compileResponses_emits (setting : Setting) {operation : Operation} (hid : operation.id ≠ "")
    (responses : Value) (state : State) :
    Ends state (compileResponses setting operation responses) fun _ final =>
      Emits setting.naming []
        (responsesEmissions setting operation state.scratch (membersOrNone responses)) state final := by
  cases responses with
  | scalar s => exact Ends.pure (Emits.refl state)
  | list items => exact Ends.pure (Emits.refl state)
  | object members =>
    refine Ends.bind (Ends.mapM (fun members first last => Emits setting.naming []
      (responsesEmissions setting operation first.scratch members) first last) Emits.refl ?_
      (fun member => compileResponse_emits setting hid member.1.display member.2) members state)
      fun _ _ hfinal => Ends.pure hfinal
    intro member rest first second third hfirst hrest
    rw [hfirst.scratch_eq] at hrest
    exact hfirst.trans hrest

/-- Compiling a parameter emits its schema if it is put aside. -/
theorem declareParameter_emits (setting : Setting) (operation : Operation) (p : Parameter)
    (state : State) :
    Ends state (declareParameter setting operation p) fun _ final =>
      Emits setting.naming [] (parameterEmissions operation p) state final := by
  have hplain (schema : Value) := declare_emits setting operation
    (show [("Parameters" : Text), p.name] ≠ [("Input" : Text)] by simp) schema state
  rw [declareParameter, parameterEmissions]
  cases p.ref with
  | none => exact (hplain _).bind fun _ _ hfinal => Ends.pure hfinal
  | some ref =>
    dsimp only
    split_ifs with hreference
    · exact (hplain _).bind fun _ _ hfinal => Ends.pure hfinal
    · cases hlast : (Pointer.split ref).getLast? with
      | none => exact Ends.throw _
      | some key =>
        have hkey : key ≠ "" := fun hempty =>
          Pointer.empty_not_mem_split ref (hempty ▸ List.mem_of_getLast? hlast)
        have hproper := proper_parameter operation.id p.name hkey p.schema
        have hsegments : ("" : Text) ∉ [Scratch.parametersKey, key] :=
          hproper.no_empty _ (List.mem_singleton_self _)
        refine Ends.bind (Ends.modify _) ?_
        rintro _ _ rfl
        exact (declare_emission setting operation hproper rfl
          (refers_reference _ hsegments) state).bind fun _ _ hfinal => Ends.pure hfinal

/-- Compiling parameters emits the schemas of those that are shared. -/
theorem compileParameters_emits (setting : Setting) (operation : Operation) (shared own : Value)
    (state : State) :
    Ends state (compileParameters setting operation shared own) fun _ final =>
      Emits setting.naming [] (parametersEmissions (setting.overlay.value state.scratch) operation
        shared own) state final := by
  refine Ends.bind (Ends.lift _) ?_
  rintro first second ⟨hsecond, hfirst⟩
  refine Ends.bind (Ends.lift _) ?_
  rintro rest third ⟨hthird, hrest⟩
  rw [hthird, hsecond]
  refine Ends.bind (resolveChains_ends setting operation _ state) ?_
  rintro results fourth ⟨hfourth, rfl⟩
  rw [hfourth, parametersEmissions, listedValues, listedValues, hfirst, hrest]
  refine Ends.mapM (fun parameters first last => Emits setting.naming []
    (parameters.flatMap (parameterEmissions operation)) first last) Emits.refl ?_
    (declareParameter_emits setting operation) _ state
  intro p others first second third hp hothers
  exact hp.trans hothers

/-- The variant of a response emits nothing. -/
theorem variant_emits (setting : Setting) (operation : Operation) (response : Response)
    (state : State) :
    Ends state (variant setting operation response) fun _ final =>
      Emits setting.naming [] [] state final := by
  have hbuild (schema : Value) (state : State) := build_emits setting.naming
    (Schema.types_explores (setting.scope operation) schema) (some operation.place) state
  refine Ends.bind (Ends.lift _) ?_
  rintro statusSchema _ ⟨rfl, -⟩
  refine Ends.bind (Ends.lift _) ?_
  rintro headersSchema _ ⟨rfl, -⟩
  refine Ends.bind (hbuild statusSchema _) fun status first hfirst => ?_
  refine Ends.bind (hbuild headersSchema _) fun headers second hsecond => ?_
  refine Ends.bind (Ends.lift _) ?_
  rintro body _ ⟨rfl, -⟩
  exact Ends.pure (hfirst.trans hsecond)

/-- The variants of responses emit nothing. -/
theorem variants_emits (setting : Setting) (operation : Operation) (responses : List Response)
    (state : State) :
    Ends state (variants setting operation responses) fun _ final =>
      Emits setting.naming [] [] state final := by
  induction responses generalizing state with
  | nil => exact Ends.pure (Emits.refl state)
  | cons response rest ih =>
    refine Ends.bind (Ends.lift _) ?_
    rintro included _ ⟨rfl, -⟩
    split_ifs
    · refine Ends.bind (variant_emits setting operation response _) fun first middle hmiddle => ?_
      exact Ends.bind (ih middle) fun others final hfinal => Ends.pure (hmiddle.trans hfinal)
    · exact ih _

/-- The output of an operation emits nothing. -/
theorem outputType_emits (setting : Setting) (operation : Operation) (responses : List Response)
    (state : State) :
    Ends state (outputType setting operation responses) fun _ final =>
      Emits setting.naming [] [] state final := by
  refine Ends.bind (variants_emits setting operation responses state) fun ts final hfinal => ?_
  cases ts with
  | nil => exact Ends.pure hfinal
  | cons t rest => exact Ends.pure hfinal

/-- Compiling an operation emits its schemas and gives out its id. -/
theorem OperationSource.compile_emits (setting : Setting) (source : OperationSource) (state : State) :
    Ends state (source.compile setting) fun _ final =>
      Emits setting.naming [source.requestedId]
        (source.emissions setting state.scratch (uniqueId source.requestedId state.ids).1)
        state final := by
  have hid : (source.under (uniqueId source.requestedId state.ids).1).id ≠ "" :=
    uniqueId_ne_empty (requestedId_ne_empty _ _ _) state.ids
  refine Ends.get_bind (Ends.bind (Ends.modify _) ?_)
  rintro _ first rfl
  refine (compileBody_emits setting hid _ _).bind fun body second hbody => ?_
  refine (compileParameters_emits setting _ _ _ second).bind fun parameters third hparameters => ?_
  refine (compileResponses_emits setting hid _ third).bind fun responses fourth hresponses => ?_
  refine Ends.bind (Ends.lift _) ?_
  rintro input _ ⟨rfl, -⟩
  refine Ends.bind (Ends.modify _) ?_
  rintro _ fifth rfl
  refine (outputType_emits setting _ _ _).bind fun output sixth houtput => ?_
  refine (addEntry_emits setting.naming _ (by simp) _ sixth).weaken fun _ final hfinal => ?_
  rw [hparameters.scratch_eq, hbody.scratch_eq] at hresponses
  rw [hbody.scratch_eq] at hparameters
  exact Emits.operation ((hbody.trans hparameters).trans hresponses) (houtput.trans hfinal)

/-- The operations of a path are compiled one after the other. -/
theorem compilePath_eq (setting : Setting) (path : Text) (pathItem : Members)
    (members : List (Scalar × Value)) :
    compilePath setting path pathItem members =
      forM (pathSources path pathItem members) (OperationSource.compile setting) := by
  fun_induction pathSources path pathItem members with
  | case1 => rfl
  | case2 method operation rest hmethod ih =>
    rw [compilePath, if_pos hmethod, ih, List.forM_cons]
    rfl
  | case3 method operation rest hmethod ih =>
    rw [compilePath, if_neg hmethod, ih]
  | case4 member rest hother ih => rw [compilePath, ih]; exact hother

/-- The operations of all paths are compiled one after the other. -/
theorem compilePaths_eq (setting : Setting) (members : List (Scalar × Value)) :
    compilePaths setting members = forM (sources members) (OperationSource.compile setting) := by
  fun_induction sources members with
  | case1 => rfl
  | case2 path pathItem rest ih => rw [compilePaths, List.forM_append, compilePath_eq, ih]
  | case3 member rest hother ih => rw [compilePaths, ih]; exact hother

/-- Compiling several operations emits the schemas of each and gives out their ids. -/
theorem sources_emit (setting : Setting) (operations : List OperationSource) (state : State) :
    Ends state (forM operations (OperationSource.compile setting)) fun _ final =>
      Emits setting.naming (operations.map OperationSource.requestedId)
        (sourcesEmissions setting state.ids state.scratch operations) state final := by
  induction operations generalizing state with
  | nil => exact Ends.pure (Emits.refl state)
  | cons source rest ih =>
    rw [List.forM_cons]
    refine Ends.bind (source.compile_emits setting state) fun _ middle hmiddle => ?_
    refine (ih middle).weaken fun _ final hfinal => ?_
    rw [hmiddle.ids_eq, hmiddle.scratch_eq] at hfinal
    exact hmiddle.trans hfinal

/-- Discovering component schemas emits nothing. -/
theorem discoverSchemas_emits (setting : Setting) (names : List Value) (state : State) :
    Ends state (discoverSchemas setting names) fun _ final =>
      Emits setting.naming [] [] state final := by
  fun_induction discoverSchemas setting names generalizing state with
  | case1 => exact Ends.pure (Emits.refl state)
  | case2 name rest =>
    rename_i ih
    refine Ends.bind (build_emits setting.naming (Schema.register_explores setting.outerScope _) none
      state) fun _ middle hmiddle => ?_
    exact (ih middle).weaken fun _ final hfinal => hmiddle.trans hfinal
  | case3 name rest hname => exact Ends.throw _

/-- The ids that the operations of a document ask for. -/
def requestedIds (document : Members) : List Text :=
  (documentSources document).map OperationSource.requestedId

/-- The walk emits the schemas of all operations and gives out their ids. -/
theorem walk_emits (setting : Setting) (state : State) :
    Ends state (walk setting) fun _ final =>
      Emits setting.naming (requestedIds setting.overlay.document)
        (sourcesEmissions setting state.ids state.scratch (documentSources setting.overlay.document))
        state final := by
  refine Ends.bind (Ends.lift _) ?_
  rintro members _ ⟨rfl, hpaths⟩
  have hsources : documentSources setting.overlay.document = sources members := by
    rw [documentSources, hpaths]
    rfl
  rw [compilePaths_eq, requestedIds, hsources]
  refine (sources_emit setting (sources members) _).bind fun _ middle hmiddle => ?_
  split_ifs
  · refine Ends.bind (Ends.lift _) ?_
    rintro names _ ⟨rfl, -⟩
    refine (discoverSchemas_emits setting names _).weaken fun _ final hfinal => ?_
    simpa only [List.append_nil] using hmiddle.trans hfinal
  · exact Ends.pure hmiddle

end SchemaTypes.Api
