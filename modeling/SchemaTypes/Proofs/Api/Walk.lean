import SchemaTypes.Proofs.Api.Sound

/-!
# The walk over the operations is sound

One statement for each computation of the walk. A body, a parameter or a response that is returned
has a declaration under the parts that it is named by, so that the records made from them afterwards
mention nothing that is not covered.
-/

namespace SchemaTypes.Api

open Build TypeExpr

variable {setting : Setting} {base : Text} {state : State}

/-- An operation has a declaration under the given parts. -/
def Provided (naming : Naming) (operation : Operation) (parts : List Text) (state : State) : Prop :=
  ∃ entry ∈ state.entries, entry.operation = operation.id ∧ entry.parts = parts ∧ entry.Usable naming

/-- A declaration stays where it is. -/
theorem Provided.mono {naming : Naming} {operation : Operation} {parts : List Text}
    {before after : State} (hgrows : Grows before after) (h : Provided naming operation parts before) :
    Provided naming operation parts after := by
  obtain ⟨entry, hentry, hrest⟩ := h
  exact ⟨entry, hgrows.entries hentry, hrest⟩

/-- The name of a declaration of an operation is covered. -/
theorem Provided.covered {naming : Naming} {operation : Operation} {parts : List Text}
    (h : Provided naming operation parts state) :
    Covered naming base state (qualify naming (operationPath base operation.id parts)) := by
  obtain ⟨entry, hentry, hoperation, rfl, husable⟩ := h
  rw [← hoperation]
  exact .entry hentry husable

/-- A declared schema is provided under its parts. -/
theorem declare_keeps (setting : Setting) (operation : Operation) {parts : List Text}
    (hparts : parts.getLastD "" = "" → parts = [("Parameters" : Text), ""]) (schema : Value) :
    Keeps setting.naming base state (declare setting operation parts schema)
      fun _ final => Provided setting.naming operation parts final := by
  have hscope : (setting.scope operation).rootName = none := rfl
  refine (Keeps.build_declare hscope schema (.text (parts.getLastD "")) false).bind
    fun declaration middle _ hdeclaration => ?_
  refine (Keeps.addEntry operation parts hdeclaration.2).weaken fun _ final _ hentry => ?_
  have hne : parts ≠ [] := by
    rintro rfl
    cases hparts rfl
  refine ⟨_, hentry, rfl, rfl, hne, fun hnamed => ?_⟩
  have hlast : parts.getLastD "" ≠ "" := fun hempty => hnamed (hparts hempty)
  have hname := hdeclaration.1
  rw [Value.orElse, if_pos (by simpa [Value.isPresent, Scalar.isPresent] using hlast)] at hname
  exact (Except.ok.inj hname).symm

/-- Following references keeps the state. -/
theorem resolveChain_keeps (setting : Setting) (place : Text) (value : Value) :
    Keeps setting.naming base state (resolveChain setting place value) fun _ _ => True :=
  Keeps.get_bind (Keeps.lift fun _ _ => trivial)

/-- A request body that is returned is provided. -/
theorem compileBody_keeps (setting : Setting) (operation : Operation) (requestBody : Value) :
    Keeps setting.naming base state (compileBody setting operation requestBody)
      fun input final => ∀ i ∈ input, Provided setting.naming operation i.parts final := by
  rw [compileBody]
  split_ifs
  · exact Keeps.pure nofun
  · refine (resolveChain_keeps setting operation.place requestBody).bind fun resolved middle _ _ => ?_
    split
    · split
      · exact Keeps.pure nofun
      · refine Keeps.bind (Keeps.modify rfl rfl) fun _ next _ _ => ?_
        refine (declare_keeps setting operation (by simp) _).bind fun _ final _ hprovided => ?_
        refine Keeps.pure fun i hi => ?_
        cases hi
        exact hprovided
    · exact Keeps.pure nofun

/-- A parameter that is returned is provided. -/
theorem declareParameter_keeps (setting : Setting) (operation : Operation) (p : Parameter) :
    Keeps setting.naming base state (declareParameter setting operation p)
      fun input final => Provided setting.naming operation input.parts final := by
  have hdeclare {middle : State} (schema : Value) : Keeps setting.naming base middle
      (declare setting operation ["Parameters", p.name] schema)
        fun _ final => Provided setting.naming operation ["Parameters", p.name] final :=
    declare_keeps setting operation (by simp) schema
  rw [declareParameter]
  dsimp only
  split
  · split_ifs
    · exact (hdeclare _).bind fun _ final _ hprovided => Keeps.pure hprovided
    · split
      · exact Keeps.throw _
      · refine Keeps.bind (Keeps.modify rfl rfl) fun _ middle _ _ => ?_
        exact (hdeclare _).bind fun _ final _ hprovided => Keeps.pure hprovided
  · exact (hdeclare _).bind fun _ final _ hprovided => Keeps.pure hprovided

/-- All parameters that are returned are provided. -/
theorem compileParameters_keeps (setting : Setting) (operation : Operation) (shared own : Value) :
    Keeps setting.naming base state (compileParameters setting operation shared own)
      fun inputs final => ∀ i ∈ inputs, Provided setting.naming operation i.parts final := by
  refine Keeps.bind (Keeps.lift fun _ _ => trivial) fun first _ _ (_ : True) => ?_
  refine Keeps.bind (Keeps.lift fun _ _ => trivial) fun second _ _ (_ : True) => ?_
  refine Keeps.bind (Keeps.mapM (fun _ _ _ _ _ => trivial)
    fun value _ middle => resolveChain_keeps setting operation.place value) fun resolved _ _ _ => ?_
  exact Keeps.mapM (fun _ _ _ hgrows hprovided => hprovided.mono hgrows)
    fun p _ middle => declareParameter_keeps setting operation p

/-- Reading the headers of a response keeps the state. -/
theorem compileHeaders_keeps (setting : Setting) (operation : Operation) (headers : Value) :
    Keeps setting.naming base state (compileHeaders setting operation headers) fun _ _ => True := by
  rw [compileHeaders.eq_def]
  split
  · refine Keeps.bind (Keeps.mapM (fun _ _ _ _ _ => trivial) fun member _ middle => ?_)
      fun resolved _ _ _ => Keeps.pure trivial
    exact (resolveChain_keeps setting operation.place member.2).bind
      fun _ _ _ _ => Keeps.pure trivial
  · exact Keeps.pure trivial

/-- A response that is returned is provided. -/
theorem compileResponse_keeps (setting : Setting) (operation : Operation) (status : Text)
    (value : Value) :
    Keeps setting.naming base state (compileResponse setting operation status value)
      fun response final => ∀ r ∈ response,
        Provided setting.naming operation (Response.parts r.status) final := by
  refine (resolveChain_keeps setting operation.place value).bind fun resolved middle _ _ => ?_
  split
  · split
    · exact Keeps.pure nofun
    · refine Keeps.bind (Keeps.modify rfl rfl) fun _ next _ _ => ?_
      refine (compileHeaders_keeps setting operation _).bind fun headers _ _ _ => ?_
      refine (declare_keeps setting operation (by simp [Response.parts]) _).bind
        fun _ final _ hprovided => Keeps.pure fun r hr => ?_
      cases hr
      exact hprovided
  · exact Keeps.pure nofun

/-- All responses that are returned are provided. -/
theorem compileResponses_keeps (setting : Setting) (operation : Operation) (responses : Value) :
    Keeps setting.naming base state (compileResponses setting operation responses)
      fun compiled final => ∀ r ∈ compiled,
        Provided setting.naming operation (Response.parts r.status) final := by
  rw [compileResponses.eq_def]
  split
  · refine Keeps.bind (Keeps.mapM
        (fun _ _ _ hgrows hprovided r hr => (hprovided r hr).mono hgrows)
        fun member _ middle => compileResponse_keeps setting operation member.1.display member.2)
      fun compiled final _ hcompiled => Keeps.pure fun r hr => ?_
    obtain ⟨response, hresponse, hsome⟩ := List.mem_filterMap.mp hr
    exact hcompiled response hresponse r hsome
  · exact Keeps.pure nofun

/-- The reference to a declaration of an operation is made from its path. -/
theorem reference_segments (hbase : setting.base = .text base) (operation : Operation)
    (parts : List Text) :
    (setting.scope operation).reference (setting.segments operation parts) =
      .ok (.reference (qualify setting.naming (operationPath base operation.id parts))) := by
  have hsegments : setting.segments operation parts =
      (operationPath base operation.id parts).map .text := by
    rw [Setting.segments, hbase]
    rfl
  rw [Scope.reference, hsegments, Setting.scope, Naming.applyAll_texts]
  rfl

/-- The record of inputs has one reference for each of them. -/
theorem inputType_eq (hbase : setting.base = .text base) (operation : Operation)
    (inputs : List Input) :
    inputType setting operation inputs = .ok (.object (inputs.map fun input =>
      ⟨.text (Name.camelCase input.name),
        .reference (qualify setting.naming (operationPath base operation.id input.parts)),
        input.required, true⟩) none) := by
  simp only [inputType, reference_segments hbase]
  change (List.mapM (fun input => (pure _ : Except Fault (Field TypeExpr))) inputs >>= _) = _
  rw [List.mapM_pure]
  rfl

/-- The record of inputs that are provided mentions nothing that is not covered. -/
theorem inputType_keeps (hbase : setting.base = .text base) (operation : Operation)
    {inputs : List Input} (h : ∀ i ∈ inputs, Provided setting.naming operation i.parts state) :
    Keeps setting.naming base state (liftM (inputType setting operation inputs))
      fun t final => ∀ parts ∈ t.referenced, Covered setting.naming base final parts := by
  refine Keeps.lift fun t ht parts hparts => ?_
  rw [inputType_eq hbase] at ht
  cases ht
  simp only [referenced, referencedInIndex, List.append_nil, referencedInFields_eq, List.mem_flatMap,
    List.mem_map] at hparts
  obtain ⟨field, ⟨input, hinput, rfl⟩, hmentioned⟩ := hparts
  rw [referenced, List.mem_singleton] at hmentioned
  subst hmentioned
  exact (h input hinput).covered

/-- The variant of a response that is provided mentions nothing that is not covered. -/
theorem variant_keeps (hbase : setting.base = .text base) (operation : Operation) {response : Response}
    (h : Provided setting.naming operation (Response.parts response.status) state) :
    Keeps setting.naming base state (variant setting operation response)
      fun t final => ∀ parts ∈ t.referenced, Covered setting.naming base final parts := by
  have hscope : (setting.scope operation).rootName = none := rfl
  refine Keeps.bind (Keeps.lift fun _ _ => trivial) fun statusSchema first hfirst (_ : True) => ?_
  refine Keeps.bind (Keeps.lift fun _ _ => trivial) fun headersSchema second hsecond (_ : True) => ?_
  refine (Keeps.build_types hscope statusSchema).bind fun status third hthird hstatus => ?_
  refine (Keeps.build_types hscope headersSchema).bind fun headers final hfinal hheaders => ?_
  simp only [reference_segments hbase]
  refine Keeps.pure fun parts hparts => ?_
  simp only [referenced, referencedInFields, referencedInIndex, referenced_unionOf, List.mem_append,
    List.mem_singleton, List.not_mem_nil, or_false] at hparts
  rcases hparts with hparts | hparts | rfl
  · exact (hstatus parts hparts).mono hfinal
  · exact hheaders parts hparts
  · exact (h.mono (hfirst.trans (hsecond.trans (hthird.trans hfinal)))).covered

/-- The variants of responses that are provided mention nothing that is not covered. -/
theorem variants_keeps (hbase : setting.base = .text base) (operation : Operation)
    {responses : List Response}
    (h : ∀ r ∈ responses, Provided setting.naming operation (Response.parts r.status) state) :
    Keeps setting.naming base state (variants setting operation responses)
      fun ts final => ∀ parts ∈ ts.flatMap referenced, Covered setting.naming base final parts := by
  induction responses generalizing state with
  | nil => exact Keeps.pure nofun
  | cons response rest ih =>
    refine Keeps.bind (Keeps.lift fun _ _ => trivial) fun included middle hmiddle (_ : True) => ?_
    have hrest {later : State} (hgrows : Grows middle later) :
        ∀ r ∈ rest, Provided setting.naming operation (Response.parts r.status) later :=
      fun r hr => (h r (List.mem_cons_of_mem _ hr)).mono (hmiddle.trans hgrows)
    split_ifs
    · refine (variant_keeps hbase operation ((h response List.mem_cons_self).mono hmiddle)).bind
        fun first next hnext hfirst => ?_
      refine (ih (hrest hnext)).bind fun others final hfinal hothers => Keeps.pure ?_
      intro parts hparts
      rw [List.flatMap_cons, List.mem_append] at hparts
      rcases hparts with hparts | hparts
      · exact (hfirst parts hparts).mono hfinal
      · exact hothers parts hparts
    · exact ih (hrest (.refl middle))

/-- The output of responses that are provided mentions nothing that is not covered. -/
theorem outputType_keeps (hbase : setting.base = .text base) (operation : Operation)
    {responses : List Response}
    (h : ∀ r ∈ responses, Provided setting.naming operation (Response.parts r.status) state) :
    Keeps setting.naming base state (outputType setting operation responses)
      fun t final => ∀ parts ∈ t.referenced, Covered setting.naming base final parts := by
  refine (variants_keeps hbase operation h).bind fun ts final _ hts => ?_
  cases ts with
  | nil => exact Keeps.pure (by simp [referenced])
  | cons t rest =>
    refine Keeps.pure fun parts hparts => ?_
    rw [referenced, referencedInAll_eq] at hparts
    exact hts parts hparts

/-- Compiling an operation keeps every name covered. -/
theorem compileOperation_keeps (hbase : setting.base = .text base) (path method : Text)
    (pathItem operation : Members) :
    Keeps setting.naming base state (compileOperation setting path method pathItem operation)
      fun _ _ => True := by
  refine Keeps.get_bind (Keeps.bind (Keeps.modify rfl rfl) fun _ _ _ _ => ?_)
  refine (compileBody_keeps setting _ _).bind fun body first _ hbody => ?_
  refine (compileParameters_keeps setting _ _ _).bind fun parameters second hsecond hparameters => ?_
  refine (compileResponses_keeps setting _ _).bind fun responses third hthird hresponses => ?_
  have hinputs := List.forall_mem_append.mpr
    ⟨fun i hi => (hbody i (Option.mem_toList.mp hi)).mono (hsecond.trans hthird),
      fun i hi => (hparameters i hi).mono hthird⟩
  refine (inputType_keeps hbase _ hinputs).bind fun input fourth hfourth hinput => ?_
  refine (Keeps.addEntry _ ["Input"] hinput).bind fun _ fifth hfifth _ => ?_
  refine (outputType_keeps hbase _ fun r hr =>
    (hresponses r hr).mono (hfourth.trans hfifth)).bind fun output sixth _ houtput => ?_
  exact (Keeps.addEntry _ ["Output"] houtput).weaken fun _ _ _ _ => trivial

/-- Compiling the operations of a path keeps every name covered. -/
theorem compilePath_keeps (hbase : setting.base = .text base) (path : Text) (pathItem : Members)
    (members : List (Scalar × Value)) :
    Keeps setting.naming base state (compilePath setting path pathItem members) fun _ _ => True := by
  fun_induction compilePath setting path pathItem members generalizing state with
  | case1 => exact Keeps.pure trivial
  | case2 method operation =>
    rename_i ih
    exact (compileOperation_keeps hbase path method pathItem operation).bind fun _ _ _ _ => ih
  | case3 =>
    rename_i ih
    exact ih
  | case4 _ _ _ ih => exact ih

/-- Compiling the operations of all paths keeps every name covered. -/
theorem compilePaths_keeps (hbase : setting.base = .text base) (members : List (Scalar × Value)) :
    Keeps setting.naming base state (compilePaths setting members) fun _ _ => True := by
  fun_induction compilePaths setting members generalizing state with
  | case1 => exact Keeps.pure trivial
  | case2 path pathItem rest ih =>
    exact (compilePath_keeps hbase path.display pathItem pathItem).bind fun _ _ _ _ => ih
  | case3 _ _ _ ih => exact ih

/-- Discovering component schemas keeps every name covered. -/
theorem discoverSchemas_keeps (setting : Setting) (names : List Value) :
    Keeps setting.naming base state (discoverSchemas setting names) fun _ _ => True := by
  fun_induction discoverSchemas setting names generalizing state with
  | case1 => exact Keeps.pure trivial
  | case2 name rest =>
    rename_i ih
    refine Keeps.bind ?_ fun _ _ _ (_ : True) => ih
    have hproper : ∀ path ∈ Schema.visitedPath (.text (Pointer.join ["components", "schemas", name])),
        Pointer.Proper path :=
      fun path hpath => Value.proper_of_mem_addressedPath (Schema.visitedPath_subset _ hpath)
    have hyields : Yields ((setting.outerScope.reportingAt none).register
        (.text (Pointer.join ["components", "schemas", name]))) fun _ => True :=
      Yields.of_forall fun _ => trivial
    exact (Keeps.build (Schema.register_explores setting.outerScope _) hproper hyields).weaken
      fun _ _ _ _ => trivial
  | case3 name rest hname => exact Keeps.throw _

/-- The whole walk keeps every name covered. -/
theorem walk_keeps (hbase : setting.base = .text base) :
    Keeps setting.naming base state (walk setting) fun _ _ => True := by
  refine Keeps.bind (Keeps.lift fun _ _ => trivial) fun members _ _ (_ : True) => ?_
  refine (compilePaths_keeps hbase members).bind fun _ _ _ _ => ?_
  split_ifs
  · exact Keeps.bind (Keeps.lift fun _ _ => trivial) fun names _ _ (_ : True) =>
      discoverSchemas_keeps setting names
  · exact Keeps.pure trivial

end SchemaTypes.Api
