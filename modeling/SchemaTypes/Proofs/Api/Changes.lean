import SchemaTypes.Proofs.Api.EmissionWalk

/-!
# What the walk changes

The computations of the walk look at the scratch area and at the counts of ids, and at nothing else that
was left behind before. Whatever has been discovered or declared, they discover the same paths, put the
same schemas aside and add the same declarations. `Oblivious` says this of a computation, together with what
kind of declarations it adds. It has one rule for each way to put computations together.

Every declaration of the walk is built from a schema, or it is the record of the inputs of an operation or
the union of its outputs. The union comes last, and only there do the options matter.
-/

namespace SchemaTypes.Api

open Build

/-- What a computation does to the state: it discovers paths and adds declarations, and it leaves behind a
scratch area and counts of ids. -/
structure Change where
  paths : List (List Text)
  scratch : Scratch
  entries : List OperationEntry
  ids : List (Text × Nat)

/-- One change after another. -/
def Change.next (first second : Change) : Change :=
  ⟨first.paths ++ second.paths, second.scratch, first.entries ++ second.entries, second.ids⟩

/-- The state after a change. -/
def State.after (state : State) (change : Change) : State :=
  ⟨state.discovery.addAll change.paths, change.scratch, state.entries ++ change.entries, change.ids⟩

/-- Two changes are made one after the other. -/
theorem State.after_next (state : State) (first second : Change) :
    (state.after first).after second = state.after (first.next second) := by
  simp only [after, Change.next, Discovery.addAll_append, List.append_assoc]

/-- Every path that a change discovers can be written, and every declaration that it adds is of a kind. -/
structure Change.Adds (kind : OperationEntry → Prop) (change : Change) : Prop where
  proper : ∀ path ∈ change.paths, Pointer.Proper path
  entries : ∀ entry ∈ change.entries, kind entry

/-- A computation that has the same result and makes the same change from all states with the same scratch
area and the same counts of ids. -/
def Oblivious {α : Type} (kind : OperationEntry → Prop) (action : Compile α) : Prop :=
  ∀ state a final, action.run state = .ok (a, final) → ∃ change : Change, change.Adds kind ∧
    ∀ other : State, other.scratch = state.scratch → other.ids = state.ids →
      action.run other = .ok (a, other.after change)

namespace Oblivious

variable {α β : Type} {kind : OperationEntry → Prop}

/-- The state at the end is that after the change. -/
theorem final_eq {action : Compile α} {state final : State} {a : α} {change : Change}
    (hrun : action.run state = .ok (a, final))
    (hchange : ∀ other : State, other.scratch = state.scratch → other.ids = state.ids →
      action.run other = .ok (a, other.after change)) : final = state.after change :=
  congrArg Prod.snd (Except.ok.inj (hrun.symm.trans (hchange state rfl rfl)))

/-- A result without a change. -/
theorem of_run {action : Compile α}
    (h : ∀ state a final, action.run state = .ok (a, final) →
      ∀ other : State, other.scratch = state.scratch → other.ids = state.ids →
        action.run other = .ok (a, other)) : Oblivious kind action := by
  intro state a final hrun
  refine ⟨⟨[], state.scratch, [], state.ids⟩, ⟨List.forall_mem_nil _, List.forall_mem_nil _⟩, ?_⟩
  intro other hscratch hids
  rw [h state a final hrun other hscratch hids, ← hscratch, ← hids]
  simp only [State.after, Discovery.addAll_nil, List.append_nil]

/-- A finished computation changes nothing. -/
theorem pure (a : α) : Oblivious kind (Pure.pure a : Compile α) := by
  refine of_run fun state b final hrun other _ _ => ?_
  cases hrun
  rfl

/-- A fault changes nothing. -/
theorem throw (fault : Fault) : Oblivious kind (MonadExcept.throw fault : Compile α) := by
  refine of_run fun state a final hrun => ?_
  cases hrun

/-- A result from elsewhere changes nothing. -/
theorem lift (result : Except Fault α) : Oblivious kind (liftM result : Compile α) := by
  refine of_run fun state a final hrun other _ _ => ?_
  cases result with
  | error fault => cases hrun
  | ok b =>
    cases hrun
    rfl

/-- The changes of a sequence are made one after the other. The second computation matters for results
of the first one alone. -/
theorem bind {first : Compile α} {second : α → Compile β} (hfirst : Oblivious kind first)
    (hsecond : ∀ a, (∃ state final, first.run state = .ok (a, final)) → Oblivious kind (second a)) :
    Oblivious kind (first >>= second) := by
  intro state b final hrun
  rw [StateT.run_bind] at hrun
  cases hmiddle : first.run state with
  | error fault =>
    rw [hmiddle] at hrun
    cases hrun
  | ok outcome =>
    obtain ⟨a, middle⟩ := outcome
    rw [hmiddle] at hrun
    obtain ⟨change, hadds, hchange⟩ := hfirst state a middle hmiddle
    obtain ⟨further, hadds', hfurther⟩ := hsecond a ⟨state, middle, hmiddle⟩ middle b final hrun
    refine ⟨change.next further, ⟨List.forall_mem_append.mpr ⟨hadds.proper, hadds'.proper⟩,
      List.forall_mem_append.mpr ⟨hadds.entries, hadds'.entries⟩⟩, fun other hscratch hids => ?_⟩
    rw [final_eq hmiddle hchange] at hfurther
    rw [StateT.run_bind, hchange other hscratch hids, ← State.after_next]
    exact hfurther (other.after change) rfl rfl

/-- Finishing with a value made from the result changes nothing more. -/
theorem map {action : Compile α} (h : Oblivious kind action) (f : α → β) :
    Oblivious kind (action >>= fun a => Pure.pure (f a)) :=
  h.bind fun a _ => pure (f a)

/-- The state may be read if only the scratch area and the counts of ids matter. -/
theorem get_bind {second : State → Compile α}
    (hreads : ∀ state other : State, other.scratch = state.scratch → other.ids = state.ids →
      second other = second state)
    (h : ∀ state, Oblivious kind (second state)) : Oblivious kind (get >>= second) := by
  intro state a final hrun
  obtain ⟨change, hadds, hchange⟩ := h state state a final hrun
  refine ⟨change, hadds, fun other hscratch hids => ?_⟩
  change (second other).run other = _
  rw [hreads state other hscratch hids]
  exact hchange other hscratch hids

/-- The scratch area and the counts of ids may be changed if nothing else matters or changes. -/
theorem modify {f : State → State}
    (hf : ∀ state other : State, other.scratch = state.scratch → other.ids = state.ids →
      f other = { other with scratch := (f state).scratch, ids := (f state).ids }) :
    Oblivious kind (modify f) := by
  intro state a final hrun
  refine ⟨⟨[], (f state).scratch, [], (f state).ids⟩,
    ⟨List.forall_mem_nil _, List.forall_mem_nil _⟩, fun other hscratch hids => ?_⟩
  change Except.ok ((), f other) = _
  rw [hf state other hscratch hids, State.after, Discovery.addAll_nil, List.append_nil]

/-- Building discovers the paths that it visits. -/
theorem build {action : Option Text → Build α} {paths : List (List Text)}
    (hexplores : Explores action paths) (hproper : ∀ path ∈ paths, Pointer.Proper path)
    (place : Option Text) : Oblivious kind (Api.build (action place)) := by
  intro state a final hrun
  obtain ⟨d, hbuild, -⟩ := Ends.build (action place) a final hrun
  refine ⟨⟨paths, state.scratch, [], state.ids⟩, ⟨hproper, List.forall_mem_nil _⟩, ?_⟩
  intro other hscratch hids
  have hother := hexplores.run_of_ok hbuild place other.discovery
  rw [← hscratch, ← hids]
  simp only [Api.build, StateT.run, hother, State.after, List.append_nil]

/-- A declaration of the kind may be added. -/
theorem addEntry {operation : Operation} {parts : List Text} {declaration : Declaration}
    (h : kind ⟨operation.id, parts, declaration⟩) :
    Oblivious kind (Api.addEntry operation parts declaration) := by
  intro state a final hrun
  refine ⟨⟨[], state.scratch, [⟨operation.id, parts, declaration⟩], state.ids⟩,
    ⟨List.forall_mem_nil _, List.forall_mem_singleton.mpr h⟩, ?_⟩
  intro other hscratch hids
  rw [← hscratch, ← hids]
  simp only [State.after, Discovery.addAll_nil]
  rfl

/-- The changes for the items of a list are made one after the other. -/
theorem mapM {γ : Type} {f : γ → Compile α} (h : ∀ item, Oblivious kind (f item)) (items : List γ) :
    Oblivious kind (items.mapM f) := by
  induction items with
  | nil => exact pure []
  | cons item rest ih =>
    rw [List.mapM_cons]
    exact (h item).bind fun a _ => ih.map (List.cons a)

/-- A computation that neither puts schemas aside nor declares anything discovers paths and changes
nothing else. -/
theorem discovers {naming : Naming} {action : Compile α} (h : Oblivious (fun _ => False) action)
    (hemits : ∀ state, Ends state action fun _ final => Emits naming [] [] state final)
    {state final : State} {a : α} (hrun : action.run state = .ok (a, final)) :
    ∃ paths : List (List Text), (∀ path ∈ paths, Pointer.Proper path) ∧
      ∀ other : State, other.scratch = state.scratch → other.ids = state.ids →
        action.run other = .ok (a, { other with discovery := other.discovery.addAll paths }) := by
  obtain ⟨change, hadds, hchange⟩ := h state a final hrun
  refine ⟨change.paths, hadds.proper, fun other hscratch hids => ?_⟩
  have hother := hchange other hscratch hids
  have hkept := hemits other a _ hother
  have hentries : change.entries = [] := List.eq_nil_iff_forall_not_mem.mpr hadds.entries
  have hscratch' : change.scratch = other.scratch := hkept.scratch_eq
  have hids' : change.ids = other.ids := hkept.ids_eq
  rw [hother, State.after, hentries, hscratch', hids', List.append_nil]

/-- Declarations of a kind are declarations of every more general kind. -/
theorem mono {action : Compile α} {general : OperationEntry → Prop} (h : Oblivious kind action)
    (himp : ∀ entry, kind entry → general entry) : Oblivious general action := by
  intro state a final hrun
  obtain ⟨change, hadds, hchange⟩ := h state a final hrun
  exact ⟨change, ⟨hadds.proper, fun entry hentry => himp entry (hadds.entries entry hentry)⟩, hchange⟩

end Oblivious

/-- How the declarations of the walk come about. -/
inductive Produced (setting : Setting) : OperationEntry → Prop where
  | declared {operation : Operation} {parts : List Text} {schema : Value} {d d' : Discovery}
      {declaration : Declaration} :
      parts ≠ [("Output" : Text)] →
      (Schema.declare (setting.scope operation) schema (.text (parts.getLastD "")) false).run d =
        (.ok declaration, d') →
      Produced setting ⟨operation.id, parts, declaration⟩
  | input {operation : Operation} {inputs : List Input} {type : TypeExpr} :
      inputType setting operation inputs = .ok type →
      Produced setting ⟨operation.id, ["Input"], ⟨.text "Input", type, true⟩⟩
  | output {operation : Operation} {responses : List Response} {before after : State}
      {type : TypeExpr} :
      (outputType setting operation responses).run before = .ok (type, after) →
      Produced setting ⟨operation.id, ["Output"], ⟨.text "Output", type, true⟩⟩

/-- The request body of an operation is named as such. -/
theorem Produced.name_of_body {setting : Setting} {entry : OperationEntry} (h : Produced setting entry)
    (hparts : entry.parts = [("Body" : Text)]) :
    entry.declaration.name = .text (setting.naming.ofText "Body") := by
  cases h with
  | @declared operation parts schema d d' declaration _ hrun =>
    have hidentify := Schema.declare_named _ _ _ _ d declaration d' hrun
    change parts = _ at hparts
    rw [hparts] at hidentify
    exact (Except.ok.inj hidentify).symm
  | input _ => simp at hparts
  | output _ => simp at hparts

/-- The declarations of the walk other than outputs. -/
def Plain (setting : Setting) (entry : OperationEntry) : Prop :=
  Produced setting entry ∧ entry.parts ≠ [("Output" : Text)]

variable (setting : Setting) (operation : Operation)

/-- Following references changes nothing. -/
theorem resolveChain_oblivious {kind : OperationEntry → Prop} (place : Text) (value : Value) :
    Oblivious kind (resolveChain setting place value) := by
  refine Oblivious.get_bind (fun state other hscratch _ => ?_) fun state => Oblivious.lift _
  rw [hscratch]

/-- Declaring a schema adds its declaration. -/
theorem declare_oblivious {parts : List Text} (hparts : parts ≠ [("Output" : Text)]) (schema : Value) :
    Oblivious (Plain setting) (declare setting operation parts schema) := by
  have hexplores := Schema.declare_explores (setting.scope operation) schema
    (.text (parts.getLastD "")) false
  refine (Oblivious.build hexplores (fun path hpath => Schema.proper_of_mem_references hpath)
    (some operation.place)).bind ?_
  rintro declaration ⟨state, final, hrun⟩
  obtain ⟨d, hbuild, -⟩ := Ends.build _ declaration final hrun
  exact Oblivious.addEntry ⟨.declared hparts hbuild, hparts⟩

/-- Compiling a request body looks at nothing but the scratch area. -/
theorem compileBody_oblivious (requestBody : Value) :
    Oblivious (Plain setting) (compileBody setting operation requestBody) := by
  rw [compileBody]
  split_ifs
  · exact Oblivious.pure none
  · refine (resolveChain_oblivious setting operation.place requestBody).bind fun result _ => ?_
    split
    · split
      · exact Oblivious.pure none
      · refine (Oblivious.modify fun state other hscratch hids => ?_).bind fun _ _ => ?_
        · rw [hscratch, ← hids]
        · exact (declare_oblivious setting operation (by decide) _).map _
    · exact Oblivious.pure none

/-- Compiling a parameter looks at nothing but the scratch area. -/
theorem declareParameter_oblivious (p : Parameter) :
    Oblivious (Plain setting) (declareParameter setting operation p) := by
  have hplain (schema : Value) := declare_oblivious setting operation
    (show [("Parameters" : Text), p.name] ≠ [("Output" : Text)] by simp) schema
  rw [declareParameter]
  cases p.ref with
  | none => exact (hplain _).map _
  | some ref =>
    dsimp only
    split_ifs
    · exact (hplain _).map _
    · cases (Pointer.split ref).getLast? with
      | none => exact Oblivious.throw _
      | some key =>
        refine (Oblivious.modify fun state other hscratch hids => ?_).bind fun _ _ => (hplain _).map _
        rw [hscratch, ← hids]

/-- Compiling parameters looks at nothing but the scratch area. -/
theorem compileParameters_oblivious (shared own : Value) :
    Oblivious (Plain setting) (compileParameters setting operation shared own) := by
  refine (Oblivious.lift _).bind fun first _ => (Oblivious.lift _).bind fun rest _ => ?_
  refine (Oblivious.mapM (resolveChain_oblivious setting operation.place) _).bind fun resolved _ => ?_
  exact Oblivious.mapM (declareParameter_oblivious setting operation) _

/-- Reading the headers of a response looks at nothing but the scratch area. -/
theorem compileHeaders_oblivious (headers : Value) :
    Oblivious (Plain setting) (compileHeaders setting operation headers) := by
  rw [compileHeaders.eq_def]
  split
  · refine (Oblivious.mapM (fun member => ?_) _).map _
    exact (resolveChain_oblivious setting operation.place member.2).map _
  · exact Oblivious.pure []

/-- Compiling a response looks at nothing but the scratch area. -/
theorem compileResponse_oblivious (status : Text) (value : Value) :
    Oblivious (Plain setting) (compileResponse setting operation status value) := by
  refine (resolveChain_oblivious setting operation.place value).bind fun result _ => ?_
  split
  · split
    · exact Oblivious.pure none
    · refine (Oblivious.modify fun state other hscratch hids => ?_).bind fun _ _ => ?_
      · rw [hscratch, ← hids]
      · refine (compileHeaders_oblivious setting operation _).bind fun headers _ => ?_
        exact (declare_oblivious setting operation (by simp [Response.parts]) _).map _
  · exact Oblivious.pure none

/-- Compiling responses looks at nothing but the scratch area. -/
theorem compileResponses_oblivious (responses : Value) :
    Oblivious (Plain setting) (compileResponses setting operation responses) := by
  rw [compileResponses.eq_def]
  split
  · exact (Oblivious.mapM (fun member : Scalar × Value =>
      compileResponse_oblivious setting operation member.1.display member.2) _).map _
  · exact Oblivious.pure []

/-- The variant of a response looks at nothing. -/
theorem variant_oblivious {kind : OperationEntry → Prop} (response : Response) :
    Oblivious kind (variant setting operation response) := by
  have hbuild (schema : Value) : Oblivious kind (build (Schema.types (setting.scope operation) schema)) :=
    Oblivious.build (Schema.types_explores (setting.scope operation) schema)
      (fun path hpath => Schema.proper_of_mem_references hpath) (some operation.place)
  refine (Oblivious.lift _).bind fun statusSchema _ => (Oblivious.lift _).bind fun headersSchema _ => ?_
  refine (hbuild statusSchema).bind fun status _ => (hbuild headersSchema).bind fun headers _ => ?_
  exact (Oblivious.lift _).map _

/-- The variants of responses look at nothing. -/
theorem variants_oblivious {kind : OperationEntry → Prop} (responses : List Response) :
    Oblivious kind (variants setting operation responses) := by
  induction responses with
  | nil => exact Oblivious.pure []
  | cons response rest ih =>
    refine (Oblivious.lift _).bind fun included _ => ?_
    split_ifs
    · exact (variant_oblivious setting operation response).bind fun first _ => ih.map _
    · exact ih

/-- The output of an operation looks at nothing. -/
theorem outputType_oblivious {kind : OperationEntry → Prop} (responses : List Response) :
    Oblivious kind (outputType setting operation responses) := by
  refine (variants_oblivious setting operation responses).bind fun ts _ => ?_
  cases ts with
  | nil => exact Oblivious.pure _
  | cons t rest => exact Oblivious.pure _

namespace OperationSource

/-- Declare an operation up to its output: its parts and the record of its inputs. -/
def prepare (source : OperationSource) : Compile (Operation × List Response) := do
  let (id, ids) := uniqueId source.requestedId (← get).ids
  modify fun state => { state with ids }
  let operation := source.under id
  let body ← compileBody setting operation (source.members.fieldOrNull "requestBody")
  let parameters ← compileParameters setting operation
    (source.pathItem.fieldOrNull "parameters") (source.members.fieldOrNull "parameters")
  let responses ← compileResponses setting operation
    ((source.members.fieldOrNull "responses").orElse (.object []))
  let input ← inputType setting operation (body.toList ++ parameters)
  addEntry operation ["Input"] ⟨.text "Input", input, true⟩
  return (operation, responses)

/-- Declare the output of an operation. -/
def conclude (operation : Operation) (responses : List Response) : Compile Unit := do
  let output ← outputType setting operation responses
  addEntry operation ["Output"] ⟨.text "Output", output, true⟩

/-- An operation is prepared, then its output is declared. -/
theorem compile_eq (source : OperationSource) :
    source.compile setting =
      source.prepare setting >>= fun prepared => conclude setting prepared.1 prepared.2 := by
  simp only [OperationSource.compile, compileOperation, prepare, conclude, bind_assoc, pure_bind]
  rfl

/-- Preparing an operation looks at nothing but the scratch area and the counts of ids. -/
theorem prepare_oblivious (source : OperationSource) :
    Oblivious (Plain setting) (source.prepare setting) := by
  refine Oblivious.get_bind (fun state other _ hids => by rw [hids]) fun state => ?_
  refine (Oblivious.modify fun state other hscratch _ => by rw [← hscratch]).bind fun _ _ => ?_
  refine (compileBody_oblivious setting _ _).bind fun body _ => ?_
  refine (compileParameters_oblivious setting _ _ _).bind fun parameters _ => ?_
  refine (compileResponses_oblivious setting _ _).bind fun responses _ => ?_
  refine (Oblivious.lift _).bind ?_
  rintro input ⟨before, final, hinput⟩
  have htype := (Ends.lift _ input final hinput).2
  exact (Oblivious.addEntry ⟨.input htype, by simp⟩).map _

/-- Declaring the output of an operation looks at nothing. -/
theorem conclude_oblivious (operation : Operation) (responses : List Response) :
    Oblivious (Produced setting) (conclude setting operation responses) := by
  refine (outputType_oblivious setting operation responses).bind ?_
  rintro output ⟨before, after, houtput⟩
  exact Oblivious.addEntry (.output houtput)

/-- Compiling an operation looks at nothing but the scratch area and the counts of ids. -/
theorem compile_oblivious (source : OperationSource) :
    Oblivious (Produced setting) (source.compile setting) := by
  rw [compile_eq]
  exact ((prepare_oblivious setting source).mono fun _ h => h.1).bind fun prepared _ =>
    conclude_oblivious setting prepared.1 prepared.2

end OperationSource

/-- Compiling several operations looks at nothing but the scratch area and the counts of ids. -/
theorem sources_oblivious (operations : List OperationSource) :
    Oblivious (Produced setting) (forM operations (OperationSource.compile setting)) := by
  induction operations with
  | nil => exact Oblivious.pure ()
  | cons source rest ih =>
    rw [List.forM_cons]
    exact (source.compile_oblivious setting).bind fun _ _ => ih

/-- Discovering component schemas looks at nothing. -/
theorem discoverSchemas_oblivious {kind : OperationEntry → Prop} (names : List Value) :
    Oblivious kind (discoverSchemas setting names) := by
  fun_induction discoverSchemas setting names with
  | case1 => exact Oblivious.pure ()
  | case2 name rest ref ih =>
    refine (Oblivious.build (Schema.register_explores setting.outerScope _) (fun path hpath => ?_)
      none).bind fun _ _ => ih
    exact Value.proper_of_mem_addressedPath (Schema.visitedPath_subset _ hpath)
  | case3 => exact Oblivious.throw _

/-- Discover all component schemas of a document. -/
def discoverComponents : Compile Unit := do
  discoverSchemas setting (← Fault.ofMalformed (schemaNames setting.overlay.document))

/-- The walk declares the operations of a document, then discovers component schemas on demand. -/
theorem walk_eq :
    walk setting = liftM (paths setting.overlay.document) >>= fun members =>
      forM (sources members) (OperationSource.compile setting) >>= fun _ =>
        if setting.options.unused then discoverComponents setting else pure () := by
  rw [walk]
  congr
  funext members
  rw [compilePaths_eq]
  rfl

/-- A walk that ends has declared all operations first. -/
theorem run_walk_eq_ok {state final : State} :
    (walk setting).run state = .ok ((), final) ↔
      ∃ members middle, paths setting.overlay.document = .ok members ∧
        (forM (sources members) (OperationSource.compile setting)).run state = .ok ((), middle) ∧
        (if setting.options.unused then discoverComponents setting else pure ()).run middle =
          .ok ((), final) := by
  rw [walk_eq]
  cases paths setting.overlay.document with
  | error fault =>
    apply iff_of_false
    · intro h
      cases h
    · rintro ⟨members, middle, h, -⟩
      cases h
  | ok members =>
    change (forM (sources members) _ >>= fun _ => _ : Compile Unit).run state = _ ↔ _
    rw [StateT.run_bind]
    constructor
    · intro h
      obtain ⟨⟨⟨⟩, middle⟩, hsources, hrest⟩ := Faulting.bind_eq_ok h
      exact ⟨members, middle, rfl, hsources, hrest⟩
    · rintro ⟨_, middle, ⟨⟩, hsources, hrest⟩
      rw [hsources]
      exact hrest

/-- Discovering all component schemas looks at nothing. -/
theorem discoverComponents_oblivious {kind : OperationEntry → Prop} :
    Oblivious kind (discoverComponents setting) :=
  (Oblivious.lift _).bind fun names _ => discoverSchemas_oblivious setting names

/-- Discovering all component schemas puts nothing aside and declares nothing. -/
theorem discoverComponents_emits (state : State) :
    Ends state (discoverComponents setting) fun _ final => Emits setting.naming [] [] state final := by
  refine Ends.bind (Ends.lift _) ?_
  rintro names _ ⟨rfl, -⟩
  exact discoverSchemas_emits setting names _

/-- The walk looks at nothing but the scratch area and the counts of ids. -/
theorem walk_oblivious : Oblivious (Produced setting) (walk setting) := by
  rw [walk_eq]
  refine (Oblivious.lift _).bind fun members _ => (sources_oblivious setting _).bind fun _ _ => ?_
  split_ifs
  · exact discoverComponents_oblivious setting
  · exact Oblivious.pure ()

end SchemaTypes.Api
