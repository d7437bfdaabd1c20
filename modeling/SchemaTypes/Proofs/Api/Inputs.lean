import SchemaTypes.Proofs.BreadthFirst
import SchemaTypes.Proofs.Api.Turns

/-!
# What operations take

An operation takes a request body and parameters. Both may be given by references, and the parameters are
listed for the whole path and once more for the operation. They are merged under their names and locations:
one that is listed again replaces the earlier one in its place.

The walk goes over the inputs three times. It puts their schemas aside, it declares them, and it makes the
record of inputs from what it has found. The three agree: the record has one field for each argument of the
operation in its turn, and the declaration that the field refers to is among those of the operation.

The fields are named in camel case, which does not keep apart all that is merged under different names and
locations, nor a parameter from the request body.
-/

namespace SchemaTypes.Api

open Faulting BreadthFirst

namespace Parameter

/-- What tells parameters apart. -/
def key (p : Parameter) : Text × Text := (p.name, p.location)

/-- The last of several parameters that has a key. -/
def lastWith? (key : Text × Text) (parameters : List Parameter) : Option Parameter :=
  (parameters.filter fun p => p.key = key).getLast?

/-- One parameter for each key, in the order in which the keys first occur. Of several parameters with one
key it is the last. -/
def latest (parameters : List Parameter) : List Parameter :=
  (parameters.map key).eraseDups.filterMap fun key => lastWith? key parameters

/-- A parameter that comes last is the last one with its key. -/
theorem lastWith?_concat (key : Text × Text) (parameters : List Parameter) (p : Parameter) :
    lastWith? key (parameters ++ [p]) = if p.key = key then some p else lastWith? key parameters := by
  by_cases h : p.key = key <;> simp [lastWith?, h]

/-- Adding a parameter adds its key at the end unless it is there. -/
theorem map_key_insert (p : Parameter) (all : List Parameter) :
    (p.insert all).map key = if p.key ∈ all.map key then all.map key else all.map key ++ [p.key] := by
  induction all with
  | nil => rfl
  | cons q rest ih =>
    rw [insert]
    by_cases h : p.name = q.name ∧ p.location = q.location
    · have hkey : p.key = q.key := Prod.ext h.1 h.2
      simp [if_pos h, hkey]
    · have hkey : p.key ≠ q.key := fun heq => h ⟨congrArg Prod.fst heq, congrArg Prod.snd heq⟩
      rw [if_neg h, List.map_cons, ih]
      by_cases hmem : p.key ∈ rest.map key
      · rw [if_pos hmem, List.map_cons, if_pos (List.mem_cons_of_mem _ hmem)]
      · have hfresh : p.key ∉ q.key :: rest.map key := List.not_mem_cons_of_ne_of_not_mem hkey hmem
        rw [if_neg hmem, List.map_cons, if_neg hfresh, List.cons_append]

/-- Parameters with different keys stay as they are when one is added, except for the one with its key. -/
theorem mem_insert {p q : Parameter} {all : List Parameter} (hall : (all.map key).Nodup)
    (h : q ∈ p.insert all) : q = p ∨ q ∈ all ∧ p.key ≠ q.key := by
  induction all with
  | nil => exact Or.inl (List.mem_singleton.mp h)
  | cons first rest ih =>
    obtain ⟨hfresh, hrest⟩ := List.nodup_cons.mp hall
    rw [insert] at h
    split_ifs at h with hsame
    · have hkey : p.key = first.key := Prod.ext hsame.1 hsame.2
      rcases List.mem_cons.mp h with rfl | hq
      · exact Or.inl rfl
      · refine Or.inr ⟨List.mem_cons_of_mem _ hq, fun heq => hfresh ?_⟩
        rw [← hkey, heq]
        exact List.mem_map_of_mem hq
    · rcases List.mem_cons.mp h with rfl | hq
      · exact Or.inr ⟨List.mem_cons_self, fun heq =>
          hsame ⟨congrArg Prod.fst heq, congrArg Prod.snd heq⟩⟩
      · exact (ih hrest hq).imp_right fun hq => ⟨List.mem_cons_of_mem _ hq.1, hq.2⟩

/-- Parameters merged one after the other. -/
def merged (parameters : List Parameter) : List Parameter :=
  parameters.foldl (fun all p => p.insert all) []

/-- The parameter that comes last is merged last. -/
theorem merged_concat (parameters : List Parameter) (p : Parameter) :
    merged (parameters ++ [p]) = p.insert (merged parameters) := by
  rw [merged, List.foldl_concat, ← merged]

/-- The keys of merged parameters are those of all, each where it first occurs. -/
theorem map_key_merged (parameters : List Parameter) :
    (merged parameters).map key = (parameters.map key).eraseDups := by
  induction parameters using List.reverseRecOn with
  | nil => rfl
  | append_singleton parameters p ih =>
    rw [merged_concat, map_key_insert, ih, List.map_append, List.map_singleton, eraseDups_concat]
    simp only [List.mem_eraseDups]

/-- Each merged parameter is the last one with its key. -/
theorem lastWith?_of_mem_merged {parameters : List Parameter} {p : Parameter}
    (h : p ∈ merged parameters) : lastWith? p.key parameters = some p := by
  induction parameters using List.reverseRecOn with
  | nil => cases h
  | append_singleton parameters last ih =>
    have hkeys : ((merged parameters).map key).Nodup := map_key_merged parameters ▸ eraseDups_nodup _
    rw [merged_concat] at h
    rw [lastWith?_concat]
    rcases mem_insert hkeys h with rfl | ⟨hp, hkey⟩
    · rw [if_pos rfl]
    · rw [if_neg hkey, ih hp]

/-- Merging leaves the last parameter of each key, where the key first occurs. -/
theorem merged_eq_latest (parameters : List Parameter) : merged parameters = latest parameters := by
  rw [latest, ← map_key_merged, List.filterMap_map]
  exact (List.filterMap_some.symm.trans
    (List.filterMap_congr fun p hp => (lastWith?_of_mem_merged hp).symm))

end Parameter

/-- Parameters are merged under their names and locations. -/
theorem mergeParameters_eq (values : List (Value × Option Text)) :
    mergeParameters values = Parameter.latest (values.filterMap Parameter.of?) :=
  Parameter.merged_eq_latest _

/-- Something that an operation takes, with all references followed. -/
inductive Argument where
  | body (members : Members)
  | parameter (p : Parameter)

namespace Argument

/-- The name of the argument in the document; that of a body is made up. -/
def name : Argument → Text
  | body _ => "body"
  | parameter p => p.name

/-- The parts that name its declaration. -/
def parts : Argument → List Text
  | body _ => ["Body"]
  | parameter p => ["Parameters", p.name]

/-- The members that describe it. -/
def members : Argument → Members
  | body members => members
  | parameter p => p.members

/-- Whether it must be given. -/
def required (a : Argument) : Bool := (a.members.fieldOrNull "required").isPresent

/-- The argument as an input of the operation. -/
def input (a : Argument) : Input := ⟨a.name, a.parts, a.required⟩

/-- The schemas put aside for it: all of a body, and that of a parameter which is shared. -/
def emissions (operation : Operation) : Argument → List Emission
  | body members => [.body operation.id (mediaSchemas (members.fieldOrNull "content"))]
  | parameter p => parameterEmissions operation p

/-- The declaration of an argument: made from the schemas put aside for it, and directly from the schema of
a parameter if none is. -/
structure DeclaredBy (setting : Setting) (operation : Operation) (a : Argument) (entry : OperationEntry) :
    Prop where
  operation_eq : entry.operation = operation.id
  parts_eq : entry.parts = a.parts
  putAside : ∀ e ∈ a.emissions operation, e.DeclaredBy setting.naming entry
  direct : ∀ p, a = parameter p → a.emissions operation = [] → ∃ d d',
    (Schema.declare (setting.scope operation) p.schema (.text p.name) false).run d =
      (.ok entry.declaration, d')

/-- The field of an argument: named in camel case and typed by the name of its declaration. -/
def HasField (setting : Setting) (operation : Operation) (a : Argument) (field : Field TypeExpr) : Prop :=
  ∃ names, setting.naming.applyAll (setting.segments operation a.parts) = .ok names ∧
    field = ⟨.text (Name.camelCase a.name), .reference names, a.required, true⟩

end Argument

/-- The request body as an argument, if it is an object with a schema. -/
def bodyArguments : Value → List Argument
  | .object members =>
    if (mediaSchemas (Members.fieldOrNull "content" members)).isEmpty then [] else [.body members]
  | _ => []

/-- What is put aside for a request body is put aside for it as an argument. -/
theorem flatMap_emissions_bodyArguments (operation : Operation) (requestBody : Value) :
    (bodyArguments requestBody).flatMap (Argument.emissions operation) =
      emitting (.body operation.id) (contentSchemas requestBody) := by
  cases requestBody with
  | object members =>
    rw [bodyArguments, contentSchemas]
    cases hschemas : mediaSchemas (Members.fieldOrNull "content" members) with
    | nil => rfl
    | cons first rest => exact congrArg (fun schemas => [Emission.body operation.id schemas]) hschemas
  | _ => rfl

namespace Turn

/-- The request body of an operation as it is given. -/
def bodySource (turn : Turn) : Value := turn.source.members.fieldOrNull "requestBody"

/-- The list of the parameters of its path. -/
def sharedSource (turn : Turn) : Value := turn.source.pathItem.fieldOrNull "parameters"

/-- The list of its own parameters. -/
def ownSource (turn : Turn) : Value := turn.source.members.fieldOrNull "parameters"

/-- The parameters of an operation as they are given, those of its path first. -/
def parameterSources (turn : Turn) : List Value :=
  listedValues turn.sharedSource ++ listedValues turn.ownSource

/-- The request body of an operation, with references followed. -/
def requestBody (setting : Setting) (turn : Turn) : Value :=
  (resolved (setting.overlay.value turn.scratch) turn.operation turn.bodySource).1

/-- What is put aside once the request body has been compiled. -/
def afterBody (setting : Setting) (turn : Turn) : Scratch :=
  storeAll (bodyEmissions (setting.overlay.value turn.scratch) turn.operation turn.bodySource) turn.scratch

/-- The parameters of an operation, with references followed. -/
def parameters (setting : Setting) (turn : Turn) : List Parameter :=
  (turn.parameterSources.map
    (resolved (setting.overlay.value (turn.afterBody setting)) turn.operation)).filterMap Parameter.of?

/-- What an operation takes: its request body, then its parameters. -/
def arguments (setting : Setting) (turn : Turn) : List Argument :=
  bodyArguments (turn.requestBody setting) ++
    (Parameter.latest (turn.parameters setting)).map Argument.parameter

end Turn

/-- Between two states some arguments were declared, and they were returned as inputs. -/
structure Accepted (setting : Setting) (operation : Operation) (arguments : List Argument)
    (inputs : List Input) (before after : State) : Prop where
  inputs_eq : inputs = arguments.map Argument.input
  entries : ∃ given, after.entries = before.entries ++ given ∧
    List.Forall₂ (Argument.DeclaredBy setting operation) arguments given

namespace Accepted

variable {setting : Setting} {operation : Operation}

/-- Nothing was declared and returned. -/
theorem nil (state : State) : Accepted setting operation [] [] state state :=
  ⟨rfl, [], (List.append_nil _).symm, .nil⟩

/-- Arguments are declared and returned one after the other. -/
theorem append {arguments others : List Argument} {inputs further : List Input}
    {first second third : State} (hfirst : Accepted setting operation arguments inputs first second)
    (hsecond : Accepted setting operation others further second third) :
    Accepted setting operation (arguments ++ others) (inputs ++ further) first third := by
  obtain ⟨given, hgiven, hdeclared⟩ := hfirst.entries
  obtain ⟨given', hgiven', hdeclared'⟩ := hsecond.entries
  refine ⟨by rw [hfirst.inputs_eq, hsecond.inputs_eq, List.map_append], given ++ given', ?_,
    List.rel_append hdeclared hdeclared'⟩
  rw [hgiven', hgiven, List.append_assoc]

/-- One argument was declared from what was put aside for it, or directly. -/
theorem single (a : Argument) {emitted : List Emission} {entry : OperationEntry} {before after : State}
    (hentries : after.entries = before.entries ++ [entry]) (hoperation : entry.operation = operation.id)
    (hparts : entry.parts = a.parts) (hemits : Emits setting.naming [] emitted before after)
    (hemitted : a.emissions operation = emitted)
    (hdirect : ∀ p, a = .parameter p → a.emissions operation = [] → ∃ d d',
      (Schema.declare (setting.scope operation) p.schema (.text p.name) false).run d =
        (.ok entry.declaration, d')) :
    Accepted setting operation [a] [a.input] before after := by
  refine ⟨rfl, [entry], hentries, .cons ⟨hoperation, hparts, fun e he => ?_, hdirect⟩ .nil⟩
  obtain ⟨added, hadded, -, hdeclared⟩ := hemits.entries
  obtain ⟨other, hother, hdeclares⟩ := hdeclared e (hemitted ▸ he)
  rw [hentries] at hadded
  rw [← List.append_cancel_left hadded, List.mem_singleton] at hother
  exact hother ▸ hdeclares

end Accepted

variable (setting : Setting) (operation : Operation)

/-- A chain of references that is met in an operation leads to a value. -/
def Follows (overlay : Value) (operation : Operation) (value : Value) : Prop :=
  dereference overlay (some operation.place) value = .ok (resolved overlay operation value)

/-- A chain of references that is followed leads to a value. -/
theorem resolveChain_follows (value : Value) (state : State) :
    Ends state (resolveChain setting operation.place value) fun result final =>
      (final = state ∧ result = resolved (setting.overlay.value state.scratch) operation value) ∧
        Follows (setting.overlay.value state.scratch) operation value := by
  refine (resolveChain_ends setting operation value state).and (Ends.get_bind ((Ends.lift _).weaken ?_))
  rintro result final ⟨-, hresult⟩
  rw [Follows, resolved, hresult]
  rfl

/-- Several chains that are followed lead to values. -/
theorem resolveChains_follow (values : List Value) (state : State) :
    Ends state (values.mapM (resolveChain setting operation.place)) fun results final =>
      (final = state ∧ results = values.map (resolved (setting.overlay.value state.scratch) operation)) ∧
        ∀ value ∈ values, Follows (setting.overlay.value state.scratch) operation value := by
  refine (resolveChains_ends setting operation values state).and ?_
  induction values with
  | nil => exact Ends.pure (List.forall_mem_nil _)
  | cons value rest ih =>
    rw [List.mapM_cons]
    refine (resolveChain_follows setting operation value state).bind ?_
    rintro _ _ ⟨⟨rfl, -⟩, hvalue⟩
    exact ih.bind fun _ _ hrest => Ends.pure (List.forall_mem_cons.mpr ⟨hvalue, hrest⟩)

/-- Declaring a schema adds one declaration, which is built from it. -/
theorem declare_ends (parts : List Text) (schema : Value) (state : State) :
    Ends state (declare setting operation parts schema) fun _ final => ∃ entry d,
      final.entries = state.entries ++ [entry] ∧ entry.operation = operation.id ∧ entry.parts = parts ∧
        (Schema.declare (setting.scope operation) schema (.text (parts.getLastD "")) false).run
          state.discovery = (.ok entry.declaration, d) := by
  refine Ends.bind (Ends.build _) ?_
  rintro declaration _ ⟨d, hrun, rfl⟩
  intro _ final hfinal
  cases hfinal
  exact ⟨⟨operation.id, parts, declaration⟩, d, rfl, rfl, rfl, hrun⟩

/-- A request body is reached, and it is declared and returned if it has a schema. -/
theorem compileBody_accepts (hid : operation.id ≠ "") (requestBody : Value) (state : State) :
    Ends state (compileBody setting operation requestBody) fun input final =>
      Follows (setting.overlay.value state.scratch) operation requestBody ∧
        Accepted setting operation
          (bodyArguments (resolved (setting.overlay.value state.scratch) operation requestBody).1)
          input.toList state final := by
  suffices h : Ends state (compileBody setting operation requestBody) fun input final =>
      Emits setting.naming [] (bodyEmissions (setting.overlay.value state.scratch) operation requestBody)
        state final → Follows (setting.overlay.value state.scratch) operation requestBody ∧
          Accepted setting operation
            (bodyArguments (resolved (setting.overlay.value state.scratch) operation requestBody).1)
            input.toList state final from
    (h.and (compileBody_emits setting hid requestBody state)).weaken fun _ _ h => h.1 h.2
  rw [compileBody]
  split_ifs with hnull
  · rw [Value.isNull.eq_def] at hnull
    split at hnull
    · exact Ends.pure fun _ => ⟨rfl, Accepted.nil state⟩
    · cases hnull
  · refine (resolveChain_follows setting operation requestBody state).bind ?_
    rintro result middle ⟨⟨hmiddle, hresult⟩, hfollows⟩
    rw [bodyEmissions, ← hresult, hmiddle]
    split
    · rename_i members hmembers
      rw [hmembers, contentSchemas, bodyArguments]
      cases hschemas : mediaSchemas (Members.fieldOrNull "content" members) with
      | nil => exact Ends.pure fun _ => ⟨hfollows, Accepted.nil state⟩
      | cons first rest =>
        refine Ends.bind (Ends.modify _) ?_
        rintro _ _ rfl
        refine (declare_ends setting operation _ _ _).bind ?_
        rintro _ final ⟨entry, d, hentries, hoperation, hparts, -⟩
        refine Ends.pure fun hemits => ⟨hfollows, Accepted.single (.body members) hentries hoperation hparts
          hemits ?_ (fun p hp => by cases hp)⟩
        rw [Argument.emissions, hschemas]
        rfl
    · rename_i hother
      rw [bodyArguments.eq_def]
      split
      · rename_i members hmembers
        exact absurd hmembers (hother members)
      · exact Ends.pure fun _ => ⟨hfollows, Accepted.nil state⟩

/-- A parameter is declared and returned. -/
theorem declareParameter_accepts (p : Parameter) (state : State) :
    Ends state (declareParameter setting operation p) fun input final =>
      Accepted setting operation [.parameter p] [input] state final := by
  suffices h : Ends state (declareParameter setting operation p) fun input final =>
      Emits setting.naming [] (parameterEmissions operation p) state final →
        Accepted setting operation [.parameter p] [input] state final from
    (h.and (declareParameter_emits setting operation p state)).weaken fun _ _ h => h.1 h.2
  have hplain : Ends state (declare setting operation ["Parameters", p.name] p.schema) fun _ final =>
      Emits setting.naming [] (parameterEmissions operation p) state final →
        Accepted setting operation [.parameter p] [(Argument.parameter p).input] state final := by
    refine (declare_ends setting operation _ _ _).weaken ?_
    rintro _ final ⟨entry, d, hentries, hoperation, hparts, hrun⟩ hemits
    refine Accepted.single (.parameter p) hentries hoperation hparts hemits rfl fun q hq _ => ?_
    cases hq
    exact ⟨_, d, hrun⟩
  rw [declareParameter]
  cases href : p.ref with
  | none => exact hplain.bind fun _ _ hfinal => Ends.pure hfinal
  | some ref =>
    dsimp only
    split_ifs with hreference
    · exact hplain.bind fun _ _ hfinal => Ends.pure hfinal
    · cases hlast : (Pointer.split ref).getLast? with
      | none => exact Ends.throw _
      | some key =>
        refine Ends.bind (Ends.modify _) ?_
        rintro _ _ rfl
        refine (declare_ends setting operation _ _ _).bind ?_
        rintro _ final ⟨entry, d, hentries, hoperation, hparts, -⟩
        refine Ends.pure fun hemits =>
          Accepted.single (.parameter p) hentries hoperation hparts hemits rfl ?_
        -- The schema of a shared parameter is put aside, so it is not declared directly.
        intro q hq hnone
        simp [Argument.emissions, parameterEmissions, href, hreference, hlast] at hnone

/-- Several parameters are declared and returned one after the other. -/
theorem declareParameters_accept (parameters : List Parameter) (state : State) :
    Ends state (parameters.mapM (declareParameter setting operation)) fun inputs final =>
      Accepted setting operation (parameters.map .parameter) inputs state final := by
  induction parameters generalizing state with
  | nil => exact Ends.pure (Accepted.nil state)
  | cons p rest ih =>
    rw [List.mapM_cons]
    refine (declareParameter_accepts setting operation p state).bind fun input middle hinput => ?_
    exact (ih middle).bind fun inputs final hinputs => Ends.pure (hinput.append hinputs)

/-- The parameters of a path and of an operation on it are reached. They are declared and returned, merged
under their names and locations. -/
theorem compileParameters_accepts (shared own : Value) (state : State) :
    Ends state (compileParameters setting operation shared own) fun inputs final =>
      (listed shared = .ok (listedValues shared) ∧ listed own = .ok (listedValues own) ∧
        ∀ value ∈ listedValues shared ++ listedValues own,
          Follows (setting.overlay.value state.scratch) operation value) ∧
      Accepted setting operation
        ((Parameter.latest (((listedValues shared ++ listedValues own).map
          (resolved (setting.overlay.value state.scratch) operation)).filterMap Parameter.of?)).map
            .parameter) inputs state final := by
  have hlisted {list : Value} {values : List Value} (h : listed list = .ok values) :
      listedValues list = values := by
    rw [listedValues, h]
    rfl
  refine Ends.bind (Ends.lift _) ?_
  rintro first _ ⟨rfl, hfirst⟩
  refine Ends.bind (Ends.lift _) ?_
  rintro rest _ ⟨rfl, hrest⟩
  refine (resolveChains_follow setting operation _ _).bind ?_
  rintro results _ ⟨⟨rfl, rfl⟩, hfollows⟩
  rw [mergeParameters_eq, hlisted hfirst, hlisted hrest]
  refine (declareParameters_accept setting operation _ _).weaken fun inputs final haccepted => ?_
  exact ⟨⟨hfirst, hrest, hfollows⟩, haccepted⟩

/-- Between two states only responses of an operation were declared. -/
def Answered (operation : Operation) (before after : State) : Prop :=
  ∃ answers, after.entries = before.entries ++ answers ∧
    ∀ entry ∈ answers, entry.operation = operation.id ∧ ∃ status, entry.parts = Response.parts status

/-- Nothing was declared. -/
theorem Answered.refl (state : State) : Answered operation state state :=
  ⟨[], (List.append_nil _).symm, List.forall_mem_nil _⟩

/-- Responses are declared one after the other. -/
theorem Answered.trans {first second third : State} (hfirst : Answered operation first second)
    (hsecond : Answered operation second third) : Answered operation first third := by
  obtain ⟨answers, hanswers, hparts⟩ := hfirst
  obtain ⟨others, hothers, hparts'⟩ := hsecond
  exact ⟨answers ++ others, by rw [hothers, hanswers, List.append_assoc],
    List.forall_mem_append.mpr ⟨hparts, hparts'⟩⟩

/-- Compiling a response declares nothing else. -/
theorem compileResponse_answers (status : Text) (value : Value) (state : State) :
    Ends state (compileResponse setting operation status value) fun _ final =>
      Answered operation state final := by
  refine Ends.bind (resolveChain_ends setting operation value state) ?_
  rintro result _ ⟨rfl, -⟩
  split
  · split
    · exact Ends.pure (Answered.refl operation _)
    · refine Ends.bind (Ends.modify _) ?_
      rintro _ _ rfl
      refine (compileHeaders_ends setting operation _ _).bind ?_
      rintro headers _ rfl
      refine (declare_ends setting operation _ _ _).bind ?_
      rintro _ final ⟨entry, d, hentries, hoperation, hparts, -⟩
      exact Ends.pure ⟨[entry], hentries, List.forall_mem_singleton.mpr ⟨hoperation, status, hparts⟩⟩
  · exact Ends.pure (Answered.refl operation _)

/-- Compiling responses declares nothing else. -/
theorem compileResponses_answer (responses : Value) (state : State) :
    Ends state (compileResponses setting operation responses) fun _ final =>
      Answered operation state final := by
  rw [compileResponses.eq_def]
  split
  · exact Ends.bind (Ends.mapM (fun _ first last => Answered operation first last)
      (Answered.refl operation) (fun _ _ _ _ _ => Answered.trans operation)
      (fun member : Scalar × Value =>
        compileResponse_answers setting operation member.1.display member.2) _ state)
      fun _ _ hfinal => Ends.pure hfinal
  · exact Ends.pure (Answered.refl operation state)

/-- Making the output of an operation declares nothing. -/
theorem outputType_entries (responses : List Response) (state : State) :
    Ends state (outputType setting operation responses) fun _ final => final.entries = state.entries := by
  intro output final hrun
  obtain ⟨paths, -, hdiscover⟩ := (outputType_oblivious setting operation responses).discovers
    (outputType_emits setting operation responses) hrun
  cases hrun.symm.trans (hdiscover state rfl rfl)
  rfl

/-- The record of inputs has one field for each argument. -/
theorem exists_fields_of_inputType {arguments : List Argument} {type : TypeExpr}
    (h : inputType setting operation (arguments.map Argument.input) = .ok type) :
    ∃ fields, type = .object fields none ∧
      List.Forall₂ (Argument.HasField setting operation) arguments fields := by
  obtain ⟨fields, hfields, hrecord⟩ := bind_eq_ok h
  cases hrecord
  refine ⟨fields, rfl, ?_⟩
  clear h
  induction arguments generalizing fields with
  | nil =>
    cases hfields
    exact .nil
  | cons a rest ih =>
    rw [List.map_cons, List.mapM_cons] at hfields
    obtain ⟨field, hfield, hfields⟩ := bind_eq_ok hfields
    obtain ⟨others, hothers, hfields⟩ := bind_eq_ok hfields
    obtain ⟨type, htype, hfield⟩ := bind_eq_ok hfield
    obtain ⟨names, hnames, htype⟩ := bind_eq_ok htype
    cases hfields
    cases hfield
    cases htype
    exact .cons ⟨names, ofMalformed_eq_ok hnames, rfl⟩ (ih others hothers)

namespace Turn

/-- All that an operation takes is reached: its parameters are listed, and the references to them and to its
request body lead to values. -/
structure Reaches (setting : Setting) (turn : Turn) : Prop where
  shared : listed turn.sharedSource = .ok (listedValues turn.sharedSource)
  own : listed turn.ownSource = .ok (listedValues turn.ownSource)
  body : Follows (setting.overlay.value turn.scratch) turn.operation turn.bodySource
  parameters : ∀ value ∈ turn.parameterSources,
    Follows (setting.overlay.value (turn.afterBody setting)) turn.operation value

/-- The record of inputs that an operation declares. -/
def inputEntry (turn : Turn) (fields : List (Field TypeExpr)) : OperationEntry :=
  ⟨turn.id, ["Input"], ⟨.text "Input", .object fields none, true⟩⟩

/-- The inputs of an operation as they are declared. Each argument is declared in the operation and has its
field in the record of inputs, in order, and the schemas of arguments are put aside. The responses of the
operation stand between the arguments and the record, and its output is last. -/
structure DeclaresInputs (setting : Setting) (turn : Turn) (block : List OperationEntry) : Prop where
  reaches : turn.Reaches setting
  putAside : ∀ a ∈ turn.arguments setting, a.emissions turn.operation ⊆ turn.emissions setting
  declares : ∃ given fields answers output,
    block = given ++ answers ++ [turn.inputEntry fields, output] ∧
    List.Forall₂ (Argument.DeclaredBy setting turn.operation) (turn.arguments setting) given ∧
    List.Forall₂ (Argument.HasField setting turn.operation) (turn.arguments setting) fields ∧
    (∀ entry ∈ answers, entry.operation = turn.id ∧ ∃ status, entry.parts = Response.parts status) ∧
    output.operation = turn.id ∧ output.parts = [("Output" : Text)]

/-- What is put aside for the arguments of an operation is put aside in its turn. -/
theorem emissions_argument_subset (setting : Setting) (turn : Turn) {a : Argument}
    (h : a ∈ turn.arguments setting) : a.emissions turn.operation ⊆ turn.emissions setting := by
  rcases List.mem_append.mp h with hbody | hparameter
  · intro e he
    refine List.mem_append_left _ (List.mem_append_left _ ?_)
    change e ∈ emitting (.body turn.operation.id) (contentSchemas (turn.requestBody setting))
    rw [← flatMap_emissions_bodyArguments]
    exact List.mem_flatMap.mpr ⟨a, hbody, he⟩
  · obtain ⟨p, hp, rfl⟩ := List.mem_map.mp hparameter
    intro e he
    refine List.mem_append_left _ (List.mem_append_right _ (List.mem_flatMap.mpr ⟨p, ?_, he⟩))
    rw [mergeParameters_eq]
    exact hp

end Turn

/-- The output of an operation is its last declaration. -/
theorem conclude_declares (responses : List Response) (state : State) :
    Ends state (OperationSource.conclude setting operation responses) fun _ final => ∃ output,
      final.entries = state.entries ++ [output] ∧ output.operation = operation.id ∧
        output.parts = [("Output" : Text)] := by
  refine (outputType_entries setting operation responses state).bind fun output middle hmiddle => ?_
  refine (Ends.modify _).weaken ?_
  rintro _ _ rfl
  exact ⟨⟨operation.id, ["Output"], ⟨.text "Output", output, true⟩⟩, by rw [hmiddle], rfl, rfl⟩

/-- An operation in its turn declares its inputs. -/
theorem declaresInTurn_inputs : DeclaresInTurn setting (Turn.DeclaresInputs setting) := by
  intro source state
  let turn : Turn := ⟨source, (uniqueId source.requestedId state.ids).1, state.scratch⟩
  have hid : turn.operation.id ≠ "" := uniqueId_ne_empty (requestedId_ne_empty _ _ _) state.ids
  refine Ends.get_bind (Ends.bind (Ends.modify _) ?_)
  rintro _ _ rfl
  refine ((compileBody_accepts setting turn.operation hid turn.bodySource _).and
    (compileBody_emits setting hid turn.bodySource _)).bind ?_
  rintro body second ⟨⟨hbodyFollows, hbody⟩, hstored⟩
  refine (compileParameters_accepts setting turn.operation turn.sharedSource turn.ownSource second).bind ?_
  -- The parameters are followed in the overlay with what has been put aside for the body.
  rw [hstored.scratch_eq]
  rintro parameters third ⟨⟨hshared, hown, hfollows⟩, hparameters⟩
  have haccepted : Accepted setting turn.operation (turn.arguments setting) (body.toList ++ parameters)
      _ third := hbody.append hparameters
  obtain ⟨given, hgiven, hdeclared⟩ := haccepted.entries
  refine (compileResponses_answer setting turn.operation _ third).bind ?_
  rintro responses fourth ⟨answers, hanswers, hstatuses⟩
  refine Ends.bind (Ends.lift _) ?_
  rintro input _ ⟨rfl, hinput⟩
  rw [haccepted.inputs_eq] at hinput
  obtain ⟨fields, rfl, hfields⟩ := exists_fields_of_inputType setting turn.operation hinput
  refine Ends.bind (Ends.modify _) ?_
  rintro _ fifth hfifth
  refine (conclude_declares setting turn.operation responses fifth).weaken ?_
  rintro _ final ⟨output, hfinal, houtput⟩
  refine ⟨given ++ answers ++ [turn.inputEntry fields, output], ?_,
    ⟨hshared, hown, hbodyFollows, hfollows⟩, fun a ha => turn.emissions_argument_subset setting ha,
    given, fields, answers, output, rfl, hdeclared, hfields, hstatuses, houtput⟩
  rw [hfinal, hfifth, hanswers, hgiven]
  simp only [List.append_assoc]
  rfl

namespace Turn.DeclaresInputs

variable {setting : Setting} {turn : Turn} {block : List OperationEntry}

/-- All that an operation declares is declared under its id. -/
theorem operation_eq (h : turn.DeclaresInputs setting block) :
    ∀ entry ∈ block, entry.operation = turn.id := by
  obtain ⟨given, fields, answers, output, rfl, hgiven, -, hanswers, houtput, -⟩ := h.declares
  intro entry hentry
  simp only [List.mem_append, List.mem_cons, List.not_mem_nil, or_false] at hentry
  rcases hentry with (hentry | hentry) | rfl | rfl
  · obtain ⟨a, -, hdeclared⟩ := exists_of_forall₂ hgiven hentry
    exact hdeclared.operation_eq
  · exact (hanswers entry hentry).1
  · rfl
  · exact houtput

/-- What an operation declares before its records of inputs and outputs is its request body, or has several
parts. -/
theorem exists_records (h : turn.DeclaresInputs setting block) :
    ∃ front fields output, block = front ++ [turn.inputEntry fields, output] ∧
      List.Forall₂ (Argument.HasField setting turn.operation) (turn.arguments setting) fields ∧
      output.parts = [("Output" : Text)] ∧
      ∀ entry ∈ front, (∃ part, entry.parts = [part]) → entry.parts = [("Body" : Text)] := by
  obtain ⟨given, fields, answers, output, rfl, hgiven, hfields, hanswers, -, houtput⟩ := h.declares
  refine ⟨given ++ answers, fields, output, rfl, hfields, houtput, ?_⟩
  rintro entry hentry ⟨part, hpart⟩
  rcases List.mem_append.mp hentry with hentry | hentry
  · obtain ⟨a, -, hdeclared⟩ := exists_of_forall₂ hgiven hentry
    cases a with
    | body members => exact hdeclared.parts_eq
    | parameter p =>
      rw [hdeclared.parts_eq] at hpart
      cases hpart
  · obtain ⟨-, status, hstatus⟩ := hanswers entry hentry
    rw [hstatus] at hpart
    cases hpart

end Turn.DeclaresInputs

/-- The fields of the record of inputs are named and required as the arguments are. -/
theorem map_fields {arguments : List Argument} {fields : List (Field TypeExpr)}
    (h : List.Forall₂ (Argument.HasField setting operation) arguments fields) :
    fields.map (fun field => (field.name, field.required)) =
      arguments.map fun a => (.text (Name.camelCase a.name), a.required) := by
  induction h with
  | nil => rfl
  | cons hfield _ ih =>
    obtain ⟨names, -, rfl⟩ := hfield
    rw [List.map_cons, List.map_cons, ih]

/-- In a document that compiles, every operation declares what it takes: its request body if that has a
schema, then one parameter for each name and location, in the order in which these first occur among the
parameters of the path and its own ones and described by the last of them. The record of inputs has one
read-only field for each, and the field refers to its declaration. -/
theorem inputs_mirror {naming : Naming} {document base : Value} {options : Options} {tree : Namespace}
    (h : compile naming document base options = .ok tree) :
    ∃ c : Compilation naming document base options tree,
      (turns c.setting).map (·.source) = documentSources c.overlay.document ∧
        List.Forall₂ (Turn.DeclaresInputs c.setting) (turns c.setting) c.blocks := by
  obtain ⟨c, hblocks⟩ := DeclaresInTurn.exists_compilation declaresInTurn_inputs h
  exact ⟨c, map_source_turnsFrom c.setting [] .empty _, hblocks⟩

/-- In the tree of a document, the namespace of an operation holds its record of inputs, with one field for
each argument, if no earlier operation has the same identifier and the request body is named otherwise. -/
theorem inputs_found {naming : Naming} {document : Value} {base : Text} {options : Options} {tree : Namespace}
    {overlay : Overlay} {before after : List Turn} {turn : Turn}
    (h : compile naming document (.text base) options = .ok tree)
    (hoverlay : Overlay.ofDocument document = .ok overlay)
    (hbody : naming.ofText "Body" ≠ "Input")
    (hturns : turns ⟨overlay, naming, .text base, options⟩ = before ++ turn :: after)
    (hfirst : ∀ earlier ∈ before, naming.ofText earlier.id ≠ naming.ofText turn.id) :
    ∃ fields, tree.find? (turn.member naming base "Input") =
        .ok (some ⟨.text "Input", .object fields none, true⟩) ∧
      List.Forall₂ (Argument.HasField ⟨overlay, naming, .text base, options⟩ turn.operation)
        (turn.arguments ⟨overlay, naming, .text base, options⟩) fields := by
  obtain ⟨c, hblocks⟩ := DeclaresInTurn.exists_compilation declaresInTurn_inputs h
  rw [← c.setting_eq hoverlay] at hturns ⊢
  obtain ⟨block, hdeclares, hmem, hfind⟩ :=
    c.exists_block hblocks (fun _ _ hblock => hblock.operation_eq) hturns hfirst
  obtain ⟨front, fields, output, rfl, hfields, -, hfront⟩ := hdeclares.exists_records
  refine ⟨fields, hfind front (turn.inputEntry fields) [output] _ _ rfl rfl rfl ?_, hfields⟩
  intro entry hentry hpart hname
  rw [c.name_of_body hmem (List.mem_append_left _ hentry) (hfront entry hentry hpart)] at hname
  exact hbody (Scalar.text.inj (Value.scalar.inj hname))

/-- The members of a parameter with a name and a location. -/
def parameterRecord (name location : Text) (members : List (Text × Value)) : Value :=
  .record ([(("name" : Text), .text name), ("in", .text location)] ++ members)

/-- The document of one operation, with parameters of its path and its own. -/
def operationDocument (components : Members) (shared own : List Value) (members : List (Text × Value)) :
    Members :=
  [(.text "paths", .record [("/pet", .record [("parameters", .list shared),
    ("put", .record ([(("operationId" : Text), .text "changePet"), ("parameters", .list own)] ++ members))])]),
    (.text "components", .object components)]

/-- A shared request body and a shared parameter. -/
def sharedComponents : Members :=
  let content : Value := .record [("application/json", .record [("schema", .bool true)])]
  [(.text "requestBodies", .record [("Pet", .record [("content", content), ("required", .bool true)])]),
    (.text "parameters", .record [("PetId", parameterRecord "petId" "path" [("required", .bool true)])])]

/-- A document whose operation takes them, and describes a parameter of its path anew. -/
def overridingDocument : Members :=
  operationDocument sharedComponents
    [.record [("$ref", .text "#/components/parameters/PetId")],
      parameterRecord "page_size" "query" [("required", .bool true)]]
    [parameterRecord "X-Trace" "header" [],
      parameterRecord "page_size" "query" [("schema", .record [("type", .text "integer")])]]
    [("requestBody", .record [("$ref", .text "#/components/requestBodies/Pet")])]

/-- The setting of such a document. -/
def overridingSetting : Setting :=
  ⟨⟨overridingDocument, sharedComponents, []⟩, .standard, .text "API", .default⟩

/-- The document compiles. -/
theorem exists_compile_overriding :
    ∃ tree, compile .standard (.object overridingDocument) (.text "API") .default = .ok tree :=
  exists_eq_ok (by decide +kernel)

/-- The document has one operation, whose arguments are named and required as follows. -/
theorem exists_turn_overriding :
    ∃ turn, turns overridingSetting = [turn] ∧ turn.id = "changePet" ∧
      (turn.arguments overridingSetting).map (fun a => (Name.camelCase a.name, a.required)) =
        [(("body" : Text), true), ("petId", true), ("pageSize", false), ("xTrace", false)] := by
  have hturns : (turns overridingSetting).map (fun turn => (turn.id,
      (turn.arguments overridingSetting).map fun a => (Name.camelCase a.name, a.required))) =
      [(("changePet" : Text),
        [(("body" : Text), true), ("petId", true), ("pageSize", false), ("xTrace", false)])] := by
    decide +kernel
  obtain ⟨turn, hturn, hdata⟩ := List.map_eq_singleton_iff.mp hturns
  exact ⟨turn, hturn, Prod.mk.inj hdata⟩

/-- A parameter that is described anew keeps its place and is not required any more. -/
theorem inputs_mirror_overriding :
    ∃ tree, compile .standard (.object overridingDocument) (.text "API") .default = .ok tree ∧
      ∃ (c : Compilation .standard (.object overridingDocument) (.text "API") .default tree)
        (fields : List (Field TypeExpr)),
        ⟨"changePet", ["Input"], ⟨.text "Input", .object fields none, true⟩⟩ ∈ c.blocks.flatten ∧
        fields.map (fun field => (field.name, field.required)) = [(.text "body", true),
          (.text "petId", true), (.text "pageSize", false), (.text "xTrace", false)] := by
  obtain ⟨tree, h⟩ := exists_compile_overriding
  obtain ⟨turn, hturn, hid, harguments⟩ := exists_turn_overriding
  obtain ⟨c, -, hblocks⟩ := inputs_mirror h
  have hsetting : c.setting = overridingSetting := c.setting_eq rfl
  rw [hsetting, hturn] at hblocks
  obtain ⟨block, rest, hblock, -, hc⟩ := List.forall₂_cons_left_iff.mp hblocks
  obtain ⟨given, fields, answers, output, rfl, -, hfields, -⟩ := hblock.declares
  have hnamed := congrArg (List.map (Prod.map Scalar.text id)) harguments
  rw [List.map_map] at hnamed
  refine ⟨tree, h, c, fields, ?_, (map_fields _ _ hfields).trans hnamed⟩
  rw [hc, List.flatten_cons, ← hid]
  exact List.mem_append_left _ (List.mem_append_right _ List.mem_cons_self)

end SchemaTypes.Api
