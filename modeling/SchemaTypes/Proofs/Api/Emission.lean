import SchemaTypes.Proofs.Api.RequestedId
import SchemaTypes.Proofs.Api.Scratch
import SchemaTypes.Proofs.Api.Sound

/-!
# What the walk puts aside

For a request body, a response or a shared parameter with schemas, the walk puts the schemas aside and
declares the union of references to them. An emission is one such event. The emissions of a document are
determined by a traversal of its own: it follows references through the overlay as it is at each point,
with everything put aside that was emitted before, and gives out the ids one after the other.

`Emits` says of two states of the walk that the later one has all emissions stored, declared and
discovered, and that the operations compiled between them have the ids given out for the texts they ask
for. Every computation of the walk ends in such a state.
-/

namespace SchemaTypes.Api

open Build Faulting TypeExpr

/-- The path of a part of the scratch area in the overlay. -/
def scratchPath (path : List Text) : List Text := "components" :: "schemas" :: path

/-- Schemas put aside for one declaration of an operation. -/
inductive Emission where
  | body (operation : Text) (schemas : List Value)
  | response (operation status : Text) (schemas : List Value)
  | parameter (operation name key : Text) (schema : Value)

namespace Emission

/-- The id of the operation. -/
def operation : Emission → Text
  | body operation _ => operation
  | response operation _ _ => operation
  | parameter operation _ _ _ => operation

/-- The parts that name the declaration. -/
def parts : Emission → List Text
  | body _ _ => ["Body"]
  | response _ status _ => Response.parts status
  | parameter _ name _ _ => ["Parameters", name]

/-- The schemas with the paths of the scratch area that they are put at. -/
def targets : Emission → List (List Text × Value)
  | body operation schemas => Scratch.bodyTargets operation schemas
  | response operation status schemas => Scratch.responseTargets operation status schemas
  | parameter _ _ key schema => Scratch.parameterTargets key schema

/-- Put the schemas aside. -/
def store (s : Scratch) : Emission → Scratch
  | body operation schemas => s.addBody operation schemas
  | response operation status schemas => s.addResponse operation status schemas
  | parameter _ _ key schema => s.addParameter key schema

/-- Something is put aside, and at paths that references can write. -/
structure Proper (e : Emission) : Prop where
  ne_nil : e.targets ≠ []
  no_empty : ∀ target ∈ e.targets, ("" : Text) ∉ target.1

/-- A declaration of the operation that is the union of references to the schemas. -/
structure DeclaredBy (naming : Naming) (e : Emission) (entry : OperationEntry) : Prop where
  operation_eq : entry.operation = e.operation
  parts_eq : entry.parts = e.parts
  type_eq : entry.declaration.type =
    .unionOf (e.targets.map fun target => .reference (qualify naming (scratchPath target.1)))

/-- No schema is put aside for the record of inputs. -/
theorem parts_ne_input (e : Emission) : e.parts ≠ [("Input" : Text)] := by
  cases e <;> simp [parts, Response.parts]

/-- Putting an emission aside puts its schemas at their paths. -/
theorem members_store {e : Emission} (h : e.targets ≠ []) (s : Scratch) :
    (e.store s).members = Scratch.putAll e.targets s.members := by
  cases e with
  | body operation schemas =>
    refine Scratch.members_addBody s operation ?_
    rintro rfl
    exact h rfl
  | response operation status schemas =>
    refine Scratch.members_addResponse s operation status ?_
    rintro rfl
    exact h rfl
  | parameter operation name key schema => exact Scratch.members_addParameter s key schema

end Emission

/-- Put several emissions aside, one after the other. -/
def storeAll (emitted : List Emission) (s : Scratch) : Scratch := emitted.foldl Emission.store s

/-- The ids of the operations whose record of inputs is among some declarations. -/
def inputOperations (entries : List OperationEntry) : List Text :=
  (entries.filter fun entry => entry.parts = [("Input" : Text)]).map (·.operation)

section Traversal

/-- What a chain of references leads to, or null if it leads nowhere. -/
def resolved (overlay : Value) (operation : Operation) (value : Value) : Value × Option Text :=
  (dereference overlay (some operation.place) value).toOption.getD (.null, none)

/-- The schemas of the content of a value. -/
def contentSchemas : Value → List Value
  | .object members => mediaSchemas (Members.fieldOrNull "content" members)
  | _ => []

/-- The emission for some schemas, if there are any. -/
def emitting (emission : List Value → Emission) : List Value → List Emission
  | [] => []
  | schemas => [emission schemas]

/-- The emissions for a request body. -/
def bodyEmissions (overlay : Value) (operation : Operation) (requestBody : Value) : List Emission :=
  emitting (.body operation.id) (contentSchemas (resolved overlay operation requestBody).1)

/-- The emissions for a parameter: one that is shared has a schema put aside, unless the schema is a
reference already. -/
def parameterEmissions (operation : Operation) (p : Parameter) : List Emission :=
  match p.ref with
  | none => []
  | some ref =>
    if (p.members.fieldOrNull "schema").hasField "$ref" then []
    else
      match (Pointer.split ref).getLast? with
      | none => []
      | some key => [.parameter operation.id p.name key p.schema]

/-- The parameters that a value lists, or none if it is no list. -/
def listedValues (value : Value) : List Value := (listed value).toOption.getD []

/-- The emissions for the parameters of a path and of an operation on it. -/
def parametersEmissions (overlay : Value) (operation : Operation) (shared own : Value) :
    List Emission :=
  let values := (listedValues shared ++ listedValues own).map (resolved overlay operation)
  (mergeParameters values).flatMap (parameterEmissions operation)

/-- The emissions for a response. -/
def responseEmissions (overlay : Value) (operation : Operation) (status : Text) (value : Value) :
    List Emission :=
  emitting (.response operation.id status) (contentSchemas (resolved overlay operation value).1)

/-- The emissions for several responses. -/
def responsesEmissions (setting : Setting) (operation : Operation) :
    Scratch → List (Scalar × Value) → List Emission
  | _, [] => []
  | scratch, (code, value) :: rest =>
    let emitted := responseEmissions (setting.overlay.value scratch) operation code.display value
    emitted ++ responsesEmissions setting operation (storeAll emitted scratch) rest

/-- The members of a value, none if it is no object. -/
def membersOrNone : Value → Members
  | .object members => members
  | _ => []

/-- An operation as it stands in a document. -/
structure OperationSource where
  path : Text
  method : Text
  pathItem : Members
  members : Members

namespace OperationSource

/-- The id that the operation asks for. -/
def requestedId (source : OperationSource) : Text :=
  Api.requestedId source.method source.path source.members

/-- The operation under an id. -/
def under (source : OperationSource) (id : Text) : Operation :=
  ⟨id, source.method.toUpper ++ " " ++ source.path⟩

/-- Declare the operation. -/
def compile (setting : Setting) (source : OperationSource) : Compile Unit :=
  compileOperation setting source.path source.method source.pathItem source.members

/-- The emissions for the operation under an id. -/
def emissions (setting : Setting) (scratch : Scratch) (source : OperationSource) (id : Text) :
    List Emission :=
  let body := bodyEmissions (setting.overlay.value scratch) (source.under id)
    (source.members.fieldOrNull "requestBody")
  let second := storeAll body scratch
  let parameters := parametersEmissions (setting.overlay.value second) (source.under id)
    (source.pathItem.fieldOrNull "parameters") (source.members.fieldOrNull "parameters")
  let third := storeAll parameters second
  body ++ parameters ++ responsesEmissions setting (source.under id) third
    (membersOrNone ((source.members.fieldOrNull "responses").orElse (.object [])))

end OperationSource

/-- The operations among the members of a path. -/
def pathSources (path : Text) (pathItem : Members) : List (Scalar × Value) → List OperationSource
  | [] => []
  | (.text method, .object operation) :: rest =>
    if methods.contains method then ⟨path, method, pathItem, operation⟩ :: pathSources path pathItem rest
    else pathSources path pathItem rest
  | _ :: rest => pathSources path pathItem rest

/-- The operations of a list of paths. -/
def sources : List (Scalar × Value) → List OperationSource
  | [] => []
  | (path, .object pathItem) :: rest => pathSources path.display pathItem pathItem ++ sources rest
  | _ :: rest => sources rest

/-- The operations of a document, in the order in which they are walked. -/
def documentSources (document : Members) : List OperationSource :=
  sources ((paths document).toOption.getD [])

/-- The emissions for several operations. -/
def sourcesEmissions (setting : Setting) :
    List (Text × Nat) → Scratch → List OperationSource → List Emission
  | _, _, [] => []
  | counts, scratch, source :: rest =>
    let (id, next) := uniqueId source.requestedId counts
    let emitted := source.emissions setting scratch id
    emitted ++ sourcesEmissions setting next (storeAll emitted scratch) rest

/-- The emissions of a whole walk. -/
def emissions (setting : Setting) : List Emission :=
  sourcesEmissions setting [] .empty (documentSources setting.overlay.document)

end Traversal

variable {naming : Naming} {α β : Type}

/-- From a given state, a computation ends only with results and states for which a property holds. -/
def Ends (state : State) (action : Compile α) (post : α → State → Prop) : Prop :=
  ∀ a final, action.run state = .ok (a, final) → post a final

namespace Ends

variable {state : State} {post : α → State → Prop}

/-- A finished computation ends where it is. -/
theorem pure {a : α} (h : post a state) : Ends state (Pure.pure a) post := by
  intro b final hrun
  cases hrun
  exact h

/-- A fault ends nowhere. -/
theorem throw (fault : Fault) : Ends state (MonadExcept.throw fault : Compile α) post := by
  intro a final hrun
  cases hrun

/-- A result from elsewhere ends where it is. -/
theorem lift (result : Except Fault α) :
    Ends state (liftM result) fun a final => final = state ∧ result = .ok a := by
  intro a final hrun
  cases result with
  | error fault => cases hrun
  | ok b =>
    cases hrun
    exact ⟨rfl, rfl⟩

/-- The second computation of a sequence starts where the first one ended. -/
theorem bind {first : Compile α} {second : α → Compile β} {last : β → State → Prop}
    (hfirst : Ends state first post)
    (hsecond : ∀ a middle, post a middle → Ends middle (second a) last) :
    Ends state (first >>= second) last := by
  intro b final hrun
  rw [StateT.run_bind] at hrun
  cases hmiddle : first.run state with
  | error fault =>
    rw [hmiddle] at hrun
    cases hrun
  | ok outcome =>
    obtain ⟨a, middle⟩ := outcome
    rw [hmiddle] at hrun
    exact hsecond a middle (hfirst a middle hmiddle) b final hrun

/-- Reading the state gives the state at hand. -/
theorem get_bind {second : State → Compile α} (h : Ends state (second state) post) :
    Ends state (get >>= second) post := h

/-- Changing the state ends in the changed state. -/
theorem modify (change : State → State) :
    Ends state (modify change) fun _ final => final = change state := by
  intro a final hrun
  cases hrun
  rfl

/-- Every property that follows holds at the end. -/
theorem weaken {action : Compile α} {weaker : α → State → Prop} (h : Ends state action post)
    (himp : ∀ a final, post a final → weaker a final) : Ends state action weaker :=
  fun a final hrun => himp a final (h a final hrun)

/-- Computations for the items of a list end one after the other. -/
theorem mapM {γ : Type} {f : γ → Compile α} {step : γ → State → State → Prop}
    (run : List γ → State → State → Prop) (hnil : ∀ state, run [] state state)
    (hcons : ∀ item rest first second third,
      step item first second → run rest second third → run (item :: rest) first third)
    (h : ∀ item state, Ends state (f item) fun _ final => step item state final) (items : List γ)
    (state : State) : Ends state (items.mapM f) fun _ final => run items state final := by
  induction items generalizing state with
  | nil => exact pure (hnil state)
  | cons item rest ih =>
    rw [List.mapM_cons]
    refine (h item state).bind fun _ middle hmiddle => ?_
    exact (ih middle).bind fun _ final hfinal => pure (hcons _ _ _ _ _ hmiddle hfinal)

/-- Building ends with more discovered and everything else as it was. -/
theorem build (action : Build α) :
    Ends state (Api.build action) fun a final =>
      ∃ d, action.run state.discovery = (.ok a, d) ∧ final = { state with discovery := d } := by
  intro a final hrun
  rcases hbuild : action.run state.discovery with ⟨result, d⟩
  unfold Api.build at hrun
  simp only [StateT.run, hbuild] at hrun
  cases result with
  | error fault => cases hrun
  | ok b =>
    cases hrun
    exact ⟨d, rfl, rfl⟩

end Ends

/-- The later of two states has these emissions stored, declared and discovered, and the operations
compiled since the earlier one have the ids given out for these texts. -/
structure Emits (naming : Naming) (requested : List Text) (emitted : List Emission)
    (before after : State) : Prop where
  ids_eq : after.ids = (giveIds requested before.ids).2
  scratch_eq : after.scratch = storeAll emitted before.scratch
  proper : ∀ e ∈ emitted, e.Proper
  keys_subset : before.discovery.keys ⊆ after.discovery.keys
  discovered : ∀ e ∈ emitted, ∀ target ∈ e.targets,
    Pointer.join (scratchPath target.1) ∈ after.discovery.keys
  entries : ∃ added, after.entries = before.entries ++ added ∧
    inputOperations added = (giveIds requested before.ids).1 ∧
    ∀ e ∈ emitted, ∃ entry ∈ added, e.DeclaredBy naming entry

namespace Emits

/-- Nothing happens between a state and itself. -/
theorem refl (state : State) : Emits naming [] [] state state :=
  ⟨rfl, rfl, nofun, List.Subset.refl _, nofun, [], by simp, rfl, nofun⟩

/-- What happens between two states and then up to a third one happens one after the other. -/
theorem trans {requested others : List Text} {emitted further : List Emission}
    {first second third : State} (hfirst : Emits naming requested emitted first second)
    (hsecond : Emits naming others further second third) :
    Emits naming (requested ++ others) (emitted ++ further) first third := by
  obtain ⟨added, hadded, hinputs, hdeclared⟩ := hfirst.entries
  obtain ⟨added', hadded', hinputs', hdeclared'⟩ := hsecond.entries
  refine ⟨?_, ?_, ?_, List.Subset.trans hfirst.keys_subset hsecond.keys_subset, ?_,
    added ++ added', ?_, ?_, ?_⟩
  · rw [hsecond.ids_eq, hfirst.ids_eq, giveIds_append]
  · rw [hsecond.scratch_eq, hfirst.scratch_eq, storeAll, storeAll, storeAll, List.foldl_append]
  · exact List.forall_mem_append.mpr ⟨hfirst.proper, hsecond.proper⟩
  · refine List.forall_mem_append.mpr ⟨fun e he target htarget => ?_, hsecond.discovered⟩
    exact hsecond.keys_subset (hfirst.discovered e he target htarget)
  · rw [hadded', hadded, List.append_assoc]
  · rw [inputOperations, List.filter_append, List.map_append, giveIds_append, ← hfirst.ids_eq,
      ← hinputs, ← hinputs']
    rfl
  · refine List.forall_mem_append.mpr ⟨fun e he => ?_, fun e he => ?_⟩
    · obtain ⟨entry, hentry, hdeclares⟩ := hdeclared e he
      exact ⟨entry, List.mem_append_left _ hentry, hdeclares⟩
    · obtain ⟨entry, hentry, hdeclares⟩ := hdeclared' e he
      exact ⟨entry, List.mem_append_right _ hentry, hdeclares⟩

/-- What is emitted after an id was given out and before the record of inputs is declared belongs to an
operation with this id. -/
theorem operation {id : Text} {emitted : List Emission} {before middle after : State}
    {declaration : Declaration}
    (hparts : Emits naming [] emitted { before with ids := (uniqueId id before.ids).2 } middle)
    (hrest : Emits naming [] []
      { middle with entries := middle.entries ++ [⟨(uniqueId id before.ids).1, ["Input"], declaration⟩] }
      after) :
    Emits naming [id] emitted before after := by
  obtain ⟨added, hadded, hinputs, hdeclared⟩ := hparts.entries
  obtain ⟨others, hothers, hinputs', -⟩ := hrest.entries
  refine ⟨hrest.ids_eq.trans hparts.ids_eq, hrest.scratch_eq.trans hparts.scratch_eq, hparts.proper,
    List.Subset.trans hparts.keys_subset hrest.keys_subset,
    fun e he target htarget => hrest.keys_subset (hparts.discovered e he target htarget),
    added ++ ⟨(uniqueId id before.ids).1, ["Input"], declaration⟩ :: others, ?_, ?_, ?_⟩
  · rw [hothers, hadded, List.append_assoc, List.append_assoc]
    rfl
  · rw [inputOperations, List.filter_append, List.map_append]
    change inputOperations added ++ _ :: inputOperations others = _
    rw [hinputs, hinputs']
    rfl
  · intro e he
    obtain ⟨entry, hentry, hdeclares⟩ := hdeclared e he
    exact ⟨entry, List.mem_append_left _ hentry, hdeclares⟩

end Emits

end SchemaTypes.Api
