import SchemaTypes.Proofs.Api.Filter
import SchemaTypes.Proofs.Api.Headers

/-!
# What operations give back

The responses of an operation are compiled one after the other. A response may be given by a reference, and
so may its headers. One that is an object with a schema for some media type has content: its schemas are put
aside, it is declared as their union, and it is kept with its headers for the output of the operation.

The output is made in a second pass over the responses that were kept. It leaves out those that a filter on
statuses excludes, and types the headers by a schema that goes by their names. The passes agree: every
response with content is declared, and the output has one variant for each of them that takes part, in the
order of the document.
-/

namespace SchemaTypes.Api

open Faulting

/-- A response in its turn: the status it is given for, its description as it is given, and what has been put
aside before it. -/
structure Reply where
  status : Text
  source : Value
  scratch : Scratch

namespace Reply

variable (setting : Setting) (operation : Operation) (reply : Reply)

/-- The response with references followed. -/
def value : Value := (resolved (setting.overlay.value reply.scratch) operation reply.source).1

/-- The schemas of its media types. -/
def schemas : List Value := contentSchemas (reply.value setting operation)

/-- Whether it is an object with a schema for some media type. -/
def hasContent : Bool := !(reply.schemas setting operation).isEmpty

/-- What is put aside once it has been compiled. -/
def after : Scratch :=
  storeAll (responseEmissions (setting.overlay.value reply.scratch) operation reply.status reply.source)
    reply.scratch

/-- Its headers as they are given. -/
def headerSources : Members :=
  membersOrNone ((membersOrNone (reply.value setting operation)).fieldOrNull "headers")

/-- Its headers that have a schema, with references followed. -/
def headers : List Header :=
  headersAmong (setting.overlay.value (reply.after setting operation)) operation
    (reply.headerSources setting operation)

/-- The response as it is kept for the output. -/
def response : Response := ⟨reply.status, reply.headers setting operation⟩

/-- The schemas put aside for it. -/
def emission : Emission := .response operation.id reply.status (reply.schemas setting operation)

/-- The references to it lead to a value, and so do those to its headers if it has content. -/
structure Reached : Prop where
  source : Follows (setting.overlay.value reply.scratch) operation reply.source
  headers : reply.hasContent setting operation = true → ∀ header ∈ reply.headerSources setting operation,
    Follows (setting.overlay.value (reply.after setting operation)) operation header.2

/-- The declaration of a response: the union of references to the schemas put aside for it. -/
def DeclaredBy (entry : OperationEntry) : Prop :=
  (reply.emission setting operation).DeclaredBy setting.naming entry

variable {setting operation reply}

/-- A response without content puts nothing aside. -/
theorem emissions_of_not_hasContent (h : reply.hasContent setting operation = false) :
    responseEmissions (setting.overlay.value reply.scratch) operation reply.status reply.source = [] := by
  have hnone : reply.schemas setting operation = [] := by
    rwa [hasContent, Bool.not_eq_false', List.isEmpty_iff] at h
  change emitting _ (reply.schemas setting operation) = []
  rw [hnone]
  rfl

/-- A response with content puts its schemas aside. -/
theorem emissions_of_hasContent (h : reply.hasContent setting operation = true) :
    responseEmissions (setting.overlay.value reply.scratch) operation reply.status reply.source =
      [reply.emission setting operation] := by
  change emitting _ (reply.schemas setting operation) = _
  rw [emission]
  cases hschemas : reply.schemas setting operation with
  | nil =>
    rw [hasContent, hschemas] at h
    cases h
  | cons first rest => rfl

/-- Once a response with content has been compiled, its schemas are put aside. -/
theorem after_of_hasContent (h : reply.hasContent setting operation = true) :
    reply.after setting operation =
      reply.scratch.addResponse operation.id reply.status (reply.schemas setting operation) := by
  rw [after, emissions_of_hasContent h]
  rfl

end Reply

/-- The responses among some members in their turns, after others have put schemas aside. -/
def repliesFrom (setting : Setting) (operation : Operation) : Scratch → List (Scalar × Value) → List Reply
  | _, [] => []
  | scratch, (code, value) :: rest =>
    let reply : Reply := ⟨code.display, value, scratch⟩
    reply :: repliesFrom setting operation (reply.after setting operation) rest

/-- What responses put aside is put aside for those with content. -/
theorem map_emission_repliesFrom (setting : Setting) (operation : Operation) (scratch : Scratch)
    (members : Members) :
    ((repliesFrom setting operation scratch members).filter (·.hasContent setting operation)).map
        (·.emission setting operation) = responsesEmissions setting operation scratch members := by
  induction members generalizing scratch with
  | nil => rfl
  | cons member rest ih =>
    obtain ⟨code, value⟩ := member
    let reply : Reply := ⟨code.display, value, scratch⟩
    change ((reply :: repliesFrom setting operation (reply.after setting operation) rest).filter _).map _ =
      responseEmissions (setting.overlay.value reply.scratch) operation reply.status reply.source ++
        responsesEmissions setting operation (reply.after setting operation) rest
    rw [← ih]
    cases hcontent : reply.hasContent setting operation with
    | false =>
      rw [List.filter_cons_of_neg (by simp [hcontent]), Reply.emissions_of_not_hasContent hcontent]
      rfl
    | true =>
      rw [List.filter_cons_of_pos hcontent, Reply.emissions_of_hasContent hcontent]
      rfl

/-- Between two states some responses were reached. Those with content were declared and returned. -/
structure Replied (setting : Setting) (operation : Operation) (replies : List Reply)
    (responses : List Response) (before after : State) : Prop where
  reached : ∀ reply ∈ replies, reply.Reached setting operation
  responses_eq : responses =
    (replies.filter (·.hasContent setting operation)).map (·.response setting operation)
  entries : ∃ declared, after.entries = before.entries ++ declared ∧
    List.Forall₂ (Reply.DeclaredBy setting operation) (replies.filter (·.hasContent setting operation)) declared

namespace Replied

variable {setting : Setting} {operation : Operation}

/-- No response was reached. -/
theorem nil (state : State) : Replied setting operation [] [] state state :=
  ⟨List.forall_mem_nil _, rfl, [], (List.append_nil _).symm, .nil⟩

/-- Responses are reached one after the other. -/
theorem append {replies others : List Reply} {responses further : List Response} {first second third : State}
    (hfirst : Replied setting operation replies responses first second)
    (hsecond : Replied setting operation others further second third) :
    Replied setting operation (replies ++ others) (responses ++ further) first third := by
  obtain ⟨declared, hdeclared, hreplies⟩ := hfirst.entries
  obtain ⟨declared', hdeclared', hothers⟩ := hsecond.entries
  refine ⟨List.forall_mem_append.mpr ⟨hfirst.reached, hsecond.reached⟩, ?_, declared ++ declared', ?_, ?_⟩
  · rw [hfirst.responses_eq, hsecond.responses_eq, List.filter_append, List.map_append]
  · rw [hdeclared', hdeclared, List.append_assoc]
  · rw [List.filter_append]
    exact List.rel_append hreplies hothers

/-- A response without content was reached. -/
theorem skip {reply : Reply} (hcontent : reply.hasContent setting operation = false)
    (hfollows : Follows (setting.overlay.value reply.scratch) operation reply.source) (state : State) :
    Replied setting operation [reply] [] state state := by
  have hnone : [reply].filter (·.hasContent setting operation) = [] :=
    List.filter_cons_of_neg (by simp [hcontent])
  refine ⟨List.forall_mem_singleton.mpr ⟨hfollows, fun htrue => ?_⟩, ?_, [], (List.append_nil _).symm, ?_⟩
  · rw [hcontent] at htrue
    cases htrue
  · rw [hnone]
    rfl
  · rw [hnone]
    exact .nil

/-- A response with content was reached, declared from what was put aside for it, and returned. -/
theorem single {reply : Reply} (hcontent : reply.hasContent setting operation = true)
    (hreached : reply.Reached setting operation) {entry : OperationEntry} {before after : State}
    (hentries : after.entries = before.entries ++ [entry])
    (hemits : Emits setting.naming [] [reply.emission setting operation] before after) :
    Replied setting operation [reply] [reply.response setting operation] before after := by
  have hkept : [reply].filter (·.hasContent setting operation) = [reply] := List.filter_cons_of_pos hcontent
  refine ⟨List.forall_mem_singleton.mpr hreached, by rw [hkept]; rfl, [entry], hentries, ?_⟩
  obtain ⟨added, hadded, -, hdeclared⟩ := hemits.entries
  obtain ⟨other, hother, hdeclares⟩ := hdeclared _ List.mem_cons_self
  rw [hentries] at hadded
  rw [← List.append_cancel_left hadded, List.mem_singleton] at hother
  rw [hkept]
  exact .cons (hother ▸ hdeclares) .nil

end Replied

variable (setting : Setting) (operation : Operation)

/-- A response is reached. It is declared and returned with its headers if it has content. -/
theorem compileResponse_replies (hid : operation.id ≠ "") (status : Text) (source : Value) (state : State) :
    Ends state (compileResponse setting operation status source) fun response final =>
      Replied setting operation [⟨status, source, state.scratch⟩] response.toList state final := by
  let reply : Reply := ⟨status, source, state.scratch⟩
  suffices h : Ends state (compileResponse setting operation status source) fun response final =>
      Emits setting.naming []
        (responseEmissions (setting.overlay.value state.scratch) operation status source) state final →
          Replied setting operation [reply] response.toList state final from
    (h.and (compileResponse_emits setting hid status source state)).weaken fun _ _ h => h.1 h.2
  refine (resolveChain_follows setting operation source state).bind ?_
  rintro reached middle ⟨⟨hmiddle, hreached⟩, hfollows⟩
  have hvalue : reached.1 = reply.value setting operation := congrArg Prod.fst hreached
  rw [hvalue, hmiddle]
  split
  · rename_i members hmembers
    cases hschemas : mediaSchemas (Members.fieldOrNull "content" members) with
    | nil =>
      refine Ends.pure fun _ => Replied.skip ?_ hfollows state
      rw [Reply.hasContent, Reply.schemas, hmembers, contentSchemas, hschemas]
      rfl
    | cons first rest =>
      have hown : reply.schemas setting operation = first :: rest := by
        rw [Reply.schemas, hmembers, contentSchemas, hschemas]
      have hcontent : reply.hasContent setting operation = true := by
        rw [Reply.hasContent, hown]
        rfl
      have hstored := Reply.after_of_hasContent hcontent
      rw [hown] at hstored
      have hsources : membersOrNone (Members.fieldOrNull "headers" members) =
          reply.headerSources setting operation := by
        rw [Reply.headerSources, hmembers]
        rfl
      refine Ends.bind (Ends.modify _) ?_
      rintro _ _ rfl
      refine (compileHeaders_follow setting operation _ _).bind ?_
      rw [← hstored, hsources]
      rintro headers _ ⟨⟨rfl, rfl⟩, hheaders⟩
      refine (declare_ends setting operation _ _ _).bind ?_
      rintro _ final ⟨entry, d, hentries, -⟩
      refine Ends.pure fun hemits => Replied.single hcontent ⟨hfollows, fun _ => hheaders⟩ hentries ?_
      rwa [← Reply.emissions_of_hasContent hcontent]
  · rename_i hother
    refine Ends.pure fun _ => Replied.skip ?_ hfollows state
    rw [Reply.hasContent, Reply.schemas, contentSchemas_of_not_object hother]
    rfl

/-- Several responses are reached one after the other. -/
theorem compileEach_reply (hid : operation.id ≠ "") (members : Members) (state : State) :
    Ends state (members.mapM fun member => compileResponse setting operation member.1.display member.2)
      fun compiled final => Replied setting operation (repliesFrom setting operation state.scratch members)
        (compiled.filterMap id) state final := by
  induction members generalizing state with
  | nil => exact Ends.pure (Replied.nil state)
  | cons member rest ih =>
    rw [List.mapM_cons]
    refine ((compileResponse_replies setting operation hid member.1.display member.2 state).and
      (compileResponse_emits setting hid member.1.display member.2 state)).bind ?_
    rintro response middle ⟨hresponse, hemits⟩
    refine (ih middle).bind fun compiled final hrest => Ends.pure ?_
    -- The rest is compiled with what has been put aside for the first one.
    rw [hemits.scratch_eq] at hrest
    cases response with
    | none => exact hresponse.append hrest
    | some response => exact hresponse.append hrest

/-- The responses of an operation are reached. Those with content are declared and returned. -/
theorem compileResponses_reply (hid : operation.id ≠ "") (responses : Value) (state : State) :
    Ends state (compileResponses setting operation responses) fun compiled final =>
      Replied setting operation (repliesFrom setting operation state.scratch (membersOrNone responses))
        compiled state final := by
  cases responses with
  | scalar s => exact Ends.pure (Replied.nil state)
  | list items => exact Ends.pure (Replied.nil state)
  | object members =>
    exact (compileEach_reply setting operation hid members state).bind fun _ _ hcompiled =>
      Ends.pure hcompiled

/-- The type of a status: its code if it is a row of digits, and any number otherwise. -/
inductive HasStatusType (status : Text) : TypeExpr → Prop where
  | code {n : Nat} (digits : Text.isNumeral status.toList = true)
      (value : Text.readDecimals? status.toList = some n) : HasStatusType status (.literal (.int n))
  | number (other : Text.isNumeral status.toList = false) : HasStatusType status (.nonNull .number)

/-- The variant of a response: its status, its headers and a reference to its declaration. -/
def HasVariant (response : Response) (variant : TypeExpr) : Prop :=
  ∃ status fields names, HasStatusType response.status status ∧
    List.Forall₂ (Header.HasField (setting.scope operation)) response.headers fields ∧
    setting.naming.applyAll (setting.segments operation (Response.parts response.status)) = .ok names ∧
    variant = .object
      [⟨.text "status", status, true, true⟩,
        ⟨.text "headers", .nonNull (.object fields (some otherHeaders)), response.headers.any (·.required), true⟩,
        ⟨.text "body", .reference names, true, true⟩] none

/-- Whether a status takes part in outputs. -/
def Options.admits (options : Options) (status : Text) : Bool := (options.includes status).toOption.getD false

/-- The variants of some responses: it is known of every response whether it takes part, and those that do have
one variant each, in order. -/
structure HaveVariants (responses : List Response) (variants : List TypeExpr) : Prop where
  asked : ∀ response ∈ responses,
    setting.options.includes response.status = .ok (setting.options.admits response.status)
  variants : List.Forall₂ (HasVariant setting operation)
    (responses.filter fun response => setting.options.admits response.status) variants

/-- The status of a variant is typed by the numeral that it is. -/
theorem hasStatusType_of_numeral {status : Text} {code : Option Nat} (h : numeral? status = .ok code) :
    HasStatusType status (statusType code) := by
  unfold numeral? at h
  split at h
  · rename_i hdigits
    cases hvalue : Text.readDecimals? status.toList with
    | none =>
      rw [hvalue] at h
      cases h
    | some n =>
      rw [hvalue] at h
      cases h
      exact .code hdigits hvalue
  · rename_i hother
    cases h
    exact .number (Bool.not_eq_true _ ▸ hother)

/-- A response whose headers are apart has its variant. -/
theorem variant_hasVariant {response : Response} (hapart : response.headers.Pairwise Header.Apart)
    (state : State) :
    Ends state (variant setting operation response) fun t _ => HasVariant setting operation response t := by
  refine Ends.bind (Ends.lift _) fun schema _ hlift => ?_
  obtain ⟨code, hcode, htypes⟩ := run_types_statusSchema (setting.scope operation) hlift.2
  refine Ends.bind (Ends.lift _) fun headersSchema _ hheadersSchema => Ends.bind (Ends.build _) ?_
  rintro status _ ⟨d, hstatus, -⟩
  cases hstatus.symm.trans (htypes _)
  refine Ends.bind (Ends.build _) ?_
  rintro headers _ ⟨d', hheaders, -⟩
  obtain ⟨fields, rfl, hfields⟩ := exists_fields_of_headersSchema hapart hheadersSchema.2 hheaders
  refine Ends.bind (Ends.lift _) fun body _ hbody => ?_
  obtain ⟨names, hnames, hbody⟩ := bind_eq_ok hbody.2
  cases hbody
  exact Ends.pure ⟨statusType code, fields, names, hasStatusType_of_numeral hcode, hfields,
    ofMalformed_eq_ok hnames, rfl⟩

/-- Responses whose headers are apart have their variants. -/
theorem variants_haveVariants {responses : List Response}
    (hapart : ∀ response ∈ responses, response.headers.Pairwise Header.Apart) (state : State) :
    Ends state (variants setting operation responses) fun ts _ =>
      HaveVariants setting operation responses ts := by
  induction responses generalizing state with
  | nil => exact Ends.pure ⟨List.forall_mem_nil _, .nil⟩
  | cons response rest ih =>
    obtain ⟨hresponse, hrest⟩ := List.forall_mem_cons.mp hapart
    refine Ends.bind (Ends.lift _) ?_
    rintro included _ ⟨rfl, hincluded⟩
    have hincludes : setting.options.includes response.status = .ok included := ofMalformed_eq_ok hincluded
    have hadmits : setting.options.admits response.status = included := by
      rw [Options.admits, hincludes]
      rfl
    rw [← hadmits] at hincludes
    cases included with
    | false =>
      refine (ih hrest _).weaken fun ts _ hts => ⟨List.forall_mem_cons.mpr ⟨hincludes, hts.asked⟩, ?_⟩
      rw [List.filter_cons_of_neg (by simp [hadmits])]
      exact hts.variants
    | true =>
      refine (variant_hasVariant setting operation hresponse _).bind fun first _ hfirst => ?_
      refine (ih hrest _).bind fun others _ hothers =>
        Ends.pure ⟨List.forall_mem_cons.mpr ⟨hincludes, hothers.asked⟩, ?_⟩
      rw [List.filter_cons_of_pos (by simp [hadmits])]
      exact .cons hfirst hothers.variants

/-- The output of an operation is made from the variants of its responses. -/
theorem outputType_haveVariants (responses : List Response) (state : State) :
    Ends state (outputType setting operation responses) fun type _ => ∃ ts, type = outputOf ts ∧
      ((∀ response ∈ responses, response.headers.Pairwise Header.Apart) →
        HaveVariants setting operation responses ts) := by
  have hvariants : Ends state (variants setting operation responses) fun ts _ =>
      (∀ response ∈ responses, response.headers.Pairwise Header.Apart) →
        HaveVariants setting operation responses ts :=
    fun ts final hrun hapart => variants_haveVariants setting operation hapart state ts final hrun
  rw [outputType_eq]
  exact hvariants.bind fun ts _ hts => Ends.pure ⟨ts, rfl, hts⟩

/-- The output of an operation is its last declaration. -/
theorem conclude_output (responses : List Response) (state : State) :
    Ends state (OperationSource.conclude setting operation responses) fun _ final => ∃ ts,
      final.entries = state.entries ++ [outputEntry operation ts] ∧
      ((∀ response ∈ responses, response.headers.Pairwise Header.Apart) →
        HaveVariants setting operation responses ts) := by
  refine ((outputType_haveVariants setting operation responses state).and
    (outputType_entries setting operation responses state)).bind ?_
  rintro _ middle ⟨⟨ts, rfl, hts⟩, hmiddle⟩
  refine (Ends.modify _).weaken ?_
  rintro _ _ rfl
  exact ⟨ts, by rw [hmiddle]; rfl, hts⟩

namespace Turn

/-- The responses of an operation as they are given. -/
def responseSource (turn : Turn) : Value := (turn.source.members.fieldOrNull "responses").orElse (.object [])

/-- What is put aside once the parameters have been compiled. -/
def afterParameters (turn : Turn) : Scratch :=
  storeAll (parametersEmissions (setting.overlay.value (turn.afterBody setting)) turn.operation
    turn.sharedSource turn.ownSource) (turn.afterBody setting)

/-- The responses of an operation in their turns. -/
def replies (turn : Turn) : List Reply :=
  repliesFrom setting turn.operation (turn.afterParameters setting) (membersOrNone turn.responseSource)

/-- The responses of an operation that have content. -/
def answers (turn : Turn) : List Reply :=
  (turn.replies setting).filter (·.hasContent setting turn.operation)

/-- No response of an operation has two headers with one name in camel case. -/
def HeadersApart (turn : Turn) : Prop :=
  ∀ reply ∈ turn.answers setting, (reply.headers setting turn.operation).Pairwise Header.Apart

/-- The outputs of an operation as they are declared. Each response with content is declared as the union of
references to its schemas, which are put aside. The output is last, with one variant for each response that
takes part. Nothing else is declared as a response or as an output. -/
structure DeclaresOutputs (turn : Turn) (block : List OperationEntry) : Prop where
  reached : ∀ reply ∈ turn.replies setting, reply.Reached setting turn.operation
  putAside : ∀ reply ∈ turn.answers setting, reply.emission setting turn.operation ∈ turn.emissions setting
  asked : ∀ reply ∈ turn.answers setting,
    setting.options.includes reply.status = .ok (setting.options.admits reply.status)
  declares : ∃ arguments declared input variants,
    block = arguments ++ declared ++ [input, outputEntry turn.operation variants] ∧
    (∀ entry ∈ input :: arguments,
      entry.parts ≠ [("Output" : Text)] ∧ ∀ status, entry.parts ≠ Response.parts status) ∧
    List.Forall₂ (Reply.DeclaredBy setting turn.operation) (turn.answers setting) declared ∧
    List.Forall₂ (fun reply => HasVariant setting turn.operation (reply.response setting turn.operation))
      ((turn.answers setting).filter fun reply => setting.options.admits reply.status) variants

/-- What is put aside for the responses of an operation is put aside in its turn. -/
theorem emission_mem_of_answer (turn : Turn) {reply : Reply} (h : reply ∈ turn.answers setting) :
    reply.emission setting turn.operation ∈ turn.emissions setting := by
  refine List.mem_append_right _ ?_
  change _ ∈ responsesEmissions setting turn.operation (turn.afterParameters setting)
    (membersOrNone turn.responseSource)
  rw [← map_emission_repliesFrom]
  exact List.mem_map_of_mem h

end Turn

/-- What an operation takes is declared neither as an output nor as a response. -/
theorem otherParts_of_declaredBy {arguments : List Argument} {given : List OperationEntry}
    (h : List.Forall₂ (Argument.DeclaredBy setting operation) arguments given) :
    ∀ entry ∈ given, entry.parts ≠ [("Output" : Text)] ∧ ∀ status, entry.parts ≠ Response.parts status := by
  intro entry hentry
  obtain ⟨a, -, hdeclared⟩ := exists_of_forall₂ h hentry
  rw [hdeclared.parts_eq]
  cases a with
  | body members => simp [Argument.parts, Response.parts]
  | parameter p => simp [Argument.parts, Response.parts]

/-- An operation in its turn reaches its responses, and declares its outputs if their headers are apart. -/
theorem declaresInTurn_replies :
    DeclaresInTurn setting fun turn block =>
      (∀ reply ∈ turn.replies setting, reply.Reached setting turn.operation) ∧
        (turn.HeadersApart setting → turn.DeclaresOutputs setting block) := by
  intro source state
  let turn : Turn := ⟨source, (uniqueId source.requestedId state.ids).1, state.scratch⟩
  have hid : turn.operation.id ≠ "" := uniqueId_ne_empty (requestedId_ne_empty _ _ _) state.ids
  refine Ends.get_bind (Ends.bind (Ends.modify _) ?_)
  rintro _ _ rfl
  refine ((compileBody_accepts setting turn.operation hid turn.bodySource _).and
    (compileBody_emits setting hid turn.bodySource _)).bind ?_
  rintro body second ⟨⟨-, hbody⟩, hsecond⟩
  refine ((compileParameters_accepts setting turn.operation turn.sharedSource turn.ownSource second).and
    (compileParameters_emits setting turn.operation turn.sharedSource turn.ownSource second)).bind ?_
  rintro parameters third ⟨⟨-, hparameters⟩, hthird⟩
  have hscratch : third.scratch = turn.afterParameters setting := by
    rw [hthird.scratch_eq, hsecond.scratch_eq]
    rfl
  obtain ⟨given, hgiven, hdeclared⟩ := (hbody.append hparameters).entries
  refine (compileResponses_reply setting turn.operation hid turn.responseSource third).bind ?_
  rw [hscratch]
  rintro responses fourth hreplied
  obtain ⟨declared, hfourth, hanswers⟩ := hreplied.entries
  refine Ends.bind (Ends.lift _) ?_
  rintro input _ ⟨rfl, -⟩
  refine Ends.bind (Ends.modify _) ?_
  rintro _ fifth hfifth
  refine (conclude_output setting turn.operation responses fifth).weaken ?_
  rintro _ final ⟨variants, hfinal, hvariants⟩
  let record : OperationEntry := ⟨turn.id, ["Input"], ⟨.text "Input", input, true⟩⟩
  refine ⟨given ++ declared ++ [record, outputEntry turn.operation variants], ?_, hreplied.reached,
    fun hapart => ?_⟩
  · rw [hfinal, hfifth, hfourth, hgiven]
    simp only [List.append_assoc]
    rfl
  · rw [hreplied.responses_eq, List.forall_mem_map] at hvariants
    obtain ⟨hasked, hvariants⟩ := hvariants hapart
    rw [List.filter_map, List.forall₂_map_left_iff] at hvariants
    refine ⟨hreplied.reached, fun reply hreply => turn.emission_mem_of_answer setting hreply,
      List.forall_mem_map.mp hasked, given, declared, record, variants, rfl, ?_, hanswers, hvariants⟩
    refine List.forall_mem_cons.mpr ⟨?_, otherParts_of_declaredBy setting turn.operation hdeclared⟩
    simp [record, Response.parts]

/-- An operation in its turn declares its outputs. -/
theorem declaresInTurn_outputs :
    DeclaresInTurn setting fun turn block => turn.HeadersApart setting → turn.DeclaresOutputs setting block :=
  (declaresInTurn_replies setting).weaken fun _ _ h => h.2

/-- In a document that compiles, every operation declares what it gives back, as long as none of its responses
has two headers with one name in camel case. Each response that is an object with a schema for some media type
is declared as the union of references to its schemas. The output has one variant for each of them that takes
part, in order, with its status, its headers and a reference to its declaration, and is anything if there is
none. -/
theorem outputs_mirror {naming : Naming} {document base : Value} {options : Options} {tree : Namespace}
    (h : compile naming document base options = .ok tree) :
    ∃ c : Compilation naming document base options tree,
      (turns c.setting).map (·.source) = documentSources c.overlay.document ∧
        List.Forall₂ (fun turn block => turn.HeadersApart c.setting → turn.DeclaresOutputs c.setting block)
          (turns c.setting) c.blocks := by
  obtain ⟨c, hblocks⟩ := DeclaresInTurn.exists_compilation declaresInTurn_outputs h
  exact ⟨c, map_source_turnsFrom c.setting [] .empty _, hblocks⟩

/-- In the tree of a document, the namespace of an operation holds its output, with one variant for each
response that takes part, if no earlier operation has the same identifier, the request body is named otherwise
and no response has two headers with one name in camel case. -/
theorem outputs_found {naming : Naming} {document : Value} {base : Text} {options : Options} {tree : Namespace}
    {overlay : Overlay} {before after : List Turn} {turn : Turn}
    (h : compile naming document (.text base) options = .ok tree)
    (hoverlay : Overlay.ofDocument document = .ok overlay)
    (hbody : naming.ofText "Body" ≠ "Output")
    (hturns : turns ⟨overlay, naming, .text base, options⟩ = before ++ turn :: after)
    (hfirst : ∀ earlier ∈ before, naming.ofText earlier.id ≠ naming.ofText turn.id)
    (hapart : turn.HeadersApart ⟨overlay, naming, .text base, options⟩) :
    ∃ variants, tree.find? (turn.member naming base "Output") =
        .ok (some ⟨.text "Output", outputOf variants, true⟩) ∧
      List.Forall₂ (fun reply => HasVariant ⟨overlay, naming, .text base, options⟩ turn.operation
          (reply.response ⟨overlay, naming, .text base, options⟩ turn.operation))
        ((turn.answers ⟨overlay, naming, .text base, options⟩).filter fun reply => options.admits reply.status)
        variants := by
  obtain ⟨c, hblocks⟩ := DeclaresInTurn.exists_compilation
    (fun setting => (declaresInTurn_inputs setting).and (declaresInTurn_outputs setting)) h
  rw [← c.setting_eq hoverlay] at hturns hapart ⊢
  obtain ⟨block, ⟨hinputs, houtputs⟩, hmem, hfind⟩ :=
    c.exists_block hblocks (fun _ _ hblock => hblock.1.operation_eq) hturns hfirst
  obtain ⟨front, fields, output, rfl, -, -, hfront⟩ := hinputs.exists_records
  obtain ⟨arguments, declared, input, variants, hblock, -, -, hvariants⟩ := (houtputs hapart).declares
  obtain ⟨-, hrecords⟩ := List.append_inj' hblock rfl
  cases hrecords
  refine ⟨variants, hfind (front ++ [turn.inputEntry fields]) (outputEntry turn.operation variants) [] _ _
    (by simp) rfl rfl ?_, hvariants⟩
  intro entry hentry hpart hname
  rcases List.mem_append.mp hentry with hentry | hentry
  · rw [c.name_of_body hmem (List.mem_append_left _ hentry) (hfront entry hentry hpart)] at hname
    exact hbody (Scalar.text.inj (Value.scalar.inj hname))
  · cases List.mem_singleton.mp hentry
    cases hname

/-- The fields of headers are named and required as the headers are. -/
theorem map_headerFields {scope : Scope} {headers : List Header} {fields : List (Field TypeExpr)}
    (h : List.Forall₂ (Header.HasField scope) headers fields) :
    fields.map (fun field => (field.name, field.required)) =
      headers.map fun header => (.text header.fieldName, header.required) := by
  induction h with
  | nil => rfl
  | cons hfield _ ih =>
    obtain ⟨s, alternatives, hs, -, rfl⟩ := hfield
    rw [List.map_cons, List.map_cons, ih, Header.fieldName_of_text hs]

/-- Headers with different names as fields are apart. -/
theorem pairwise_apart_of_nodup {headers : List Header} (h : (headers.map Header.fieldName).Nodup) :
    headers.Pairwise Header.Apart := by
  refine (List.pairwise_map.mp h).imp fun {first second} hne s t hs ht => ?_
  rwa [Header.fieldName_of_text hs, Header.fieldName_of_text ht] at hne

/-- A shared response with three headers, one of which is shared and one of which has no schema. -/
def sharedReplies : Members :=
  let limit : Value := .record [("required", .bool true), ("schema", .record [("type", .text "integer")])]
  let headers : Value := .record [("X-Rate-Limit", .record [("$ref", .text "#/components/headers/Limit")]),
    ("X-Empty", .record []), ("x_next", .record [("schema", .record [("type", .text "string")])])]
  let content : Value := .record [("application/json", .record [("schema", .bool true)])]
  [(.text "headers", .record [("Limit", limit)]),
    (.text "responses", .record [("Pet", .record [("content", content), ("headers", headers)])])]

/-- A document whose operation has this response, one without content, and one with two schemas for any other
status. -/
def replyingDocument : Members :=
  let content : Value := .record [("application/json", .record [("schema", .bool true)]),
    ("text/plain", .record [("schema", .record [("type", .text "string")])])]
  operationDocument sharedReplies [] [] [("responses", .record [
    ("200", .record [("$ref", .text "#/components/responses/Pet")]),
    ("204", .record [("description", .text "nothing")]),
    ("default", .record [("content", content)])])]

/-- Options that let one status take part. -/
def okayOnly : Options := ⟨some [200], false⟩

/-- The setting of such a document. -/
def replyingSetting : Setting := ⟨⟨replyingDocument, sharedReplies, []⟩, .standard, .text "API", okayOnly⟩

/-- The document compiles. -/
theorem exists_compile_replying :
    ∃ tree, compile .standard (.object replyingDocument) (.text "API") okayOnly = .ok tree :=
  exists_eq_ok (by decide +kernel)

/-- The document has one operation, and two of its responses have content. -/
theorem exists_turn_replying :
    ∃ turn first second, turns replyingSetting = [turn] ∧ turn.operation = ⟨"changePet", "PUT /pet"⟩ ∧
      turn.answers replyingSetting = [first, second] ∧ turn.HeadersApart replyingSetting ∧
      first.status = "200" ∧ second.status = "default" ∧
      (first.headers replyingSetting turn.operation).map (fun header => (header.fieldName, header.required)) =
        [(("xRateLimit" : Text), true), ("xNext", false)] := by
  have hturns : (turns replyingSetting).map (fun turn => ((turn.operation.id, turn.operation.place),
      (turn.answers replyingSetting).map (·.status))) =
        [((("changePet" : Text), ("PUT /pet" : Text)), [("200" : Text), "default"])] := by
    decide +kernel
  have hheaders : (turns replyingSetting).map (fun turn => (turn.answers replyingSetting).map fun reply =>
      (reply.headers replyingSetting turn.operation).map fun header => (header.fieldName, header.required)) =
        [[[(("xRateLimit" : Text), true), ("xNext", false)], []]] := by
    decide +kernel
  have hapart : ((turns replyingSetting).all fun turn => (turn.answers replyingSetting).all fun reply =>
      decide ((reply.headers replyingSetting turn.operation).map Header.fieldName).Nodup) = true := by
    decide +kernel
  obtain ⟨turn, hturn, hdata⟩ := List.map_eq_singleton_iff.mp hturns
  obtain ⟨hoperation, hstatuses⟩ := Prod.mk.inj hdata
  obtain ⟨first, rest, hanswers, hfirst, hrest⟩ := List.map_eq_cons_iff.mp hstatuses
  obtain ⟨second, rfl, hsecond⟩ := List.map_eq_singleton_iff.mp hrest
  rw [hturn, List.map_singleton, hanswers] at hheaders
  rw [hturn, List.all_cons, List.all_nil, Bool.and_true, List.all_eq_true] at hapart
  refine ⟨turn, first, second, hturn, ?_, hanswers, fun reply hreply => ?_, hfirst, hsecond, ?_⟩
  · exact congrArg (fun data : Text × Text => Operation.mk data.1 data.2) hoperation
  · exact pairwise_apart_of_nodup (of_decide_eq_true (hapart reply hreply))
  · exact (List.cons_eq_cons.mp (List.singleton_inj.mp hheaders)).1

/-- A response whose status does not take part is declared but has no variant. -/
theorem outputs_mirror_replying :
    ∃ tree, compile .standard (.object replyingDocument) (.text "API") okayOnly = .ok tree ∧
      ∃ (c : Compilation .standard (.object replyingDocument) (.text "API") okayOnly tree)
        (fields : List (Field TypeExpr)) (names : List Value),
        outputEntry ⟨"changePet", "PUT /pet"⟩ [.object
          [⟨.text "status", .literal (.int 200), true, true⟩,
            ⟨.text "headers", .nonNull (.object fields (some otherHeaders)), true, true⟩,
            ⟨.text "body", .reference names, true, true⟩] none] ∈ c.blocks.flatten ∧
        fields.map (fun field => (field.name, field.required)) =
          [(.text "xRateLimit", true), (.text "xNext", false)] ∧
        ∃ entry ∈ c.blocks.flatten, entry.parts = [("Responses" : Text), "$default"] := by
  obtain ⟨tree, h⟩ := exists_compile_replying
  obtain ⟨turn, first, second, hturn, hoperation, hanswers, hapart, hokay, hdefault, hheaders⟩ :=
    exists_turn_replying
  obtain ⟨c, -, hblocks⟩ := outputs_mirror h
  have hsetting : c.setting = replyingSetting := c.setting_eq rfl
  rw [hsetting, hturn] at hblocks
  obtain ⟨block, rest, hblock, -, hc⟩ := List.forall₂_cons_left_iff.mp hblocks
  obtain ⟨arguments, declared, input, variants, rfl, -, hdeclared, hvariants⟩ := (hblock hapart).declares
  have hadmits : replyingSetting.options.admits "200" = true ∧
      replyingSetting.options.admits "default" = false := by decide
  simp only [hanswers, List.filter_cons, hokay, hdefault, hadmits, if_true, Bool.false_eq_true, if_false,
    List.filter_nil] at hvariants hdeclared
  obtain ⟨variant, others, ⟨status, fields, names, hstatus, hfields, -, rfl⟩, hnone, rfl⟩ :=
    List.forall₂_cons_left_iff.mp hvariants
  cases hnone
  obtain ⟨okay, other, -, hother, rfl⟩ := List.forall₂_cons_left_iff.mp hdeclared
  obtain ⟨entry, none, hentry, -, rfl⟩ := List.forall₂_cons_left_iff.mp hother
  have hcode : status = .literal (.int 200) := by
    change HasStatusType first.status status at hstatus
    rw [hokay] at hstatus
    cases hstatus with
    | code digits value => exact congrArg (fun n : Nat => TypeExpr.literal (.int n)) (Option.some.inj value).symm
    | number other => cases other
  have hrequired : (first.response replyingSetting turn.operation).headers.any (·.required) = true := by
    have hany := congrArg (List.any · (·.2)) hheaders
    rwa [List.any_map] at hany
  have hnamed := congrArg (List.map (Prod.map Scalar.text id)) hheaders
  rw [List.map_map] at hnamed
  rw [hcode, hrequired, hoperation] at hc
  refine ⟨tree, h, c, fields, names, ?_, (map_headerFields hfields).trans hnamed, entry, ?_, ?_⟩
  · rw [hc, List.flatten_cons]
    simp
  · rw [hc, List.flatten_cons]
    simp
  · rw [hentry.parts_eq]
    exact congrArg Response.parts hdefault

end SchemaTypes.Api
