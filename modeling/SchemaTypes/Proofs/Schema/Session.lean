import SchemaTypes.Proofs.Schema.Resolution

/-!
# Sessions

A session is a sequence of calls that build types or resolve what is pending, over one state. A call
may fail, and the next one goes on where it stopped. Whatever the calls are, the discovered references
are those taken up so far, in that order, followed by those pending, and none occurs twice. So all
resolutions of a session together answer each path at most once, in the order of discovery. Every
call ends at the place where it started: resolving leaves it to declare a reference and comes back,
also if the declaration fails.

The state of a session stands for a place and two lists of proper paths. One call takes up some of the
pending paths and lets others queue up behind, and this is all that it does.
-/

namespace SchemaTypes

namespace Schema

open Build

/-- The object type of a schema visits its properties and its pattern properties. -/
theorem objectType_explores (scope : Scope) (members : Members) :
    Explores (fun place => objectType (scope.reportingAt place) members)
      (referencesUnder "properties" members ++ referencesUnder "patternProperties" members) := by
  refine objectOf_explores members
    (fieldsUnder_explores scope "properties" _ members fun schema _ => types_explores scope schema)
    (fieldsUnder_explores scope "patternProperties" _ members fun schema _ => types_explores scope schema)
    fun habsent => ?_
  rw [referencesUnder_eq, propertyReferencesHeld_of_absent habsent]

/-- The array type of a schema visits its items, unless no length satisfies its bounds. -/
theorem arrayType_explores (scope : Scope) (members : Members) :
    Explores (fun place => arrayType (scope.reportingAt place) members)
      (if unsatisfiable members then [] else itemReferences members) :=
  arrayOf_explores members
    (itemTypes_explores scope members fun schema _ => types_explores scope schema)

end Schema

namespace Resolution

open Faulting Build Discovery Schema

/-- A call that builds. -/
inductive BuildCall where
  | register (ref : Value)
  | types (schema : Value)
  | objectType (schema : Value)
  | arrayType (schema : Value)
  | declare (schema name : Value) (ambient : Bool)

/-- A call of a session. -/
inductive Call where
  | build (call : BuildCall)
  | resolve

/-- What a call that builds gives. -/
inductive Built where
  | target (target : Target)
  | types (types : List TypeExpr)
  | type (type : TypeExpr)
  | declaration (declaration : Declaration)

/-- What a call gives. -/
inductive Answer where
  | built (result : Built)
  | entries (entries : List Entry)

/-- The paths that an outcome answers, which are those of its entries. -/
def answeredPaths : Except Fault Answer → List (List Value)
  | .ok (.entries entries) => entries.map (·.path)
  | _ => []

/-- Make a call that builds. -/
def BuildCall.run (scope : Scope) : BuildCall → Build Built
  | register ref => do return .target (← scope.register ref)
  | types schema => do return .types (← Schema.types scope schema)
  | objectType schema => do
    let members ← Fault.ofMalformed schema.members
    return .type (← Schema.objectType scope members)
  | arrayType schema => do
    let members ← Fault.ofMalformed schema.members
    return .type (← Schema.arrayType scope members)
  | declare schema name ambient => do return .declaration (← Schema.declare scope schema name ambient)

/-- Make a call. -/
def Call.run (document : Value) (scope : Scope) : Call → Resolve Answer
  | build call => do return .built (← Resolution.build scope fun scope => call.run scope)
  | resolve => do return .entries (← Resolution.resolve document scope)

/-- The calls made so far with their outcomes, and the state they lead to. -/
structure Session where
  transcript : List (Call × Except Fault Answer)
  state : Resolution

/-- Make calls one after the other, whether they fail or not. -/
def runCalls (document : Value) (scope : Scope) : List Call → Resolution → Session
  | [], state => ⟨[], state⟩
  | call :: rest, state =>
    let (outcome, next) := (call.run document scope).run state
    let session := runCalls document scope rest next
    ⟨(call, outcome) :: session.transcript, session.state⟩

/-- The paths that a call visits if it succeeds. -/
def BuildCall.references : BuildCall → List (List Text)
  | register ref => visitedPath ref
  | types schema => Schema.references schema
  | objectType (.object members) =>
    referencesUnder "properties" members ++ referencesUnder "patternProperties" members
  | arrayType (.object members) => if unsatisfiable members then [] else itemReferences members
  | declare schema _ _ => Schema.references schema
  | _ => []

/-- Every call that builds visits its paths. -/
theorem BuildCall.explores (scope : Scope) (call : BuildCall) :
    Explores (fun place => call.run (scope.reportingAt place)) call.references := by
  cases call with
  | register ref => exact (register_explores scope ref).map Built.target
  | types schema => exact (types_explores scope schema).map Built.types
  | declare schema name ambient => exact (declare_explores scope schema name ambient).map Built.declaration
  | objectType schema =>
    cases schema with
    | scalar s => exact Explores.throw (.malformed .notObject) []
    | list items => exact Explores.throw (.malformed .notObject) []
    | object members => exact (objectType_explores scope members).map Built.type
  | arrayType schema =>
    cases schema with
    | scalar s => exact Explores.throw (.malformed .notObject) []
    | list items => exact Explores.throw (.malformed .notObject) []
    | object members => exact (arrayType_explores scope members).map Built.type

/-- The paths that a call visits have segments and none of them is empty. -/
theorem BuildCall.proper_of_mem {call : BuildCall} {path : List Text} (h : path ∈ call.references) :
    Pointer.Proper path := by
  have hunder (name : Text) (members : Members) :
      referencesUnder name members ⊆ (Value.object members).writtenPaths := by
    rw [Value.writtenPaths]
    exact referencesUnder_subset name members fun schema _ => references_subset_writtenPaths schema
  cases call with
  | register ref => exact Value.proper_of_mem_addressedPath (visitedPath_subset ref h)
  | types schema => exact proper_of_mem_references h
  | declare schema name ambient => exact proper_of_mem_references h
  | objectType schema =>
    cases schema with
    | scalar s => cases h
    | list items => cases h
    | object members =>
      rcases List.mem_append.mp h with h | h
      · exact Value.proper_of_mem_writtenPaths (hunder _ members h)
      · exact Value.proper_of_mem_writtenPaths (hunder _ members h)
  | arrayType schema =>
    cases schema with
    | scalar s => cases h
    | list items => cases h
    | object members =>
      simp only [references] at h
      split at h
      · cases h
      · have hwritten : path ∈ (Value.object members).writtenPaths := by
          rw [Value.writtenPaths]
          exact itemReferences_subset members
            (fun schema _ => references_subset_writtenPaths schema) h
        exact Value.proper_of_mem_writtenPaths hwritten

/-- The place and the lists of paths, declared and pending, that a state of resolution stands for. -/
structure Tracks (state : Resolution) (place : Option Text) (declared pending : List (List Text)) :
    Prop where
  state_eq : state = ofPaths declared pending place
  proper : ∀ path ∈ declared ++ pending, Pointer.Proper path
  nodup : (declared ++ pending).Nodup

/-- A call takes up some paths after those declared before and leaves others pending, and no known path
changes its position. What the call answers is among the paths it takes up. It reports a fault at the
place where it starts or, if it resolves, at a path that was taken up. -/
structure Advances (start : Option Text) (call : Call) (outcome : Except Fault Answer)
    (declared pending taken left : List (List Text)) : Prop where
  known_prefix : declared ++ pending <+: declared ++ taken ++ left
  answered : ∃ paths : List (List Text), paths.Sublist taken ∧
    answeredPaths outcome = paths.map (·.map .text)
  reported : ∀ cause place, outcome = .error (.schema cause place) →
    place = start ∨ call = .resolve ∧ ∃ path ∈ declared ++ taken, place = some (Pointer.join path)

variable {document : Value} {scope : Scope} {state : Resolution} {start : Option Text}
  {declared pending : List (List Text)}

/-- Proper paths queue up behind the known ones. -/
theorem Tracks.queue (h : Tracks state start declared pending) {paths : List (List Text)}
    (hpaths : ∀ path ∈ paths, Pointer.Proper path) :
    Tracks (ofPaths declared (pending ++ fresh (declared ++ pending) paths) start) start declared
      (pending ++ fresh (declared ++ pending) paths) := by
  refine ⟨rfl, fun path hpath => ?_, ?_⟩
  · rw [← List.append_assoc, List.mem_append] at hpath
    rcases hpath with hpath | hpath
    · exact h.proper path hpath
    · exact hpaths path (mem_fresh.mp hpath).1
  · rw [← List.append_assoc]
    exact nodup_append_fresh h.nodup paths

/-- A call that builds takes up nothing and lets the paths it visits queue up. -/
theorem Tracks.run_build (h : Tracks state start declared pending) (document : Value) (scope : Scope)
    (call : BuildCall) :
    ∃ left, Tracks (((Call.build call).run document scope).run state).2 start (declared ++ []) left ∧
      Advances start (.build call) (((Call.build call).run document scope).run state).1 declared pending
        [] left := by
  have hexplores := call.explores scope
  obtain ⟨outcome, visited, hfront, -, hrun⟩ := hexplores
  have hvisited : ∀ path ∈ visited, Pointer.Proper path := fun path hpath =>
    BuildCall.proper_of_mem (hfront.subset hpath)
  have hadd : (Discovery.ofPaths declared pending).addAll visited =
      .ofPaths declared (pending ++ fresh (declared ++ pending) visited) :=
    addAll_ofPaths (fun path hpath => (h.proper path hpath).no_empty)
      fun path hpath => (hvisited path hpath).no_empty
  have hplaced := hrun start (.ofPaths declared pending)
  rw [hadd] at hplaced
  have hstep : ((Call.build call).run document scope).run state =
      ((outcome.mapError (Fault.reportedAt start)).map Answer.built,
        ofPaths declared (pending ++ fresh (declared ++ pending) visited) start) := by
    rw [h.state_eq, Call.run, run_bind, Resolution.run_build, ofPaths]
    simp only [hplaced]
    cases outcome <;> rfl
  rw [hstep, List.append_nil]
  refine ⟨_, h.queue hvisited, ?_, ⟨[], List.nil_sublist _, ?_⟩, ?_⟩
  · rw [List.append_nil, ← List.append_assoc]
    exact List.prefix_append _ _
  · cases outcome <;> rfl
  · intro cause place hfault
    exact Or.inl (Fault.place_eq_of_mapError (eq_error_of_map hfault))

/-- A path without a declaration is reported at the place of the scope or at the path. -/
theorem place_of_declaredAt {path : List Text} {cause : SchemaFault} {place : Option Text}
    (h : declaredAt document scope path = .error (.schema cause place)) :
    place = scope.path ∨ place = some (Pointer.join path) := by
  rw [declaredAt] at h
  split at h
  · cases h
  · cases h
    exact Or.inl rfl
  · rename_i schema _
    obtain ⟨outcome, visited, -, -, hrun⟩ :=
      declare_explores scope schema (.text (path.getLastD "")) (path.length = 1)
    have hplaced := congrArg Prod.fst (hrun (some (Pointer.join path)) .empty)
    exact Or.inr (Fault.place_eq_of_mapError (hplaced.symm.trans h))

/-- The loop over the pending paths takes up some of them, and what is known stays in its place. -/
theorem Runs.tracks {outcome : Except Fault (List (List Text × Declaration))}
    {last left : List (List Text)} (h : Runs document scope declared pending outcome last left)
    (htracks : Tracks (ofPaths declared pending start) start declared pending) :
    ∃ taken, last = declared ++ taken ∧ Tracks (ofPaths last left start) start last left ∧
      declared ++ pending <+: last ++ left ∧
      (∀ results, outcome = .ok results → taken = results.map (·.1)) ∧
      ∀ cause place, outcome = .error (.schema cause place) →
        place = scope.path ∨ ∃ path ∈ last, place = some (Pointer.join path) := by
  induction h with
  | done =>
    refine ⟨[], by simp, htracks, List.prefix_rfl, ?_, nofun⟩
    rintro _ ⟨⟩
    rfl
  | @stop declared rest visited path fault hfault hvisited =>
    have htaken : Tracks (ofPaths (declared ++ [path]) rest start) start (declared ++ [path]) rest :=
      ⟨rfl, by simpa using htracks.proper, by simpa using htracks.nodup⟩
    refine ⟨[path], rfl, htaken.queue fun p hp => proper_of_mem_referencesAt (hvisited hp), ?_, nofun, ?_⟩
    · simp
    · rintro cause place ⟨⟩
      rcases place_of_declaredAt hfault with hplace | hplace
      · exact Or.inl hplace
      · exact Or.inr ⟨path, by simp, hplace⟩
  | @step declared rest path declaration outcome last left _ _ ih =>
    have htaken : Tracks (ofPaths (declared ++ [path]) rest start) start (declared ++ [path]) rest :=
      ⟨rfl, by simpa using htracks.proper, by simpa using htracks.nodup⟩
    obtain ⟨taken, rfl, hlast, hfront, hresults, hplace⟩ :=
      ih (htaken.queue fun p hp => proper_of_mem_referencesAt hp)
    refine ⟨path :: taken, by simp, hlast, ?_, ?_, ?_⟩
    · refine List.IsPrefix.trans ?_ hfront
      simp
    · intro results hok
      obtain ⟨others, rfl⟩ := exists_eq_ok_of_map hok
      cases hok
      rw [hresults others rfl, List.map_cons]
    · intro cause place herror
      exact hplace cause place (eq_error_of_map herror)

/-- A call that resolves takes up pending paths and those discovered on the way, and answers all of
them if it succeeds. -/
theorem Tracks.run_resolve (h : Tracks state start declared pending) (document : Value) (scope : Scope) :
    ∃ taken left, Tracks ((Call.resolve.run document scope).run state).2 start (declared ++ taken) left ∧
      Advances start .resolve ((Call.resolve.run document scope).run state).1 declared pending taken
        left := by
  obtain ⟨outcome, last, left, hruns, hrun⟩ :=
    Resolution.run_resolve document scope start declared pending h.proper h.nodup
  have htracks : Tracks (ofPaths declared pending start) start declared pending := h.state_eq ▸ h
  obtain ⟨taken, rfl, hlast, hfront, hresults, hplace⟩ := hruns.tracks htracks
  have hstep : (Call.resolve.run document scope).run state =
      (outcome.map fun results => Answer.entries (results.map entryOf),
        ofPaths (declared ++ taken) left start) := by
    rw [h.state_eq, Call.run, run_bind, hrun]
    cases outcome <;> rfl
  rw [hstep]
  refine ⟨taken, left, hlast, hfront, ?_, ?_⟩
  · cases outcome with
    | error fault => exact ⟨[], List.nil_sublist _, rfl⟩
    | ok results =>
      refine ⟨taken, List.Sublist.refl _, ?_⟩
      rw [hresults results rfl]
      simp [Except.map, answeredPaths, entryOf]
  · intro cause place herror
    rcases hplace cause place (eq_error_of_map herror) with hplace | hplace
    · exact Or.inl hplace
    · exact Or.inr ⟨rfl, hplace⟩

/-- One call advances the lists of paths that the state stands for. -/
theorem Tracks.run_call (h : Tracks state start declared pending) (document : Value) (scope : Scope)
    (call : Call) :
    ∃ taken left, Tracks ((call.run document scope).run state).2 start (declared ++ taken) left ∧
      Advances start call ((call.run document scope).run state).1 declared pending taken left := by
  cases call with
  | build call => exact ⟨[], h.run_build document scope call⟩
  | resolve => exact h.run_resolve document scope

/-- The paths answered by all calls of a session that succeeded, one after the other. -/
def Session.answered (session : Session) : List (List Value) :=
  session.transcript.flatMap fun exchange => answeredPaths exchange.2

/-- Several calls advance the lists of paths as one call does. -/
theorem Tracks.runCalls (h : Tracks state start declared pending) (document : Value) (scope : Scope)
    (calls : List Call) :
    ∃ taken left, Tracks (runCalls document scope calls state).state start (declared ++ taken) left ∧
      declared ++ pending <+: declared ++ taken ++ left ∧
      (∃ paths : List (List Text), paths.Sublist taken ∧
        (runCalls document scope calls state).answered = paths.map (·.map .text)) ∧
      ∀ call cause place,
        (call, .error (.schema cause place)) ∈ (runCalls document scope calls state).transcript →
          place = start ∨
            call = .resolve ∧ ∃ path ∈ declared ++ taken, place = some (Pointer.join path) := by
  induction calls generalizing state declared pending with
  | nil =>
    rw [Resolution.runCalls]
    exact ⟨[], pending, by simpa using h, by simp, ⟨[], List.Sublist.refl _, rfl⟩, nofun⟩
  | cons call rest ih =>
    obtain ⟨taken, left, htracks, hadvances⟩ := h.run_call document scope call
    obtain ⟨others, last, hfinal, hfront, ⟨later, hlater, hanswered⟩, hplaces⟩ := ih htracks
    obtain ⟨paths, hpaths, hfirst⟩ := hadvances.answered
    rw [List.append_assoc declared taken others] at hfinal hfront hplaces
    refine ⟨taken ++ others, last, hfinal, hadvances.known_prefix.trans hfront,
      ⟨paths ++ later, hpaths.append hlater, ?_⟩, ?_⟩
    · rw [List.map_append, ← hfirst, ← hanswered]
      rfl
    · intro other cause place hmem
      rcases List.mem_cons.mp hmem with hhead | htail
      · obtain ⟨rfl, houtcome⟩ := Prod.mk.inj hhead
        rcases hadvances.reported cause place houtcome.symm with hplace | ⟨hcall, path, hpath, hplace⟩
        · exact Or.inl hplace
        · refine Or.inr ⟨hcall, path, ?_, hplace⟩
          rw [← List.append_assoc]
          exact List.mem_append_left _ hpath
      · exact hplaces other cause place htail

/-- What is discovered in a session are the references taken up so far and those pending, in this
order and each once, under the canonical spellings of proper paths. The session is at the place where it
started. Faults are reported there or, when resolving, at a reference taken up. The paths answered are
all different and follow the order of discovery. -/
structure Session.Consistent (start : Option Text) (session : Session) : Prop where
  keys_eq : session.state.discovery.found.map (·.1) =
    session.state.resolved ++ session.state.discovery.pending
  nodup : (session.state.discovery.found.map (·.1)).Nodup
  disjoint : ∀ key ∈ session.state.resolved, key ∉ session.state.discovery.pending
  canonical : ∀ key path, (key, path) ∈ session.state.discovery.found →
    path ≠ [] ∧ ("" : Text) ∉ path ∧ key = Pointer.join path ∧ Pointer.split key = path
  place_eq : session.state.place = start
  reported : ∀ call cause place, (call, .error (.schema cause place)) ∈ session.transcript →
    place = start ∨ call = .resolve ∧ ∃ key ∈ session.state.resolved, place = some key
  answered : ∃ paths : List (List Text), session.answered = paths.map (·.map .text) ∧
    paths.Nodup ∧ paths.Sublist (session.state.discovery.found.map (·.2))

/-- Proper paths that are different have different canonical spellings. -/
theorem Tracks.nodup_keys (h : Tracks state start declared pending) :
    ((declared ++ pending).map Pointer.join).Nodup := by
  apply List.Nodup.map_on _ h.nodup
  intro path hpath other hother
  exact Pointer.join_injective (h.proper path hpath).no_empty (h.proper other hother).no_empty

/-- Nothing is known in an empty state. -/
theorem tracks_emptyAt (start : Option Text) : Tracks (.emptyAt start) start [] [] :=
  ⟨rfl, nofun, List.nodup_nil⟩

/-- A session that starts with nothing is consistent. -/
theorem consistent_runCalls (document : Value) (scope : Scope) (start : Option Text)
    (calls : List Call) : (runCalls document scope calls (.emptyAt start)).Consistent start := by
  obtain ⟨declared, pending, htracks, -, ⟨paths, hpaths, hanswered⟩, hplaces⟩ :=
    (tracks_emptyAt start).runCalls document scope calls
  rw [List.nil_append] at htracks hplaces
  have hkeys := htracks.nodup_keys
  have hstate := htracks.state_eq
  refine ⟨?_, ?_, ?_, ?_, ?_, ?_, paths, hanswered, ?_, ?_⟩
  · rw [hstate, ofPaths, keys_ofPaths, List.map_append]
    rfl
  · rwa [hstate, ofPaths, keys_ofPaths]
  · rw [hstate]
    rw [List.map_append, List.nodup_append] at hkeys
    intro key hkey hpending
    exact hkeys.2.2 key hkey key hpending rfl
  · intro key path hmem
    rw [hstate] at hmem
    obtain ⟨known, hknown, hentry⟩ := List.mem_map.mp hmem
    cases hentry
    have hproper := htracks.proper path hknown
    exact ⟨hproper.ne_nil, hproper.no_empty, rfl, Pointer.split_join_of_not_mem hproper.no_empty⟩
  · rw [hstate]
    rfl
  · intro call cause place hmem
    rcases hplaces call cause place hmem with hplace | ⟨hcall, path, hpath, hplace⟩
    · exact Or.inl hplace
    · refine Or.inr ⟨hcall, Pointer.join path, ?_, hplace⟩
      rw [hstate]
      exact List.mem_map_of_mem hpath
  · exact hpaths.nodup (List.nodup_append.mp htracks.nodup).1
  · rw [hstate, ofPaths, paths_ofPaths]
    exact hpaths.trans (List.sublist_append_left declared pending)

/-- Further calls go on where the calls before them stopped. -/
theorem runCalls_append (document : Value) (scope : Scope) (before after : List Call)
    (state : Resolution) :
    (runCalls document scope (before ++ after) state).state =
      (runCalls document scope after (runCalls document scope before state).state).state := by
  induction before generalizing state with
  | nil => rfl
  | cons call rest ih => exact ih _

/-- Whatever calls are made, one after the other and whether they fail or not, the session they make
up is consistent: it is at the place where it started after each of them, and further calls only add
references behind those discovered and those taken up. -/
theorem session_consistent (document : Value) (scope : Scope) (start : Option Text)
    (before after : List Call) :
    (runCalls document scope before (.emptyAt start)).Consistent start ∧
      (runCalls document scope before (.emptyAt start)).state.resolved <+:
        (runCalls document scope (before ++ after) (.emptyAt start)).state.resolved ∧
      (runCalls document scope before (.emptyAt start)).state.discovery.found <+:
        (runCalls document scope (before ++ after) (.emptyAt start)).state.discovery.found := by
  obtain ⟨declared, pending, htracks, -⟩ :=
    (tracks_emptyAt start).runCalls document scope before
  obtain ⟨taken, left, hfinal, hfront, -⟩ := htracks.runCalls document scope after
  rw [runCalls_append, hfinal.state_eq, htracks.state_eq]
  refine ⟨consistent_runCalls document scope start before, ?_, hfront.map _⟩
  exact (List.prefix_append _ taken).map Pointer.join

end Resolution

end SchemaTypes
