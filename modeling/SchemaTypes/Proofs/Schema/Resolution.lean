import SchemaTypes.Proofs.Namespace.Lookup
import SchemaTypes.Proofs.Schema.Discovery
import SchemaTypes.Proofs.Schema.Written

/-!
# Draining the pending references

Declaring the pending references takes one path after the other: it declares what the path leads to
as if nothing else had been built, and lets the fresh paths visited there queue up behind. It ends
with nothing pending, or at the first path that cannot be declared. `Runs` is this loop as a relation,
without a bound on its steps, and `Drains` is the loop that comes to its end.

The bound is enough because every step removes a path from those pending, and a path that joins them
is one of the finitely many written in the document and was not known before.
-/

namespace SchemaTypes

namespace Schema

/-- The paths visited in the schema that a path leads to, if it leads to one. -/
def referencesAt (document : Value) (path : List Text) : List (List Text) :=
  match Pointer.target? document path with
  | .ok (some schema) => references schema
  | _ => []

/-- Every path visited at a path has segments and none of them is empty. -/
theorem proper_of_mem_referencesAt {document : Value} {path inner : List Text}
    (h : inner ∈ referencesAt document path) : Pointer.Proper inner := by
  rw [referencesAt] at h
  split at h
  · exact proper_of_mem_references h
  · cases h

/-- Every path visited at a path is written in the document. -/
theorem referencesAt_subset_writtenPaths (document : Value) (path : List Text) :
    referencesAt document path ⊆ document.writtenPaths := by
  rw [referencesAt]
  split
  · rename_i schema htarget
    exact List.Subset.trans (references_subset_writtenPaths schema)
      (Pointer.writtenPaths_subset_of_target? htarget)
  · exact List.nil_subset _

end Schema

namespace Resolution

open Faulting Build Discovery

/-- The state in which some paths are declared and others are pending, at a place. -/
def ofPaths (declared pending : List (List Text)) (place : Option Text) : Resolution :=
  ⟨.ofPaths declared pending, declared.map Pointer.join, place⟩

/-- What a path leads to, and its declaration and the paths visited when it is built on its own. -/
structure Declares (document : Value) (scope : Scope) (path : List Text) (schema : Value)
    (declaration : Declaration) : Prop where
  target : Pointer.target? document path = .ok (some schema)
  built : (Schema.declare scope schema (.text (path.getLastD "")) (path.length = 1)).run .empty =
    (.ok declaration, Discovery.empty.addAll (Schema.references schema))

/-- The pending paths are declared one after the other, first discovered first, until none is left,
with these results. -/
inductive Drains (document : Value) (scope : Scope) :
    List (List Text) → List (List Text) → List (List Text × Declaration) → Prop where
  | done {declared : List (List Text)} : Drains document scope declared [] []
  | step {declared rest : List (List Text)} {path : List Text} {schema : Value}
      {declaration : Declaration} {results : List (List Text × Declaration)} :
      Declares document scope path schema declaration →
      Drains document scope (declared ++ [path])
        (rest ++ fresh (declared ++ [path] ++ rest) (Schema.references schema)) results →
      Drains document scope declared (path :: rest) ((path, declaration) :: results)

/-- What declaring the part of a document at a path gives when nothing else is built. A fault inside the
part is reported at the path. -/
def declaredAt (document : Value) (scope : Scope) (path : List Text) : Except Fault Declaration :=
  match Pointer.target? document path with
  | .error cause => .error (.malformed cause)
  | .ok none => .error (scope.fault (.unresolved (Pointer.join path)))
  | .ok (some schema) =>
    ((Schema.declare (scope.reportingAt (some (Pointer.join path))) schema
      (.text (path.getLastD "")) (path.length = 1)).run .empty).1

/-- Pending paths are declared one after the other until none is left or one cannot be declared: what
comes out, and which paths are declared and pending in the end. A path that cannot be declared may
have been visited in part. -/
inductive Runs (document : Value) (scope : Scope) : List (List Text) → List (List Text) →
    Except Fault (List (List Text × Declaration)) → List (List Text) → List (List Text) → Prop where
  | done {declared : List (List Text)} : Runs document scope declared [] (.ok []) declared []
  | stop {declared rest visited : List (List Text)} {path : List Text} {fault : Fault}
      (hfault : declaredAt document scope path = .error fault)
      (hvisited : visited ⊆ Schema.referencesAt document path) :
      Runs document scope declared (path :: rest) (.error fault) (declared ++ [path])
        (rest ++ fresh (declared ++ [path] ++ rest) visited)
  | step {declared rest : List (List Text)} {path : List Text} {declaration : Declaration}
      {outcome : Except Fault (List (List Text × Declaration))} {last left : List (List Text)}
      (hdeclared : declaredAt document scope path = .ok declaration)
      (hnext : Runs document scope (declared ++ [path])
        (rest ++ fresh (declared ++ [path] ++ rest) (Schema.referencesAt document path))
        outcome last left) :
      Runs document scope declared (path :: rest) (outcome.map (List.cons (path, declaration))) last left

/-- The number of written paths that are not known. -/
def unknownCount (document : Value) (known : List (List Text)) : Nat :=
  (document.writtenPaths.filter (· ∉ known)).length

/-- Fresh paths that are written are no longer unknown. -/
theorem unknownCount_append_fresh {document : Value} (known : List (List Text))
    {paths : List (List Text)} (hwritten : paths ⊆ document.writtenPaths) :
    (fresh known paths).length + unknownCount document (known ++ fresh known paths) ≤
      unknownCount document known := by
  have hsplit := List.length_eq_length_filter_add (l := document.writtenPaths.filter (· ∉ known))
    (· ∈ fresh known paths)
  have hfresh : (fresh known paths).length ≤
      ((document.writtenPaths.filter (· ∉ known)).filter (· ∈ fresh known paths)).length := by
    refine List.Nodup.length_le_of_subset (BreadthFirst.eraseDups_nodup _) fun path hpath => ?_
    obtain ⟨hmem, hunknown⟩ := mem_fresh.mp hpath
    simp [hwritten hmem, hunknown, hpath]
  have hrest : document.writtenPaths.filter (· ∉ known ++ fresh known paths) =
      (document.writtenPaths.filter (· ∉ known)).filter fun path => !decide (path ∈ fresh known paths) := by
    rw [List.filter_filter]
    refine List.filter_congr fun path _ => ?_
    by_cases hknown : path ∈ known <;> simp [hknown]
  rw [unknownCount, unknownCount, hrest]
  omega

/-- Building in a state of resolution builds in its discovery. -/
theorem run_build {α : Type} (scope : Scope) (action : Scope → Build α) (state : Resolution) :
    (build scope action).run state =
      (((action (scope.reportingAt state.place)).run state.discovery).1,
        { state with discovery := ((action (scope.reportingAt state.place)).run state.discovery).2 }) :=
  rfl

/-- What building on its own gives, it gives in a state of resolution. -/
theorem run_build_eq {α : Type} {scope : Scope} {action : Scope → Build α} {place : Option Text}
    {before after : Discovery} {resolved : List Text} {result : Except Fault α}
    (h : (action (scope.reportingAt place)).run before = (result, after)) :
    (build scope action).run ⟨before, resolved, place⟩ = (result, ⟨after, resolved, place⟩) := by
  simp only [run_build, h]

/-- What is done at another place is done in the state with this place, which then gets its own place
back. -/
theorem run_visit {α : Type} (place : Option Text) (action : Resolve α) (state : Resolution) :
    (visit place action).run state =
      ((action.run { state with place }).1, { (action.run { state with place }).2 with place := state.place }) :=
  rfl

/-- The first pending path is taken up. -/
theorem run_pop_ofPaths (declared rest : List (List Text)) (path : List Text) (place : Option Text) :
    pop.run (ofPaths declared (path :: rest) place) =
      (.ok (some (Pointer.join path)),
        ⟨.ofPaths (declared ++ [path]) rest, declared.map Pointer.join, place⟩) := by
  have happend : declared ++ [path] ++ rest = declared ++ path :: rest := by simp
  rw [Discovery.ofPaths, happend]
  rfl

/-- A schema that is declared once is declared alike everywhere. -/
theorem run_declare_of_ok {scope : Scope} {schema name : Value} {ambient : Bool}
    {place : Option Text} {d d' : Discovery} {declaration : Declaration}
    (h : (Schema.declare (scope.reportingAt place) schema name ambient).run d = (.ok declaration, d'))
    (e : Discovery) :
    (Schema.declare scope schema name ambient).run e =
      (.ok declaration, e.addAll (Schema.references schema)) :=
  (Schema.declare_explores scope schema name ambient).run_of_ok h scope.path e

/-- A pending path was not taken up before. -/
theorem contains_join_eq_false {declared rest : List (List Text)} {path : List Text}
    (hproper : ∀ p ∈ declared ++ [path] ++ rest, Pointer.Proper p)
    (hnodup : (declared ++ [path] ++ rest).Nodup) :
    (declared.map Pointer.join).contains (Pointer.join path) = false := by
  rw [List.contains_eq_mem, decide_eq_false_iff_not, List.mem_map]
  rintro ⟨known, hknown, hjoin⟩
  have hknown_proper := hproper known (by simp [hknown])
  have hpath_proper := hproper path (by simp)
  cases Pointer.join_injective hknown_proper.no_empty hpath_proper.no_empty hjoin
  have hdisjoint := (List.nodup_append.mp (List.nodup_append.mp hnodup).1).2.2
  exact hdisjoint path hknown path (List.mem_singleton_self path) rfl

/-- Taking up a path declares what it leads to and queues the fresh paths visited there, all of them if
it can be declared. -/
theorem run_declare (document : Value) (scope : Scope) (place : Option Text)
    {declared rest : List (List Text)} {path : List Text}
    (hproper : ∀ p ∈ declared ++ [path] ++ rest, Pointer.Proper p) :
    ∃ visited, visited ⊆ Schema.referencesAt document path ∧
      (∀ declaration, declaredAt document (scope.reportingAt place) path = .ok declaration →
        visited = Schema.referencesAt document path) ∧
      (declare document scope (Pointer.join path)).run
          ⟨.ofPaths (declared ++ [path]) rest, declared.map Pointer.join, place⟩ =
        ((declaredAt document (scope.reportingAt place) path).map fun declaration =>
            entryOf (path, declaration),
          ofPaths (declared ++ [path]) (rest ++ fresh (declared ++ [path] ++ rest) visited) place) := by
  have hpath : path ∈ declared ++ [path] ++ rest := by simp
  have hsegments := segments?_ofPaths (fun p hp => (hproper p hp).no_empty) (hproper path hpath).no_empty
  rw [if_pos hpath] at hsegments
  have hresolved : declared.map Pointer.join ++ [Pointer.join path] =
      (declared ++ [path]).map Pointer.join := by simp
  simp only [declare, run_bind, run_get, run_set, hsegments, run_lift, ofPaths, hresolved]
  cases htarget : Pointer.target? document path with
  | error cause =>
    refine ⟨[], List.nil_subset _, ?_, ?_⟩ <;> rw [declaredAt, htarget]
    · rintro declaration ⟨⟩
    · simp [Fault.ofMalformed, fresh]
      rfl
  | ok found =>
    cases found with
    | none =>
      refine ⟨[], List.nil_subset _, ?_, ?_⟩ <;> rw [declaredAt, htarget]
      · rintro declaration ⟨⟩
      · simp [Fault.ofMalformed, fresh]
        rfl
    | some schema =>
      obtain ⟨outcome, visited, hfront, hall, hrun⟩ :=
        Schema.declare_explores scope schema (.text (path.getLastD "")) (path.length = 1)
      have hat : declaredAt document (scope.reportingAt place) path =
          outcome.mapError (Fault.reportedAt (some (Pointer.join path))) := by
        rw [declaredAt, htarget]
        exact congrArg Prod.fst (hrun (some (Pointer.join path)) .empty)
      have hbuild := hrun (some (Pointer.join path)) (.ofPaths (declared ++ [path]) rest)
      rw [addAll_ofPaths (fun p hp => (hproper p hp).no_empty) fun p hp =>
        (Schema.proper_of_mem_references (hfront.subset hp)).no_empty] at hbuild
      refine ⟨visited, ?_, ?_, ?_⟩
      · rw [Schema.referencesAt, htarget]
        exact hfront.subset
      · intro declaration hdeclared
        rw [Schema.referencesAt, htarget]
        rw [hat] at hdeclared
        cases outcome with
        | error fault => cases hdeclared
        | ok a => exact hall a rfl
      · rw [hat]
        simp only [Fault.ofMalformed, run_bind, run_visit, run_build, hbuild]
        cases outcome <;> rfl

/-- Fresh paths that are written in the document are proper, and known paths stay proper. -/
theorem proper_append_fresh {document : Value} {known paths : List (List Text)}
    (hknown : ∀ p ∈ known, Pointer.Proper p) (hwritten : paths ⊆ document.writtenPaths) :
    ∀ p ∈ known ++ fresh known paths, Pointer.Proper p := by
  intro p hp
  rcases List.mem_append.mp hp with hp | hp
  · exact hknown p hp
  · exact Value.proper_of_mem_writtenPaths (hwritten (mem_fresh.mp hp).1)

/-- Draining the pending paths declares them one after the other, provided that there are more steps
than paths pending and written paths not known. -/
theorem run_drain {document : Value} {scope : Scope} {place : Option Text} {steps : Nat}
    {declared pending : List (List Text)}
    (hproper : ∀ p ∈ declared ++ pending, Pointer.Proper p) (hnodup : (declared ++ pending).Nodup)
    (hsteps : pending.length + unknownCount document (declared ++ pending) < steps) :
    ∃ outcome last left,
      Runs document (scope.reportingAt place) declared pending outcome last left ∧
      (drain document scope steps).run (ofPaths declared pending place) =
        (outcome.map (List.map entryOf), ofPaths last left place) := by
  induction steps generalizing declared pending with
  | zero => omega
  | succ steps ih =>
    cases pending with
    | nil => exact ⟨_, _, _, .done, rfl⟩
    | cons path rest =>
      have happend : declared ++ path :: rest = declared ++ [path] ++ rest := by simp
      rw [happend] at hproper hnodup hsteps
      obtain ⟨visited, hvisited, hall, hdeclare⟩ := run_declare document scope place hproper
      have hrun : (drain document scope (steps + 1)).run (ofPaths declared (path :: rest) place) =
          (do
            let entry ← declare document scope (Pointer.join path)
            let entries ← drain document scope steps
            return entry :: entries : Resolve (List Entry)).run
              ⟨.ofPaths (declared ++ [path]) rest, declared.map Pointer.join, place⟩ := by
        rw [drain, run_bind, run_pop_ofPaths]
        simp only [run_bind, run_get, contains_join_eq_false hproper hnodup, Bool.false_eq_true, if_false]
      rw [run_bind, hdeclare] at hrun
      cases hresult : declaredAt document (scope.reportingAt place) path with
      | error fault =>
        rw [hresult] at hrun
        exact ⟨_, _, _, .stop hresult hvisited, hrun⟩
      | ok declaration =>
        rw [hall declaration hresult, hresult] at hrun
        have hwritten := Schema.referencesAt_subset_writtenPaths document path
        have hcount := unknownCount_append_fresh (declared ++ [path] ++ rest) hwritten
        have hnext_nodup := nodup_append_fresh hnodup (Schema.referencesAt document path)
        have hnext_proper := proper_append_fresh hproper hwritten
        rw [List.append_assoc (declared ++ [path])] at hcount hnext_nodup hnext_proper
        have hnext_steps :
            (rest ++ fresh (declared ++ [path] ++ rest) (Schema.referencesAt document path)).length +
              unknownCount document (declared ++ [path] ++
                (rest ++ fresh (declared ++ [path] ++ rest) (Schema.referencesAt document path))) <
                  steps := by
          rw [List.length_append]
          rw [List.length_cons] at hsteps
          omega
        obtain ⟨outcome, last, left, hruns, hdrain⟩ := ih hnext_proper hnext_nodup hnext_steps
        refine ⟨_, _, _, .step hresult hruns, hrun.trans ?_⟩
        simp only [Except.map, run_bind, hdrain]
        cases outcome <;> rfl

/-- Resolution declares the pending paths and whatever they lead to, one after the other. -/
theorem run_resolve (document : Value) (scope : Scope) (place : Option Text)
    (declared pending : List (List Text)) (hproper : ∀ p ∈ declared ++ pending, Pointer.Proper p)
    (hnodup : (declared ++ pending).Nodup) :
    ∃ outcome last left,
      Runs document (scope.reportingAt place) declared pending outcome last left ∧
      (resolve document scope).run (ofPaths declared pending place) =
        (outcome.map (List.map entryOf), ofPaths last left place) := by
  simp only [resolve, run_bind, run_get]
  apply run_drain hproper hnodup
  have hunknown : unknownCount document (declared ++ pending) ≤ document.writtenPaths.length :=
    List.length_filter_le _ _
  have hcount := document.writtenPaths_length_le
  simp only [ofPaths, Discovery.ofPaths, List.length_map]
  omega

/-- A path whose part is declared at it has a schema, which is declared alike elsewhere. -/
theorem declares_of_declaredAt {document : Value} {scope : Scope} {path : List Text}
    {declaration : Declaration} (h : declaredAt document scope path = .ok declaration) :
    ∃ schema, Declares document scope path schema declaration := by
  rw [declaredAt] at h
  split at h
  · cases h
  · cases h
  · rename_i schema htarget
    exact ⟨schema, htarget, run_declare_of_ok (Prod.ext h rfl) .empty⟩

/-- What a path leads to is declared alike whatever is discovered before. -/
theorem Declares.run_eq {document : Value} {scope : Scope} {path : List Text} {schema : Value}
    {declaration : Declaration} (h : Declares document scope path schema declaration) (d : Discovery) :
    (Schema.declare scope schema (.text (path.getLastD "")) (path.length = 1)).run d =
      (.ok declaration, d.addAll (Schema.references schema)) := by
  have hplaced : (Schema.declare (scope.reportingAt scope.path) schema (.text (path.getLastD ""))
      (path.length = 1)).run .empty = _ := h.built
  exact run_declare_of_ok hplaced d

/-- The paths visited at a declared path are those visited in its schema. -/
theorem Declares.referencesAt_eq {document : Value} {scope : Scope} {path : List Text}
    {schema : Value} {declaration : Declaration}
    (h : Declares document scope path schema declaration) :
    Schema.referencesAt document path = Schema.references schema := by
  rw [Schema.referencesAt, h.target]

/-- A loop that ends with results has drained the pending paths. -/
theorem Runs.drains {document : Value} {scope : Scope} {declared pending last left : List (List Text)}
    {outcome : Except Fault (List (List Text × Declaration))}
    (h : Runs document scope declared pending outcome last left)
    {results : List (List Text × Declaration)} (hresults : outcome = .ok results) :
    Drains document scope declared pending results ∧ last = declared ++ results.map (·.1) ∧
      left = [] := by
  induction h generalizing results with
  | done =>
    cases hresults
    exact ⟨.done, by simp, rfl⟩
  | stop => cases hresults
  | @step declared rest path declaration outcome last left hdeclared _ ih =>
    cases outcome with
    | error fault => cases hresults
    | ok others =>
      cases hresults
      obtain ⟨schema, hdeclares⟩ := declares_of_declaredAt hdeclared
      obtain ⟨hdrains, hlast, hleft⟩ := ih rfl
      rw [hdeclares.referencesAt_eq] at hdrains
      exact ⟨.step hdeclares hdrains, by simp [hlast], hleft⟩

/-- Resolution that starts with pending paths and succeeds declares them and whatever they lead to,
one after the other until nothing is pending. -/
theorem run_resolve_ok {document : Value} {scope : Scope} {pending : List (List Text)}
    {entries : List Entry} {final : Resolution} (hproper : ∀ p ∈ pending, Pointer.Proper p)
    (hnodup : pending.Nodup)
    (h : (resolve document scope).run (ofPaths [] pending scope.path) = (.ok entries, final)) :
    ∃ results, entries = results.map entryOf ∧ Drains document scope [] pending results ∧
      final = ofPaths (results.map (·.1)) [] scope.path := by
  obtain ⟨outcome, last, left, hruns, hrun⟩ :=
    run_resolve document scope scope.path [] pending hproper hnodup
  rw [h] at hrun
  cases outcome with
  | error fault => cases hrun
  | ok results =>
    cases hrun
    obtain ⟨hdrains, rfl, rfl⟩ := hruns.drains rfl
    exact ⟨results, rfl, hdrains, rfl⟩

end Resolution

end SchemaTypes
