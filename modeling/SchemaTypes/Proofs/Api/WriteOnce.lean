import SchemaTypes.Proofs.Api.OperationId

/-!
# When the scratch area is written once

A reference to the scratch area is followed only after the walk. It leads to the schema that it was made
for if no other schema was put at the same path later. The paths are made from operation ids, statuses,
positions and, for a shared parameter, from the last segment of the reference to it alone. So two
emissions may well have a path in common, and then the later one wins.

The main statement gives the exact condition: all references keep their schemas if and only if no two
emissions put different schemas at one path. If the ids of the operations are all different and no
operation has two responses of one status, this concerns shared parameters alone.
-/

namespace SchemaTypes.Api

open Faulting Resolution Scratch TypeExpr

namespace Emission

/-- The part of the scratch area that an emission belongs to. -/
def area : Emission → Text
  | body _ _ => requestBodiesKey
  | response _ _ _ => responsesKey
  | parameter _ _ _ _ => parametersKey

/-- The length of the paths below this part. -/
def depth : Emission → Nat
  | body _ _ => 2
  | response _ _ _ => 3
  | parameter _ _ _ _ => 1

/-- The references to the schemas lead to these schemas. -/
def Kept (overlay : Value) (e : Emission) : Prop :=
  ∀ target ∈ e.targets,
    Pointer.find? overlay (Pointer.split (Pointer.join (scratchPath target.1))) = .ok (some target.2)

/-- The paths of an emission have the same first segment and the same length. -/
theorem exists_path_eq {e : Emission} {target : List Text × Value} (h : target ∈ e.targets) :
    ∃ rest, target.1 = e.area :: rest ∧ rest.length = e.depth := by
  cases e with
  | body operation schemas =>
    simp only [targets, bodyTargets, nest, numbered, List.map_map, List.mem_map] at h
    obtain ⟨indexed, -, rfl⟩ := h
    exact ⟨_, rfl, rfl⟩
  | response operation status schemas =>
    simp only [targets, responseTargets, nest, numbered, List.map_map, List.mem_map] at h
    obtain ⟨indexed, -, rfl⟩ := h
    exact ⟨_, rfl, rfl⟩
  | parameter operation name key schema =>
    rw [targets, parameterTargets, nest, List.map_singleton, List.mem_singleton] at h
    subst h
    exact ⟨_, rfl, rfl⟩

/-- Emissions in one part of the scratch area have paths of one length. -/
theorem depth_eq_of_area {e other : Emission} (h : e.area = other.area) : e.depth = other.depth := by
  revert h
  cases e <;> cases other <;> simp [area, depth, requestBodiesKey, responsesKey, parametersKey]

/-- The paths of an emission go below its part of the scratch area. -/
theorem two_le_length {e : Emission} {target : List Text × Value} (h : target ∈ e.targets) :
    2 ≤ target.1.length := by
  obtain ⟨rest, hrest, hlength⟩ := exists_path_eq h
  have hdepth : 0 < e.depth := by cases e <;> simp [depth]
  rw [hrest, List.length_cons]
  omega

/-- Two paths of emissions are the same or apart. -/
theorem eq_or_apart {e other : Emission} {target second : List Text × Value}
    (htarget : target ∈ e.targets) (hsecond : second ∈ other.targets) :
    target.1 = second.1 ∨ Apart target.1 second.1 := by
  obtain ⟨rest, hrest, hlength⟩ := exists_path_eq htarget
  obtain ⟨rest', hrest', hlength'⟩ := exists_path_eq hsecond
  by_cases hsame : target.1 = second.1
  · exact Or.inl hsame
  · right
    by_cases harea : e.area = other.area
    · refine apart_of_length ?_ hsame
      rw [hrest, hrest', List.length_cons, List.length_cons, hlength, hlength', depth_eq_of_area harea]
    · rw [hrest, hrest']
      exact ⟨fun h => harea (List.cons_prefix_cons.mp h).1,
        fun h => harea (List.cons_prefix_cons.mp h).1.symm⟩

end Emission

/-- No two emissions put different schemas at one path. -/
def Consistent (emitted : List Emission) : Prop :=
  ∀ e ∈ emitted, ∀ other ∈ emitted, ∀ target ∈ e.targets, ∀ second ∈ other.targets,
    target.1 = second.1 → target.2 = second.2

/-- Putting several emissions aside puts all their schemas at their paths. -/
theorem members_storeAll {emitted : List Emission} (h : ∀ e ∈ emitted, e.Proper) (s : Scratch) :
    (storeAll emitted s).members = putAll (emitted.flatMap Emission.targets) s.members := by
  induction emitted generalizing s with
  | nil => rfl
  | cons e rest ih =>
    obtain ⟨he, hrest⟩ := List.forall_mem_cons.mp h
    rw [List.flatMap_cons, putAll_append, ← e.members_store he.ne_nil]
    exact ih hrest (e.store s)

/-- What a reference to the scratch area leads to is the last schema that was put at its path. -/
theorem exists_find?_storeAll {emitted : List Emission} (h : ∀ e ∈ emitted, e.Proper) (s : Scratch)
    (overlay : Overlay) {e : Emission} (he : e ∈ emitted) {target : List Text × Value}
    (htarget : target ∈ e.targets) :
    ∃ other ∈ emitted, ∃ last ∈ other.targets, last.1 = target.1 ∧
      Pointer.find? (overlay.value (storeAll emitted s))
        (Pointer.split (Pointer.join (scratchPath target.1))) = .ok (some last.2) := by
  have hpaths : ∀ target ∈ emitted.flatMap Emission.targets, target.1 ≠ [] := by
    intro target htarget
    obtain ⟨e, -, hmem⟩ := List.mem_flatMap.mp htarget
    exact List.ne_nil_of_length_pos (Nat.lt_of_lt_of_le Nat.zero_lt_two (Emission.two_le_length hmem))
  have hapart : ∀ target ∈ emitted.flatMap Emission.targets,
      ∀ second ∈ emitted.flatMap Emission.targets,
        target.1 = second.1 ∨ Apart target.1 second.1 := by
    intro target htarget second hsecond
    obtain ⟨e, -, hmem⟩ := List.mem_flatMap.mp htarget
    obtain ⟨other, -, hmem'⟩ := List.mem_flatMap.mp hsecond
    exact Emission.eq_or_apart hmem hmem'
  obtain ⟨last, hlast, heq, hfound⟩ :=
    exists_at?_putAll hpaths hapart s.members (List.mem_flatMap.mpr ⟨e, he, htarget⟩)
  obtain ⟨other, hother, hmem⟩ := List.mem_flatMap.mp hlast
  refine ⟨other, hother, last, hmem, heq, ?_⟩
  rw [Pointer.split_join_of_not_mem (empty_not_mem_scratchPath ((h e he).no_empty target htarget))]
  rw [← members_storeAll h s] at hfound
  exact overlay.find?_value _ (Emission.two_le_length htarget) hfound

/-- References keep their schemas if and only if no two emissions put different schemas at one path. -/
theorem kept_iff_consistent {emitted : List Emission} (h : ∀ e ∈ emitted, e.Proper) (s : Scratch)
    (overlay : Overlay) :
    (∀ e ∈ emitted, e.Kept (overlay.value (storeAll emitted s))) ↔ Consistent emitted := by
  constructor
  · intro hkept e he other hother target htarget second hsecond hpath
    have hfirst := hkept e he target htarget
    rw [hpath, hkept other hother second hsecond] at hfirst
    exact (Option.some.inj (Except.ok.inj hfirst)).symm
  · intro hconsistent e he target htarget
    obtain ⟨other, hother, last, hlast, heq, hfound⟩ := exists_find?_storeAll h s overlay he htarget
    rw [hfound, hconsistent other hother e he last hlast target htarget heq]

/-- Every emission is declared as the union of references to its schemas, and what is declared for each
reference is made from the schema it belongs to. -/
structure Emission.DenotedIn (setting : Setting) (found : List Entry) (e : Emission) : Prop where
  union : ∃ declaration, ⟨setting.base :: (e.operation :: e.parts).map .text, declaration⟩ ∈ found ∧
    declaration.type =
      .unionOf (e.targets.map fun target => .reference (qualify setting.naming (scratchPath target.1)))
  own : ∀ target ∈ e.targets, ∃ declaration,
    ⟨(scratchPath target.1).map .text, declaration⟩ ∈ found ∧
      ((Schema.declare setting.outerScope target.2 (.text ((scratchPath target.1).getLastD ""))
        false).run .empty).1 = .ok declaration

/-- A path whose spelling is known to a sound state is one of its paths. -/
theorem Sound.mem_paths {naming : Naming} {base : Text} {state : State}
    (h : Sound naming base state) {path : List Text} (hpath : ("" : Text) ∉ path)
    (hkey : Pointer.join path ∈ state.discovery.keys) : path ∈ state.paths := by
  rw [h.discovery_eq, Discovery.keys, Discovery.keys_ofPaths, List.nil_append] at hkey
  obtain ⟨other, hother, hjoin⟩ := List.mem_map.mp hkey
  exact Pointer.join_injective (h.proper other hother).no_empty hpath hjoin ▸ hother

/-- An emission whose references keep their schemas is declared from these schemas. -/
theorem denotedIn_of_kept {overlay : Overlay} {naming : Naming} {base : Text} {options : Options}
    {requested : List Text} {emitted : List Emission} {state : State}
    (hwalk : (walk ⟨overlay, naming, .text base, options⟩).run .initial = .ok ((), state))
    (hemits : Emits naming requested emitted .initial state) {found : List Entry}
    (hfound : entries ⟨overlay, naming, .text base, options⟩ = .ok found) {e : Emission}
    (he : e ∈ emitted) (hkept : e.Kept (overlay.value state.scratch)) :
    e.DenotedIn ⟨overlay, naming, .text base, options⟩ found := by
  obtain ⟨other, results, hother, hsound, hresolves, rfl⟩ := entries_ok hfound
  have hsame : other = state := by
    cases hother.symm.trans hwalk
    rfl
  subst hsame
  refine ⟨?_, fun target htarget => ?_⟩
  · obtain ⟨added, hadded, -, hdeclared⟩ := hemits.entries
    obtain ⟨entry, hentry, hdeclares⟩ := hdeclared e he
    refine ⟨entry.declaration, ?_, hdeclares.type_eq⟩
    rw [List.map_append, List.mem_append, operationResults, List.map_map]
    left
    refine List.mem_map.mpr ⟨entry, hadded ▸ List.mem_append_right _ hentry, ?_⟩
    rw [← hdeclares.operation_eq, ← hdeclares.parts_eq]
    rfl
  · have hempty := empty_not_mem_scratchPath ((hemits.proper e he).no_empty target htarget)
    have hpath := hsound.mem_paths hempty (hemits.discovered e he target htarget)
    obtain ⟨⟨path, declaration⟩, hresult, hfst⟩ := List.mem_map.mp (hresolves.start_subset hpath)
    dsimp only at hfst
    subst hfst
    obtain ⟨schema, hdeclares⟩ := hresolves.declares _ hresult
    have hschema := Pointer.find?_of_target? hdeclares.target
    have hown := hkept target htarget
    rw [Pointer.split_join_of_not_mem hempty, hschema] at hown
    cases hown
    refine ⟨declaration, List.mem_map.mpr ⟨_, List.mem_append_right _ hresult, rfl⟩, ?_⟩
    exact congrArg Prod.fst hdeclares.built

/-- One numeral stands for one item of a list. -/
theorem eq_of_mem_zipIdx {schemas : List Value} {schema schema' : Value} {i j : Nat}
    (h : (schema, i) ∈ schemas.zipIdx) (h' : (schema', j) ∈ schemas.zipIdx)
    (hnumber : Text.ofString (toString i) = Text.ofString (toString j)) : schema = schema' := by
  rw [List.mem_zipIdx_iff_getElem?] at h h'
  rw [toString_inj hnumber] at h
  exact Option.some.inj (h.symm.trans h')

/-- Schemas of request bodies at one path belong to one operation, and in one body they are the same. -/
theorem body_conflict {operation operation' : Text} {schemas schemas' : List Value}
    {target second : List Text × Value} (htarget : target ∈ bodyTargets operation schemas)
    (hsecond : second ∈ bodyTargets operation' schemas') (h : target.1 = second.1) :
    operation = operation' ∧ (schemas = schemas' → target.2 = second.2) := by
  simp only [bodyTargets, nest, numbered, List.map_map, List.mem_map] at htarget hsecond
  obtain ⟨⟨schema, i⟩, hmem, rfl⟩ := htarget
  obtain ⟨⟨schema', j⟩, hmem', rfl⟩ := hsecond
  simp only [Function.comp_apply, List.cons.injEq, Text.append_right_inj, and_true, true_and] at h
  obtain ⟨rfl, hnumber⟩ := h
  refine ⟨rfl, ?_⟩
  rintro rfl
  exact eq_of_mem_zipIdx hmem hmem' hnumber

/-- Schemas of responses at one path belong to one operation and one status, and in one response they are
the same. -/
theorem response_conflict {operation operation' status status' : Text} {schemas schemas' : List Value}
    {target second : List Text × Value} (htarget : target ∈ responseTargets operation status schemas)
    (hsecond : second ∈ responseTargets operation' status' schemas') (h : target.1 = second.1) :
    (operation = operation' ∧ status = status') ∧ (schemas = schemas' → target.2 = second.2) := by
  simp only [responseTargets, nest, numbered, List.map_map, List.mem_map] at htarget hsecond
  obtain ⟨⟨schema, i⟩, hmem, rfl⟩ := htarget
  obtain ⟨⟨schema', j⟩, hmem', rfl⟩ := hsecond
  simp only [Function.comp_apply, List.cons.injEq, Text.append_right_inj, and_true, true_and] at h
  obtain ⟨rfl, rfl, hnumber⟩ := h
  refine ⟨⟨rfl, rfl⟩, ?_⟩
  rintro rfl
  exact eq_of_mem_zipIdx hmem hmem' hnumber

namespace Emission

/-- The key and the schema of a shared parameter. -/
def shared? : Emission → Option (Text × Value)
  | parameter _ _ key schema => some (key, schema)
  | _ => none

/-- The operation and the parts that name the declaration. -/
def label (e : Emission) : Text × List Text := (e.operation, e.parts)

/-- Two schemas at one path belong to shared parameters with one key, or to other emissions with one
label, and in one emission they are the same. -/
theorem conflict_cases {e other : Emission} {target second : List Text × Value}
    (htarget : target ∈ e.targets) (hsecond : second ∈ other.targets) (h : target.1 = second.1) :
    (∃ key, e.shared? = some (key, target.2) ∧ other.shared? = some (key, second.2)) ∨
      e.shared? = none ∧ other.shared? = none ∧ e.label = other.label ∧
        (e = other → target.2 = second.2) := by
  have harea : e.area = other.area := by
    obtain ⟨rest, hrest, -⟩ := exists_path_eq htarget
    obtain ⟨rest', hrest', -⟩ := exists_path_eq hsecond
    rw [hrest, hrest'] at h
    exact (List.cons.inj h).1
  cases e with
  | body operation schemas =>
    cases other with
    | body operation' schemas' =>
      obtain ⟨rfl, hsame⟩ := body_conflict htarget hsecond h
      exact Or.inr ⟨rfl, rfl, rfl, fun heq => hsame (body.inj heq).2⟩
    | response => simp [area, requestBodiesKey, responsesKey] at harea
    | parameter => simp [area, requestBodiesKey, parametersKey] at harea
  | response operation status schemas =>
    cases other with
    | body => simp [area, requestBodiesKey, responsesKey] at harea
    | response operation' status' schemas' =>
      obtain ⟨⟨rfl, rfl⟩, hsame⟩ := response_conflict htarget hsecond h
      exact Or.inr ⟨rfl, rfl, rfl, fun heq => hsame (response.inj heq).2.2⟩
    | parameter => simp [area, responsesKey, parametersKey] at harea
  | parameter operation name key schema =>
    cases other with
    | body => simp [area, requestBodiesKey, parametersKey] at harea
    | response => simp [area, responsesKey, parametersKey] at harea
    | parameter operation' name' key' schema' =>
      cases List.mem_singleton.mp htarget
      cases List.mem_singleton.mp hsecond
      cases h
      exact Or.inl ⟨key, rfl, rfl⟩

end Emission

/-- Shared parameters that are put aside under one key have one schema. -/
def SharedAgree (emitted : List Emission) : Prop :=
  ∀ e ∈ emitted, ∀ other ∈ emitted, ∀ key schema second,
    e.shared? = some (key, schema) → other.shared? = some (key, second) → schema = second

/-- The emissions other than those of shared parameters. -/
def unshared (emitted : List Emission) : List Emission := emitted.filter (·.shared?.isNone)

/-- If emissions of bodies and responses have different labels, only shared parameters can be in
conflict. -/
theorem consistent_iff_sharedAgree {emitted : List Emission}
    (h : ((unshared emitted).map Emission.label).Nodup) :
    Consistent emitted ↔ SharedAgree emitted := by
  constructor
  · intro hconsistent e he other hother key schema second hschema hsecond
    cases e with
    | body => cases hschema
    | response => cases hschema
    | parameter operation name key' schema' =>
      cases other with
      | body => cases hsecond
      | response => cases hsecond
      | parameter operation' name' key'' schema'' =>
        cases hschema
        cases hsecond
        exact hconsistent _ he _ hother _ (List.mem_singleton_self _) _ (List.mem_singleton_self _) rfl
  · intro hagree e he other hother target htarget second hsecond hpath
    rcases Emission.conflict_cases htarget hsecond hpath with
      ⟨key, hschema, hschema'⟩ | ⟨hnone, hnone', hlabel, hsame⟩
    · exact hagree e he other hother key _ _ hschema hschema'
    · have hmem : e ∈ unshared emitted := List.mem_filter.mpr ⟨he, by rw [hnone]; rfl⟩
      have hmem' : other ∈ unshared emitted := List.mem_filter.mpr ⟨hother, by rw [hnone']; rfl⟩
      exact hsame (List.inj_on_of_nodup_map h hmem hmem' hlabel)

/-- There is at most one emission for some schemas. -/
theorem emitting_sublist (emission : List Value → Emission) (schemas : List Value) :
    (emitting emission schemas).Sublist [emission schemas] := by
  cases schemas with
  | nil => exact List.nil_sublist _
  | cons first rest => exact List.Sublist.refl _

/-- The labels of the emissions for responses are among those for their statuses, in order. -/
theorem labels_responsesEmissions (setting : Setting) (operation : Operation) (scratch : Scratch)
    (members : List (Scalar × Value)) :
    ((responsesEmissions setting operation scratch members).map Emission.label).Sublist
      (members.map fun member => (operation.id, Response.parts member.1.display)) := by
  induction members generalizing scratch with
  | nil => exact List.Sublist.refl _
  | cons member rest ih =>
    rw [responsesEmissions, List.map_append, List.map_cons, ← List.singleton_append]
    exact ((emitting_sublist _ _).map Emission.label).append (ih _)

/-- No emission for a response is that of a shared parameter. -/
theorem unshared_responsesEmissions (setting : Setting) (operation : Operation) (scratch : Scratch)
    (members : List (Scalar × Value)) :
    unshared (responsesEmissions setting operation scratch members) =
      responsesEmissions setting operation scratch members := by
  refine List.filter_eq_self.mpr ?_
  induction members generalizing scratch with
  | nil => exact List.forall_mem_nil _
  | cons member rest ih =>
    refine List.forall_mem_append.mpr ⟨fun e he => ?_, ih _⟩
    rw [List.mem_singleton.mp ((emitting_sublist _ _).subset he)]
    rfl

/-- Every emission for a parameter is that of a shared one. -/
theorem exists_of_mem_parametersEmissions {overlay : Value} {operation : Operation} {shared own : Value}
    {e : Emission} (h : e ∈ parametersEmissions overlay operation shared own) :
    ∃ name key schema, e = .parameter operation.id name key schema := by
  obtain ⟨p, -, hp⟩ := List.mem_flatMap.mp h
  rw [parameterEmissions.eq_def] at hp
  split at hp
  · cases hp
  · split_ifs at hp
    · cases hp
    · split at hp
      · cases hp
      · exact ⟨_, _, _, List.mem_singleton.mp hp⟩

namespace OperationSource

/-- The statuses of the responses of an operation. -/
def statuses (source : OperationSource) : List Text :=
  (membersOrNone ((source.members.fieldOrNull "responses").orElse (.object []))).map (·.1.display)

/-- The emissions for an operation belong to it. -/
theorem operation_of_mem_emissions {setting : Setting} {scratch : Scratch} {source : OperationSource}
    {id : Text} {e : Emission} (h : e ∈ source.emissions setting scratch id) : e.operation = id := by
  rcases List.mem_append.mp h with h | hresponse
  · rcases List.mem_append.mp h with hbody | hparameter
    · rw [List.mem_singleton.mp ((emitting_sublist _ _).subset hbody)]
      rfl
    · obtain ⟨name, key, schema, rfl⟩ := exists_of_mem_parametersEmissions hparameter
      rfl
  · have hlabel := (labels_responsesEmissions _ _ _ _).subset (List.mem_map_of_mem hresponse)
    obtain ⟨member, -, heq⟩ := List.mem_map.mp hlabel
    exact (congrArg Prod.fst heq).symm

/-- The bodies and responses emitted for an operation have different labels if its statuses are
different. -/
theorem nodup_labels (setting : Setting) (scratch : Scratch) (source : OperationSource) (id : Text)
    (h : source.statuses.Nodup) :
    ((unshared (source.emissions setting scratch id)).map Emission.label).Nodup := by
  have hparameters (overlay : Value) : unshared (parametersEmissions overlay (source.under id)
      (source.pathItem.fieldOrNull "parameters") (source.members.fieldOrNull "parameters")) = [] := by
    refine List.filter_eq_nil_iff.mpr fun e he => ?_
    obtain ⟨name, key, schema, rfl⟩ := exists_of_mem_parametersEmissions he
    exact Bool.false_ne_true
  have hall : ((id, [("Body" : Text)]) ::
      source.statuses.map fun status => (id, Response.parts status)).Nodup := by
    refine List.nodup_cons.mpr ⟨?_, h.map fun first second heq => ?_⟩
    · simp [Response.parts]
    · simpa [Response.parts, Text.append_right_inj] using heq
  refine List.Nodup.sublist ?_ hall
  rw [emissions, unshared, List.filter_append, List.filter_append]
  change (List.map Emission.label (unshared _ ++ unshared _ ++ unshared _)).Sublist _
  rw [hparameters, unshared_responsesEmissions, List.append_nil, List.map_append, ← List.singleton_append,
    statuses, List.map_map]
  refine List.Sublist.append ?_ (labels_responsesEmissions _ _ _ _)
  exact (List.filter_sublist.trans (emitting_sublist _ _)).map Emission.label

end OperationSource

/-- The emissions for several operations belong to the ids given out. -/
theorem operation_of_mem_sourcesEmissions {setting : Setting} {counts : List (Text × Nat)}
    {scratch : Scratch} {operations : List OperationSource} {e : Emission}
    (h : e ∈ sourcesEmissions setting counts scratch operations) :
    e.operation ∈ (giveIds (operations.map OperationSource.requestedId) counts).1 := by
  induction operations generalizing counts scratch with
  | nil => cases h
  | cons source rest ih =>
    rcases List.mem_append.mp h with hsource | hrest
    · exact List.mem_cons.mpr (Or.inl (OperationSource.operation_of_mem_emissions hsource))
    · exact List.mem_cons_of_mem _ (ih hrest)

/-- The bodies and responses emitted for operations with different ids have different labels if the
statuses of each operation are different. -/
theorem nodup_labels_sourcesEmissions (setting : Setting) {counts : List (Text × Nat)}
    (scratch : Scratch) {operations : List OperationSource}
    (hids : (giveIds (operations.map OperationSource.requestedId) counts).1.Nodup)
    (hstatuses : ∀ source ∈ operations, source.statuses.Nodup) :
    ((unshared (sourcesEmissions setting counts scratch operations)).map Emission.label).Nodup := by
  induction operations generalizing counts scratch with
  | nil => exact List.nodup_nil
  | cons source rest ih =>
    obtain ⟨hfirst, hrest⟩ := List.forall_mem_cons.mp hstatuses
    obtain ⟨hfresh, hothers⟩ := List.nodup_cons.mp hids
    rw [sourcesEmissions, unshared, List.filter_append, List.map_append]
    refine List.Nodup.append (source.nodup_labels setting scratch _ hfirst) (ih _ hothers hrest) ?_
    -- A label names the operation, and the id of the first one is not given out again.
    intro label hsource hlater
    obtain ⟨e, he, rfl⟩ := List.mem_map.mp hsource
    obtain ⟨other, hother, heq⟩ := List.mem_map.mp hlater
    have hid := OperationSource.operation_of_mem_emissions (List.mem_filter.mp he).1
    have hmem := operation_of_mem_sourcesEmissions (List.mem_filter.mp hother).1
    rw [show other.operation = e.operation from congrArg Prod.fst heq, hid] at hmem
    exact hfresh hmem

/-- All references to the scratch area keep the schemas they were made for if and only if no two
emissions put different schemas at one path. If the ids of the operations are all different and no
operation has two responses of one status, this means that shared parameters under one key have one
schema. What is declared for an emission whose references keep their schemas is made from them. -/
theorem scratch_writtenOnce_iff {setting : Setting} {state : State}
    (hwalk : (walk setting).run .initial = .ok ((), state)) :
    ((∀ e ∈ emissions setting, e.Kept (setting.overlay.value state.scratch)) ↔
        Consistent (emissions setting)) ∧
      (NumbersUnclaimed (requestedIds setting.overlay.document) →
        (∀ source ∈ documentSources setting.overlay.document, source.statuses.Nodup) →
          (Consistent (emissions setting) ↔ SharedAgree (emissions setting))) ∧
      ∀ base found, setting.base = .text base → entries setting = .ok found →
        ∀ e ∈ emissions setting, e.Kept (setting.overlay.value state.scratch) →
          e.DenotedIn setting found := by
  have hemits := walk_emits setting .initial () state hwalk
  refine ⟨?_, fun hids hstatuses => ?_, fun base found hbase hfound e he hkept => ?_⟩
  · rw [hemits.scratch_eq]
    exact kept_iff_consistent hemits.proper _ setting.overlay
  · refine consistent_iff_sharedAgree (nodup_labels_sourcesEmissions _ _ ?_ hstatuses)
    exact (nodup_giveIds_iff _).mpr hids
  · obtain ⟨overlay, naming, _, options⟩ := setting
    cases hbase
    exact denotedIn_of_kept hwalk hemits hfound he hkept

/-- One shared parameter agrees with itself. -/
theorem sharedAgree_of_length_le_one {emitted : List Emission}
    (h : (emitted.filterMap Emission.shared?).length ≤ 1) : SharedAgree emitted := by
  intro e he other hother key schema second hschema hsecond
  have hmem : (key, schema) ∈ emitted.filterMap Emission.shared? :=
    List.mem_filterMap.mpr ⟨e, he, hschema⟩
  have hmem' : (key, second) ∈ emitted.filterMap Emission.shared? :=
    List.mem_filterMap.mpr ⟨other, hother, hsecond⟩
  obtain ⟨only, honly⟩ := List.length_eq_one_iff.mp (Nat.le_antisymm h (List.length_pos_of_mem hmem))
  rw [honly, List.mem_singleton] at hmem hmem'
  exact congrArg Prod.snd (hmem.trans hmem'.symm)

/-- The reference to a parameter among the components. -/
def limitRef : Text := "#/components/parameters/Limit"

/-- The reference to another one that ends alike. -/
def legacyRef : Text := "#/components/legacy/Limit"

/-- The setting of a document with these two parameters and one operation, which has a request body, a
response and the parameters at the given references. -/
def sharingSetting (refs : List Text) : Setting :=
  let parameter (name type : Text) : Value :=
    .record [("name", .text name), ("schema", .record [("type", .text type)])]
  let content (type : Text) : Value :=
    .record [("text/plain", .record [("schema", .record [("type", .text type)])])]
  let operation : Value := .record [("operationId", .text "search"),
    ("parameters", .list (refs.map fun ref => .record [("$ref", .text ref)])),
    ("requestBody", .record [("content", content "string")]),
    ("responses", .record [("200", .record [("content", content "boolean")])])]
  let components : Members :=
    [(.text "parameters", .record [("Limit", parameter "limit" "integer")]),
      (.text "legacy", .record [("Limit", parameter "max" "string")])]
  let document : Members := [(.text "paths", .record [("/search", .record [("get", operation)])]),
    (.text "components", .object components)]
  ⟨⟨document, components, []⟩, .standard, .text "API", .default⟩

/-- A request body, a response and one shared parameter keep their schemas and are declared from them. -/
theorem scratch_writtenOnce_iff_sharing :
    ∃ state found, (walk (sharingSetting [limitRef])).run .initial = .ok ((), state) ∧
      entries (sharingSetting [limitRef]) = .ok found ∧
      (emissions (sharingSetting [limitRef])).length = 3 ∧
      ∀ e ∈ emissions (sharingSetting [limitRef]),
        e.Kept ((sharingSetting [limitRef]).overlay.value state.scratch) ∧
          e.DenotedIn (sharingSetting [limitRef]) found := by
  obtain ⟨⟨⟨⟩, state⟩, hwalk⟩ := exists_eq_ok
    (show ((walk (sharingSetting [limitRef])).run .initial).toOption.isSome = true by decide +kernel)
  obtain ⟨found, hfound⟩ := exists_eq_ok
    (show (entries (sharingSetting [limitRef])).toOption.isSome = true by decide +kernel)
  obtain ⟨hkept, hshared, hdenoted⟩ := scratch_writtenOnce_iff hwalk
  have hids : NumbersUnclaimed (requestedIds (sharingSetting [limitRef]).overlay.document) :=
    (nodup_giveIds_iff _).mp (by decide +kernel)
  have hagree : SharedAgree (emissions (sharingSetting [limitRef])) :=
    sharedAgree_of_length_le_one (by decide +kernel)
  have hall := hkept.mpr ((hshared hids (by decide +kernel)).mpr hagree)
  exact ⟨state, found, hwalk, hfound, by decide +kernel,
    fun e he => ⟨hall e he, hdenoted "API" found rfl hfound e he (hall e he)⟩⟩

/-- Two shared parameters whose references end alike do not both keep their schemas. -/
theorem scratch_overwritten :
    ∃ state, (walk (sharingSetting [limitRef, legacyRef])).run .initial = .ok ((), state) ∧
      ¬∀ e ∈ emissions (sharingSetting [limitRef, legacyRef]),
        e.Kept ((sharingSetting [limitRef, legacyRef]).overlay.value state.scratch) := by
  obtain ⟨⟨⟨⟩, state⟩, hwalk⟩ := exists_eq_ok
    (show ((walk (sharingSetting [limitRef, legacyRef])).run .initial).toOption.isSome = true by
      decide +kernel)
  have hconflict : ∃ e ∈ emissions (sharingSetting [limitRef, legacyRef]),
      ∃ other ∈ emissions (sharingSetting [limitRef, legacyRef]), ∃ target ∈ e.targets,
        ∃ second ∈ other.targets, target.1 = second.1 ∧ target.2.display ≠ second.2.display := by
    decide +kernel
  have hemits := walk_emits _ .initial () state hwalk
  refine ⟨state, hwalk, fun hkept => ?_⟩
  rw [hemits.scratch_eq] at hkept
  have hconsistent := (kept_iff_consistent hemits.proper _ _).mp hkept
  obtain ⟨e, he, other, hother, target, htarget, second, hsecond, hpath, hdisplay⟩ := hconflict
  exact hdisplay (congrArg Value.display
    (hconsistent e he other hother target htarget second hsecond hpath))

end SchemaTypes.Api
