import SchemaTypes.Proofs.Schema.Reachability

/-!
# Resolving fewer paths

Declaring what can be reached from fewer paths takes less: each path reached has a declaration if it has
one in the larger run, and the declaration is the same, since it depends on nothing but the schema at the
end of the path. So whenever the larger run succeeds, the smaller one does, and its results are among those
of the larger one, though possibly in another order.
-/

namespace SchemaTypes

/-- What can be reached from some nodes can be reached from more nodes. -/
theorem BreadthFirst.Reachable.mono {α : Type} {successors : α → List α} {fewer start : List α}
    (hsubset : fewer ⊆ start) {a : α} (h : Reachable successors fewer a) :
    Reachable successors start a := by
  induction h with
  | start hmem => exact .start (hsubset hmem)
  | step _ hmem ih => exact .step ih hmem

namespace Resolution

open Faulting Build Discovery

variable {document : Value} {scope : Scope} {start fewer declared pending : List (List Text)}
  {results others : List (List Text × Declaration)}

/-- What a path declares is what declaring the part of the document at it gives. -/
theorem Declares.declaredAt_eq {path : List Text} {schema : Value} {declaration : Declaration}
    (h : Declares document scope path schema declaration) :
    declaredAt document scope path = .ok declaration := by
  have hbuilt : (Schema.declare (scope.reportingAt scope.path) schema (.text (path.getLastD ""))
      (path.length = 1)).run .empty = _ := h.built
  have hplaced := (Schema.declare_explores scope schema (.text (path.getLastD ""))
    (path.length = 1)).run_of_ok hbuilt (some (Pointer.join path)) .empty
  rw [declaredAt, h.target]
  exact congrArg Prod.fst hplaced

/-- The loop ends with results if everything that can be reached has a declaration. -/
theorem Runs.exists_results {outcome : Except Fault (List (List Text × Declaration))}
    {last left : List (List Text)} (h : Runs document scope declared pending outcome last left)
    (hreachable : ∀ path ∈ declared ++ pending,
      BreadthFirst.Reachable (Schema.referencesAt document) start path)
    (hdeclared : ∀ path, BreadthFirst.Reachable (Schema.referencesAt document) start path →
      ∃ declaration, declaredAt document scope path = .ok declaration) :
    ∃ results, outcome = .ok results := by
  induction h with
  | done => exact ⟨[], rfl⟩
  | @stop declared rest visited path fault hfault _ =>
    obtain ⟨declaration, hok⟩ := hdeclared path (hreachable path (by simp))
    cases hok.symm.trans hfault
  | @step declared rest path declaration outcome last left _ _ ih =>
    obtain ⟨results, rfl⟩ := ih fun p hp => by
      rw [← List.append_assoc, List.mem_append] at hp
      rcases hp with hp | hp
      · exact hreachable p (by simpa using hp)
      · exact .step (hreachable path (by simp)) (mem_fresh.mp hp).1
    exact ⟨_, rfl⟩

/-- Everything that is reached has its declaration among the results. -/
theorem Resolves.exists_declaredAt (h : Resolves document scope start results) {path : List Text}
    (hreachable : BreadthFirst.Reachable (Schema.referencesAt document) start path) :
    ∃ declaration, (path, declaration) ∈ results ∧
      declaredAt document scope path = .ok declaration := by
  obtain ⟨⟨_, declaration⟩, hmem, rfl⟩ := List.mem_map.mp ((h.mem_iff path).mpr hreachable)
  obtain ⟨schema, hdeclares⟩ := h.declares _ hmem
  exact ⟨declaration, hmem, hdeclares.declaredAt_eq⟩

/-- The results for fewer paths are among those for more paths. -/
theorem Resolves.subset (h : Resolves document scope start results)
    (hothers : Resolves document scope fewer others) (hsubset : fewer ⊆ start) : others ⊆ results := by
  rintro ⟨path, declaration⟩ hmem
  have hreached := (hothers.mem_iff path).mp (List.mem_map_of_mem hmem)
  obtain ⟨found, hfound, hat⟩ := h.exists_declaredAt (hreached.mono hsubset)
  obtain ⟨schema, hdeclares⟩ := hothers.declares _ hmem
  cases hat.symm.trans hdeclares.declaredAt_eq
  exact hfound

/-- The state in which some paths have been discovered and none has been declared. -/
theorem ofPaths_fresh (hproper : ∀ path ∈ start, Pointer.Proper path) (place : Option Text) :
    (⟨Discovery.empty.addAll start, [], place⟩ : Resolution) = ofPaths [] (fresh [] start) place := by
  rw [empty_eq_ofPaths, addAll_ofPaths (by simp) fun path hpath => (hproper path hpath).no_empty]
  rfl

/-- Resolution of discovered paths that succeeds declares everything that can be reached from them. -/
theorem resolves_of_run (hproper : ∀ path ∈ start, Pointer.Proper path) {found : List Entry}
    (h : ((resolve document scope).run ⟨Discovery.empty.addAll start, [], scope.path⟩).1 = .ok found) :
    ∃ results, found = results.map entryOf ∧ Resolves document scope start results := by
  rw [ofPaths_fresh hproper] at h
  obtain ⟨results, hfound, hdrains, -⟩ := run_resolve_ok
    (fun path hpath => hproper path (mem_fresh.mp hpath).1) (BreadthFirst.eraseDups_nodup _)
    (Prod.ext h rfl)
  exact ⟨results, hfound, hdrains.resolves hproper⟩

/-- If the resolution of discovered paths succeeds, so does that of fewer paths. -/
theorem Resolves.exists_run (h : Resolves document scope start results)
    (hproper : ∀ path ∈ start, Pointer.Proper path) (hsubset : fewer ⊆ start) :
    ∃ others, ((resolve document scope).run ⟨Discovery.empty.addAll fewer, [], scope.path⟩).1 =
        .ok (others.map entryOf) ∧ Resolves document scope fewer others := by
  have hfewer : ∀ path ∈ fewer, Pointer.Proper path := fun path hpath => hproper path (hsubset hpath)
  obtain ⟨outcome, last, left, hruns, hrun⟩ := run_resolve document scope scope.path [] (fresh [] fewer)
    (fun path hpath => hfewer path (mem_fresh.mp hpath).1) (BreadthFirst.eraseDups_nodup _)
  obtain ⟨others, rfl⟩ := hruns.exists_results
    (fun path hpath => .start (hsubset (mem_fresh.mp hpath).1)) fun path hreachable =>
      (h.exists_declaredAt hreachable).imp fun _ hfound => hfound.2
  refine ⟨others, ?_, (hruns.drains rfl).1.resolves hfewer⟩
  rw [ofPaths_fresh hfewer, hrun]
  rfl

end Resolution

end SchemaTypes
