import SchemaTypes.Proofs.BreadthFirst
import SchemaTypes.Proofs.Schema.Resolution
import SchemaTypes.Schema.Compile

/-!
# What a document declares

The references of a document span a graph: a path leads to the paths visited in the schema it
addresses. A document that compiles declares exactly the paths that can be reached from its own
references, each once, in breadth-first order, and the declaration of a path depends on nothing but
the schema at its end.

The loop keeps its list of declared and pending paths equal to the first occurrences among the paths
of the start and those visited in the declared schemas.
-/

namespace SchemaTypes

namespace Resolution

open Faulting Build Discovery

variable {document : Value} {scope : Scope} {start declared pending : List (List Text)}
  {results : List (List Text × Declaration)}

/-- Paths declared and pending stay the first occurrences among the start and the paths visited so
far when one more path is declared. -/
theorem found_step {rest : List (List Text)} {path : List Text}
    (hfound : declared ++ path :: rest =
      (start ++ declared.flatMap (Schema.referencesAt document)).eraseDups) :
    declared ++ [path] ++
        (rest ++ fresh (declared ++ [path] ++ rest) (Schema.referencesAt document path)) =
      (start ++ (declared ++ [path]).flatMap (Schema.referencesAt document)).eraseDups := by
  have happend : declared ++ path :: rest = declared ++ [path] ++ rest := by simp
  rw [happend] at hfound
  have hnodup : (declared ++ [path] ++ rest).Nodup := hfound ▸ BreadthFirst.eraseDups_nodup _
  rw [← List.append_assoc, append_fresh hnodup, hfound, BreadthFirst.eraseDups_append_left,
    List.flatMap_append, List.flatMap_singleton, List.append_assoc]

/-- At the end, when no path is pending, the declared ones are the first occurrences among the start
and the paths visited in them. -/
theorem Drains.found_eq (h : Drains document scope declared pending results)
    (hfound : declared ++ pending =
      (start ++ declared.flatMap (Schema.referencesAt document)).eraseDups) :
    declared ++ results.map (·.1) =
      (start ++ (declared ++ results.map (·.1)).flatMap (Schema.referencesAt document)).eraseDups := by
  induction h with
  | done => simpa using hfound
  | @step declared rest path schema declaration results hdeclares _ ih =>
    have hnext := found_step hfound
    rw [hdeclares.referencesAt_eq] at hnext
    simpa using ih hnext

/-- Only paths that can be reached are declared. -/
theorem Drains.reachable (h : Drains document scope declared pending results)
    (hreachable : ∀ path ∈ declared ++ pending,
      BreadthFirst.Reachable (Schema.referencesAt document) start path) :
    ∀ path ∈ declared ++ results.map (·.1),
      BreadthFirst.Reachable (Schema.referencesAt document) start path := by
  induction h with
  | done => exact hreachable
  | @step declared rest path schema declaration results hdeclares _ ih =>
    have hnext : ∀ p ∈ declared ++ [path] ++
        (rest ++ fresh (declared ++ [path] ++ rest) (Schema.references schema)),
        BreadthFirst.Reachable (Schema.referencesAt document) start p := by
      intro p hp
      rw [← List.append_assoc, List.mem_append] at hp
      rcases hp with hp | hp
      · exact hreachable p (by simpa using hp)
      · refine .step (hreachable path (by simp)) ?_
        rw [hdeclares.referencesAt_eq]
        exact (mem_fresh.mp hp).1
    simpa using ih hnext

/-- Every result is the declaration of its path. -/
theorem Drains.declares (h : Drains document scope declared pending results) :
    ∀ result ∈ results, ∃ schema, Declares document scope result.1 schema result.2 := by
  induction h with
  | done => nofun
  | step hdeclares _ ih => exact List.forall_mem_cons.mpr ⟨⟨_, hdeclares⟩, ih⟩

/-- The results of declaring everything that can be reached from some paths: each path that can be
reached has one declaration, and they come in breadth-first order. -/
structure Resolves (document : Value) (scope : Scope) (start : List (List Text))
    (results : List (List Text × Declaration)) : Prop where
  mem_iff : ∀ path, path ∈ results.map (·.1) ↔
    BreadthFirst.Reachable (Schema.referencesAt document) start path
  nodup : (results.map (·.1)).Nodup
  order_eq : ∀ n, results.length ≤ n →
    results.map (·.1) = BreadthFirst.order (Schema.referencesAt document) start n
  proper : ∀ path ∈ results.map (·.1), Pointer.Proper path
  declares : ∀ result ∈ results, ∃ schema, Declares document scope result.1 schema result.2

/-- Draining the first occurrences of the start declares everything that can be reached from it. -/
theorem Drains.resolves (hstart : ∀ path ∈ start, Pointer.Proper path)
    (h : Drains document scope [] (fresh [] start) results) :
    Resolves document scope start results := by
  have hinitial : [] ++ fresh [] start =
      (start ++ ([] : List (List Text)).flatMap (Schema.referencesAt document)).eraseDups := by
    simp [fresh]
  have hdirect : ∀ path ∈ [] ++ fresh [] start,
      BreadthFirst.Reachable (Schema.referencesAt document) start path :=
    fun path hpath => .start (mem_fresh.mp hpath).1
  have hfound := h.found_eq hinitial
  have hreachable := h.reachable hdirect
  simp only [List.nil_append] at hfound hreachable
  refine ⟨fun path => ⟨hreachable path, fun hpath => hpath.mem_of_fixed hfound⟩,
    hfound ▸ BreadthFirst.eraseDups_nodup _, fun n hn => ?_, fun path hpath => ?_, h.declares⟩
  · exact BreadthFirst.eq_order_of_fixed hfound hreachable (by simpa using hn)
  · cases hreachable path hpath with
    | start hmem => exact hstart path hmem
    | step _ hmem => exact Schema.proper_of_mem_referencesAt hmem

end Resolution

namespace Schema

open Faulting Build Discovery Resolution

variable {naming : Naming} {document name : Value}

/-- The scope in which a document and everything it refers to is declared. -/
def rootScope (naming : Naming) (document name : Value) : Scope :=
  ⟨naming, some (rootName document name), none⟩

/-- The root declaration is built first, on its own. If that succeeds, everything that the document
refers to is declared, one path after the other. -/
theorem run_entries (naming : Naming) (document name : Value) :
    (∃ fault d, (declare (rootScope naming document name) document (rootName document name) true).run
          .empty = (.error fault, d) ∧
        (entries naming document name).run .empty = (.error fault, ⟨d, [], none⟩)) ∨
      ∃ root outcome last left,
        (declare (rootScope naming document name) document (rootName document name) true).run .empty =
            (.ok root, Discovery.empty.addAll (references document)) ∧
          Runs document (rootScope naming document name) [] (fresh [] (references document)) outcome
            last left ∧
          (entries naming document name).run .empty =
            (outcome.map fun results => (root, results.map entryOf), Resolution.ofPaths last left none) := by
  have hrun : (entries naming document name).run .empty =
      ((do
        let root ← build (rootScope naming document name) fun scope =>
          declare scope document (rootName document name) true
        let found ← resolve document (rootScope naming document name)
        return (root, found) : Resolve (Declaration × List Entry))).run .empty := rfl
  rcases hbuild : (declare (rootScope naming document name) document
    (rootName document name) true).run .empty with ⟨result, d⟩
  have hfirst : (build (rootScope naming document name) fun scope =>
      declare scope document (rootName document name) true).run .empty = (result, ⟨d, [], none⟩) :=
    run_build_eq hbuild
  rw [run_bind, hfirst] at hrun
  cases result with
  | error fault => exact Or.inl ⟨fault, d, rfl, hrun⟩
  | ok root =>
    have hplaced : (declare ((rootScope naming document name).reportingAt none) document
        (rootName document name) true).run .empty = (.ok root, d) := hbuild
    have hroot := run_declare_of_ok hplaced .empty
    have hd : d = Discovery.empty.addAll (references document) :=
      congrArg Prod.snd (hbuild.symm.trans hroot)
    have hpaths : (⟨d, [], none⟩ : Resolution) =
        Resolution.ofPaths [] (fresh [] (references document)) none := by
      rw [hd, empty_eq_ofPaths, addAll_ofPaths (by simp)
        fun path hpath => (proper_of_mem_references hpath).no_empty]
      rfl
    obtain ⟨outcome, last, left, hruns, hresolve⟩ := run_resolve document
      (rootScope naming document name) none [] (fresh [] (references document))
      (fun path hpath => proper_of_mem_references (mem_fresh.mp hpath).1)
      (BreadthFirst.eraseDups_nodup _)
    refine Or.inr ⟨root, outcome, last, left, by rw [hd], hruns, hrun.trans ?_⟩
    simp only [hpaths, run_bind, hresolve]
    cases outcome <;> rfl

/-- The root declaration is built on its own, and the entries are those of everything that can be
reached from the references of the document. -/
theorem run_entries_ok {root : Declaration} {found : List Entry} {final : Resolution}
    (h : (entries naming document name).run .empty = (.ok (root, found), final)) :
    (declare (rootScope naming document name) document (rootName document name) true).run .empty =
        (.ok root, Discovery.empty.addAll (references document)) ∧
      ∃ results, found = results.map entryOf ∧
        Resolves document (rootScope naming document name) (references document) results := by
  rcases run_entries naming document name with ⟨fault, d, -, hrun⟩ |
    ⟨declaration, outcome, last, left, hroot, hruns, hrun⟩
  · cases h.symm.trans hrun
  · rw [h] at hrun
    cases outcome with
    | error fault => cases hrun
    | ok results =>
      cases hrun
      obtain ⟨hdrains, -, -⟩ := hruns.drains rfl
      exact ⟨hroot, results, rfl, hdrains.resolves fun path => proper_of_mem_references⟩

/-- A document that compiles has a root declaration and declarations for everything it refers to, and
these are put together in the order of their discovery. -/
theorem compile_ok {tree : Namespace} (h : compile naming document name = .ok tree) :
    ∃ root results final node,
      (entries naming document name).run .empty = (.ok (root, results.map entryOf), final) ∧
        (declare (rootScope naming document name) document (rootName document name) true).run .empty =
          (.ok root, Discovery.empty.addAll (references document)) ∧
        Resolves document (rootScope naming document name) (references document) results ∧
        Namespace.assemble naming (results.map entryOf) = .ok node ∧ tree = withRoot root node := by
  rcases hentries : (entries naming document name).run .empty with ⟨result, final⟩
  rw [compile, hentries] at h
  cases result with
  | error fault => cases h
  | ok outcome =>
    obtain ⟨root, found⟩ := outcome
    obtain ⟨hroot, results, rfl, hresolves⟩ := run_entries_ok hentries
    cases hassemble : Namespace.assemble naming (results.map entryOf) with
    | error cause =>
      simp only [bind, Except.bind, hassemble, Fault.ofMalformed] at h
      cases h
    | ok node =>
      simp only [bind, Except.bind, hassemble, Fault.ofMalformed] at h
      cases h
      exact ⟨root, results, final, node, rfl, hroot, hresolves, hassemble, rfl⟩

/-- A document that compiles declares exactly the paths that can be reached from its references, each
once and in breadth-first order. The declaration of a path is the one that its schema has when it is
built on its own, which visits the references of that schema. -/
theorem compile_declares_reachable {tree : Namespace} (h : compile naming document name = .ok tree) :
    ∃ (root : Declaration) (results : List (List Text × Declaration)) (final : Resolution),
      (entries naming document name).run .empty = (.ok (root, results.map entryOf), final) ∧
        (∀ path, path ∈ results.map (·.1) ↔
          BreadthFirst.Reachable (referencesAt document) (references document) path) ∧
        (results.map (·.1)).Nodup ∧
        (∀ n, results.length ≤ n →
          results.map (·.1) = BreadthFirst.order (referencesAt document) (references document) n) ∧
        (declare (rootScope naming document name) document (rootName document name) true).run .empty =
          (.ok root, Discovery.empty.addAll (references document)) ∧
        ∀ path declaration, (path, declaration) ∈ results →
          ∃ schema segment, Pointer.target? document path = .ok (some schema) ∧
            path.getLast? = some segment ∧
            (declare (rootScope naming document name) schema (.text segment) (path.length = 1)).run
              .empty = (.ok declaration, Discovery.empty.addAll (references schema)) := by
  obtain ⟨root, results, final, node, hentries, hroot, hresolves, -, -⟩ := compile_ok h
  refine ⟨root, results, final, hentries, hresolves.mem_iff, hresolves.nodup, hresolves.order_eq, hroot,
    fun path declaration hmem => ?_⟩
  obtain ⟨schema, hdeclares⟩ := hresolves.declares _ hmem
  have hproper := hresolves.proper path (List.mem_map_of_mem hmem)
  have hlast := List.getLast?_eq_some_getLast hproper.ne_nil
  have hbuilt := hdeclares.built
  rw [List.getLastD_eq_getLast?, hlast] at hbuilt
  exact ⟨schema, _, hdeclares.target, hlast, hbuilt⟩

/-- A document whose two definitions refer to each other. -/
def mutualDocument : Value :=
  .object [(.text "$ref", .text "#/definitions/tree"),
    (.text "definitions", .object [
      (.text "tree", .object [(.text "type", .text "array"),
        (.text "items", .object [(.text "$ref", .text "#/definitions/node")])]),
      (.text "node", .object [
        (.text "oneOf", .list [.object [(.text "$ref", .text "#/definitions/tree")],
          .object [(.text "$ref", .text "#")]])])])]

/-- Of two definitions that refer to each other, both are declared when one is referred to. -/
theorem compile_declares_reachable_mutual :
    ∃ tree, compile .standard mutualDocument .null = .ok tree ∧
      ∃ (root : Declaration) (results : List (List Text × Declaration)) (final : Resolution),
        (entries .standard mutualDocument .null).run .empty =
            (.ok (root, results.map entryOf), final) ∧
          results.map (·.1) = [[("definitions" : Text), "tree"], ["definitions", "node"]] := by
  obtain ⟨tree, hcompile⟩ : ∃ tree, compile .standard mutualDocument .null = .ok tree :=
    exists_eq_ok (by decide +kernel)
  obtain ⟨root, results, final, hentries, -, -, horder, -⟩ := compile_declares_reachable hcompile
  refine ⟨tree, hcompile, root, results, final, hentries, ?_⟩
  have hcount : (((entries .standard mutualDocument .null).run .empty).1.map
      fun outcome => outcome.2.length).toOption = some 2 := by decide +kernel
  rw [hentries] at hcount
  have hlength : (results.map entryOf).length = 2 := Option.some.inj hcount
  rw [List.length_map] at hlength
  rw [horder 2 (Nat.le_of_eq hlength)]
  decide +kernel

end Schema

end SchemaTypes
