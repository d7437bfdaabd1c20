import SchemaTypes.Proofs.Schema.Closed
import SchemaTypes.Proofs.Schema.Supported

/-!
# The first fault of a document

Compiling is all or nothing. A document compiles if its own types can be built and every path that
can be reached from it leads to a schema whose types can be built. Otherwise compiling stops with the
fault of the first offender, the document before all others and the paths in breadth-first order.

The loop over the pending paths stops at a path only if everything before it in breadth-first order is
declared, since the paths it has declared and those pending always begin that order.
-/

namespace SchemaTypes

namespace Pointer

/-- A path whose segments are no malformed numerals can be followed in every document, if only to find
that it leads nowhere. -/
theorem exists_target?_eq_ok {path : List Text}
    (hnumerals : ∀ segment ∈ path, ∃ n, numeral? segment = .ok n) (document : Value) :
    ∃ found, target? document path = .ok found := by
  have hfollow : ∃ found, follow document (path.map .text) = .ok found := by
    induction path generalizing document with
    | nil => exact ⟨some document, rfl⟩
    | cons segment rest ih =>
      obtain ⟨⟨n, hn⟩, hrest⟩ := List.forall_mem_cons.mp hnumerals
      obtain ⟨part, hpart⟩ : ∃ part, step document (.text segment) = .ok part := by
        cases document with
        | scalar _ => exact ⟨none, rfl⟩
        | list items => exact ⟨n.bind fun n => items[n]?, by simp [step, hn]⟩
        | object members => exact ⟨_, rfl⟩
      rw [List.map_cons, follow, hpart]
      cases part with
      | none => exact ⟨none, rfl⟩
      | some inner => exact ih hrest inner
  obtain ⟨found, hfound⟩ := hfollow
  exact ⟨found.filter fun value => !value.isNull, by rw [target?, find?, hfound]; rfl⟩

end Pointer

namespace Schema

open Faulting Build

/-- The types of a schema can be built. -/
def Accepted (scope : Scope) (schema : Value) : Prop :=
  ∃ alternatives, ((types scope schema).run .empty).1 = .ok alternatives

/-- A path leads to a schema whose types can be built. -/
def AcceptedAt (document : Value) (scope : Scope) (path : List Text) : Prop :=
  ∃ schema, Pointer.target? document path = .ok (some schema) ∧ Accepted scope schema

/-- A schema whose name has an identifier is declared with its types, or fails with their fault. -/
theorem run_declare_of_identified {scope : Scope} {schema name identifier : Value}
    (hidentifier : scope.identify (name.orElse ((title schema).orElse (.text fallbackName))) =
      .ok identifier) (ambient : Bool) (d : Discovery) :
    ((declare scope schema name ambient).run d).1 =
      ((types scope schema).run d).1.map fun alternatives =>
        ⟨identifier, .unionOf alternatives, !ambient⟩ := by
  rw [declare, run_bind]
  rcases (types scope schema).run d with ⟨result, d'⟩
  cases result with
  | error fault => rfl
  | ok alternatives =>
    simp only [run_bind, hidentifier, run_lift]
    rfl

/-- The place of faults shows in the fault alone. -/
theorem run_types_reportingAt (scope : Scope) (schema : Value) (place : Option Text) :
    ((types (scope.reportingAt place) schema).run .empty).1 =
      ((types scope schema).run .empty).1.mapError (Fault.reportedAt place) := by
  obtain ⟨outcome, visited, -, -, hrun⟩ := types_explores scope schema
  have hplaced := congrArg Prod.fst (hrun place .empty)
  have hown := congrArg Prod.fst (hrun scope.path .empty)
  refine hplaced.trans (Eq.trans ?_ (congrArg (Except.mapError (Fault.reportedAt place)) hown.symm))
  cases outcome with
  | ok alternatives => rfl
  | error fault => cases fault <;> rfl

end Schema

namespace Resolution

open Faulting Build Discovery Schema

variable {document : Value} {scope : Scope} {start declared pending : List (List Text)}

/-- At a path that leads to a schema, the types of the schema decide about the declaration. -/
theorem declaredAt_of_target {path : List Text} (hproper : Pointer.Proper path) {schema : Value}
    (htarget : Pointer.target? document path = .ok (some schema)) :
    ∃ toDeclaration : List TypeExpr → Declaration, declaredAt document scope path =
      (((types scope schema).run .empty).1.mapError
        (Fault.reportedAt (some (Pointer.join path)))).map toDeclaration := by
  have hidentifier : (scope.reportingAt (some (Pointer.join path))).identify
      ((Value.text (path.getLastD "")).orElse ((title schema).orElse (.text fallbackName))) =
        .ok (.text (scope.naming.ofText (path.getLastD ""))) := by
    rw [Value.orElse, if_pos (by
      simpa [Value.isPresent, Scalar.isPresent] using hproper.getLastD_ne_empty)]
    rfl
  rw [declaredAt, htarget]
  dsimp only
  rw [run_declare_of_identified hidentifier, run_types_reportingAt]
  exact ⟨_, rfl⟩

/-- A path has a declaration if it leads to a schema whose types can be built. -/
theorem exists_declaredAt_iff {path : List Text} (hproper : Pointer.Proper path) :
    (∃ declaration, declaredAt document scope path = .ok declaration) ↔
      AcceptedAt document scope path := by
  constructor
  · rintro ⟨declaration, hdeclared⟩
    obtain ⟨schema, hdeclares⟩ := declares_of_declaredAt hdeclared
    obtain ⟨toDeclaration, hat⟩ := declaredAt_of_target hproper hdeclares.target
    rw [hdeclared] at hat
    refine ⟨schema, hdeclares.target, ?_⟩
    cases hresult : ((types scope schema).run .empty).1 with
    | ok alternatives => exact ⟨alternatives, hresult⟩
    | error cause =>
      rw [hresult] at hat
      cases hat
  · rintro ⟨schema, htarget, alternatives, hresult⟩
    obtain ⟨toDeclaration, hat⟩ := declaredAt_of_target hproper htarget
    rw [hresult] at hat
    exact ⟨toDeclaration alternatives, hat⟩

/-- The fault of a path without a declaration says that it leads nowhere, or it is the fault of the
types that it leads to, reported at the path. -/
theorem fault_of_declaredAt {path : List Text} (hproper : Pointer.Proper path) {fault : Fault}
    (hnumerals : ∀ segment ∈ path, ∃ n, numeral? segment = .ok n)
    (h : declaredAt document scope path = .error fault) :
    (Pointer.target? document path = .ok none ∧
        fault = scope.fault (.unresolved (Pointer.join path))) ∨
      ∃ schema cause, Pointer.target? document path = .ok (some schema) ∧
        ((types scope schema).run .empty).1 = .error cause ∧
        fault = cause.reportedAt (some (Pointer.join path)) := by
  obtain ⟨found, htarget⟩ := Pointer.exists_target?_eq_ok hnumerals document
  cases found with
  | none =>
    rw [declaredAt, htarget] at h
    cases h
    exact Or.inl ⟨htarget, rfl⟩
  | some schema =>
    obtain ⟨toDeclaration, hat⟩ := declaredAt_of_target hproper htarget
    rw [h] at hat
    cases hresult : ((types scope schema).run .empty).1 with
    | ok alternatives =>
      rw [hresult] at hat
      cases hat
    | error cause =>
      rw [hresult] at hat
      exact Or.inr ⟨schema, cause, htarget, hresult, Except.error.inj hat⟩

/-- What is made of several paths taken one after the other: a value if each of them has a
declaration, and otherwise the fault of the first that has none. -/
def FirstFault (document : Value) (scope : Scope) {α : Type} (paths : List (List Text)) :
    Except Fault α → Prop
  | .ok _ => ∀ path ∈ paths, ∃ declaration, declaredAt document scope path = .ok declaration
  | .error fault => ∃ before path after, paths = before ++ path :: after ∧
      (∀ p ∈ before, ∃ declaration, declaredAt document scope p = .ok declaration) ∧
      declaredAt document scope path = .error fault

/-- One more path that has a declaration comes first. -/
theorem FirstFault.cons {α β : Type} {path : List Text} {paths : List (List Text)}
    {outcome : Except Fault α} {declaration : Declaration}
    (hdeclared : declaredAt document scope path = .ok declaration) (f : α → β)
    (h : FirstFault document scope paths outcome) :
    FirstFault document scope (path :: paths) (outcome.map f) := by
  cases outcome with
  | ok a => exact List.forall_mem_cons.mpr ⟨⟨declaration, hdeclared⟩, h⟩
  | error fault =>
    obtain ⟨before, first, after, rfl, hbefore, hfault⟩ := h
    exact ⟨path :: before, first, after, rfl, List.forall_mem_cons.mpr ⟨⟨declaration, hdeclared⟩, hbefore⟩,
      hfault⟩

/-- What is pending comes next in a finished search that begins with what is declared. -/
theorem pending_prefix {found todo : List (List Text)}
    (hknown : declared ++ pending = (start ++ declared.flatMap (referencesAt document)).eraseDups)
    (hfound : found = (start ++ found.flatMap (referencesAt document)).eraseDups)
    (htodo : found = declared ++ todo) : pending <+: todo := by
  rw [← List.prefix_append_right_inj declared, ← htodo, hknown, hfound, htodo]
  apply BreadthFirst.eraseDups_prefix
  rw [List.flatMap_append, ← List.append_assoc]
  exact List.prefix_append _ _

/-- The loop over the pending paths stops at the first path without a declaration among those of a
finished search that are not declared yet. -/
theorem Runs.firstFault {outcome : Except Fault (List (List Text × Declaration))}
    {last left found todo : List (List Text)}
    (h : Runs document scope declared pending outcome last left)
    (hknown : declared ++ pending = (start ++ declared.flatMap (referencesAt document)).eraseDups)
    (hfound : found = (start ++ found.flatMap (referencesAt document)).eraseDups)
    (hreachable : ∀ path ∈ found, BreadthFirst.Reachable (referencesAt document) start path)
    (htodo : found = declared ++ todo) : FirstFault document scope todo outcome := by
  induction h generalizing todo with
  | @done declared =>
    -- The declared paths are closed under references, so nothing is left to do.
    rw [List.append_nil] at hknown
    intro path hpath
    have hmem : path ∈ found := htodo ▸ List.mem_append_right declared hpath
    have hnodup : (declared ++ todo).Nodup := htodo ▸ hfound ▸ BreadthFirst.eraseDups_nodup _
    have hdeclared := (hreachable path hmem).mem_of_fixed hknown
    exact absurd rfl ((List.nodup_append.mp hnodup).2.2 path hdeclared path hpath)
  | @stop declared rest visited path fault hfault _ =>
    obtain ⟨after, rfl⟩ := pending_prefix hknown hfound htodo
    exact ⟨[], path, rest ++ after, rfl, nofun, hfault⟩
  | @step declared rest path declaration outcome last left hdeclared _ ih =>
    obtain ⟨after, rfl⟩ := pending_prefix hknown hfound htodo
    exact (ih (found_step hknown) (by simpa using htodo)).cons hdeclared _

end Resolution

namespace Schema

open Faulting Build Discovery Resolution

variable {naming : Naming} {document name : Value}

/-- Every path that can be reached is written in the document. -/
theorem mem_writtenPaths_of_reachable {path : List Text}
    (h : BreadthFirst.Reachable (referencesAt document) (references document) path) :
    path ∈ document.writtenPaths := by
  cases h with
  | start hmem => exact references_subset_writtenPaths document hmem
  | step _ hmem => exact referencesAt_subset_writtenPaths document _ hmem

/-- The breadth-first order of a document is a finished search once walks are as long as there are
references. -/
theorem exists_finished_order (document : Value) :
    ∃ found, found = (references document ++ found.flatMap (referencesAt document)).eraseDups ∧
      (∀ path, path ∈ found ↔
        BreadthFirst.Reachable (referencesAt document) (references document) path) ∧
      ∀ n, document.referenceCount ≤ n →
        BreadthFirst.order (referencesAt document) (references document) n = found := by
  have hwritten : ∀ path, BreadthFirst.Reachable (referencesAt document) (references document) path →
      path ∈ document.writtenPaths := fun path => mem_writtenPaths_of_reachable
  have hbound := document.writtenPaths_length_le
  have hfixed := BreadthFirst.order_fixed hwritten hbound
  have hreachable : ∀ path ∈ BreadthFirst.order (referencesAt document) (references document)
      document.referenceCount, BreadthFirst.Reachable (referencesAt document) (references document) path :=
    fun path => BreadthFirst.reachable_of_mem_order
  have hlength := List.Nodup.length_le_of_subset (BreadthFirst.eraseDups_nodup _)
    fun path hpath => hwritten path (hreachable path hpath)
  refine ⟨_, hfixed, fun path => ⟨hreachable path, fun hpath => hpath.mem_of_fixed hfixed⟩, ?_⟩
  intro n hn
  apply Eq.symm
  apply BreadthFirst.eq_order_of_fixed hfixed hreachable
  exact Nat.le_trans hlength (Nat.le_trans hbound hn)

/-- The root declaration is made from the types of the document. -/
theorem run_declare_root (hname : (rootScope naming document name).Total) :
    ∃ toDeclaration : List TypeExpr → Declaration,
      ((declare (rootScope naming document name) document (rootName document name) true).run .empty).1 =
        ((types (rootScope naming document name) document).run .empty).1.map toDeclaration := by
  obtain ⟨identifier, happly⟩ := hname (rootName document name) rfl
  have hidentifier : (rootScope naming document name).identify
      ((rootName document name).orElse ((title document).orElse (.text fallbackName))) =
        .ok identifier := by
    rw [Value.orElse, if_pos (isPresent_rootName document name), Scope.identify, happly]
    rfl
  exact ⟨_, run_declare_of_identified hidentifier true .empty⟩

/-- Compiling a document builds the root declaration and then declares everything the document refers
to; putting the declarations together never fails. -/
theorem compile_eq (naming : Naming) (document name : Value) :
    (∃ fault, ((declare (rootScope naming document name) document (rootName document name) true).run
          .empty).1 = .error fault ∧ compile naming document name = .error fault) ∨
      ∃ root outcome last left,
        ((declare (rootScope naming document name) document (rootName document name) true).run
            .empty).1 = .ok root ∧
          Runs document (rootScope naming document name) [] (fresh [] (references document)) outcome
            last left ∧
          compile naming document name = outcome.map fun results =>
            withRoot root (Namespace.place naming (Namespace.empty (.text "")) results) := by
  rcases run_entries naming document name with ⟨fault, d, hroot, hrun⟩ |
    ⟨root, outcome, last, left, hroot, hruns, hrun⟩
  · exact Or.inl ⟨fault, congrArg Prod.fst hroot, by rw [compile, hrun]; rfl⟩
  · refine Or.inr ⟨root, outcome, last, left, congrArg Prod.fst hroot, hruns, ?_⟩
    rw [compile, hrun]
    cases outcome with
    | error fault => rfl
    | ok results =>
      simp only [Except.map, bind, Except.bind, Namespace.assemble_entryOf, Fault.ofMalformed]
      rfl

/-- In a document, the loop over the pending paths stops at the first path without a declaration in
breadth-first order. -/
theorem firstFault_of_runs {scope : Scope} {last left found : List (List Text)}
    {outcome : Except Fault (List (List Text × Declaration))}
    (h : Runs document scope [] (fresh [] (references document)) outcome last left)
    (hfound : found = (references document ++ found.flatMap (referencesAt document)).eraseDups)
    (hmem : ∀ path, path ∈ found ↔
      BreadthFirst.Reachable (referencesAt document) (references document) path) :
    FirstFault document scope found outcome := by
  have hstart : [] ++ fresh [] (references document) =
      (references document ++ [].flatMap (referencesAt document)).eraseDups := by simp [fresh]
  exact h.firstFault hstart hfound (fun path => (hmem path).mp) rfl

/-- Every path that can be reached has segments and none of them is empty. -/
theorem proper_of_reachable {path : List Text}
    (h : BreadthFirst.Reachable (referencesAt document) (references document) path) :
    Pointer.Proper path :=
  Value.proper_of_mem_writtenPaths (mem_writtenPaths_of_reachable h)

/-- Where a document compiles, its types and those at every path that can be reached can be built. -/
theorem accepted_of_compile {tree : Namespace} (hname : (rootScope naming document name).Total)
    (h : compile naming document name = .ok tree) :
    Accepted (rootScope naming document name) document ∧
      ∀ path, BreadthFirst.Reachable (referencesAt document) (references document) path →
        AcceptedAt document (rootScope naming document name) path := by
  obtain ⟨toDeclaration, hroot⟩ := run_declare_root hname
  rcases compile_eq naming document name with ⟨fault, -, hcompile⟩ |
    ⟨root, outcome, last, left, hdeclare, hruns, hcompile⟩
  · cases hcompile.symm.trans h
  · obtain ⟨found, hfound, hmem, -⟩ := exists_finished_order document
    obtain ⟨results, rfl⟩ := exists_eq_ok_of_map (hcompile.symm.trans h)
    refine ⟨exists_eq_ok_of_map (hroot.symm.trans hdeclare), fun path hpath => ?_⟩
    apply (exists_declaredAt_iff (proper_of_reachable hpath)).mp
    exact firstFault_of_runs hruns hfound hmem path ((hmem path).mpr hpath)

/-- Where a document does not compile, its fault is that of its types, without a place, or that of the
first path in breadth-first order which has no declaration. -/
theorem fault_of_compile {fault : Fault} (hname : (rootScope naming document name).Total)
    (h : compile naming document name = .error fault) :
    (((types (rootScope naming document name) document).run .empty).1 = .error fault ∧
        fault.reportedAt none = fault) ∨
      (Accepted (rootScope naming document name) document ∧
        ∃ before path after,
          (∀ n, document.referenceCount ≤ n →
            BreadthFirst.order (referencesAt document) (references document) n =
              before ++ path :: after) ∧
            (∀ p ∈ before, AcceptedAt document (rootScope naming document name) p) ∧
            BreadthFirst.Reachable (referencesAt document) (references document) path ∧
            declaredAt document (rootScope naming document name) path = .error fault) := by
  obtain ⟨toDeclaration, hroot⟩ := run_declare_root hname
  rcases compile_eq naming document name with ⟨cause, hdeclare, hcompile⟩ |
    ⟨root, outcome, last, left, hdeclare, hruns, hcompile⟩
  · cases hcompile.symm.trans h
    have htypes := eq_error_of_map (hroot.symm.trans hdeclare)
    have hplaced := run_types_reportingAt (rootScope naming document name) document none
    rw [htypes] at hplaced
    exact Or.inl ⟨htypes, (Except.error.inj (htypes.symm.trans hplaced)).symm⟩
  · cases eq_error_of_map (hcompile.symm.trans h)
    obtain ⟨found, hfound, hmem, horder⟩ := exists_finished_order document
    obtain ⟨before, path, after, rfl, hbefore, hfault⟩ := firstFault_of_runs hruns hfound hmem
    refine Or.inr ⟨exists_eq_ok_of_map (hroot.symm.trans hdeclare), before, path, after, horder,
      fun p hp => ?_, (hmem path).mp (by simp), hfault⟩
    have hreachable := (hmem p).mp (List.mem_append_left _ hp)
    exact (exists_declaredAt_iff (proper_of_reachable hreachable)).mp (hbefore p hp)

/-- A document whose root has an identifier, as every text has, and whose references hold no malformed
numerals compiles if its types can be built and every path that can be reached from it leads to a
schema whose types can be built. Otherwise it fails with the fault of the first offender. The document
comes first, and its fault has no place. The paths follow in breadth-first order: a path that leads
nowhere is named by its canonical spelling, without a place, and any other fault is that of the types
at the path, reported there. -/
theorem compile_fails_first (hname : (rootScope naming document name).Total)
    (hnumerals : ∀ path, BreadthFirst.Reachable (referencesAt document) (references document) path →
      ∀ segment ∈ path, ∃ n, numeral? segment = .ok n) :
    ((∃ tree, compile naming document name = .ok tree) ↔
        Accepted (rootScope naming document name) document ∧
          ∀ path, BreadthFirst.Reachable (referencesAt document) (references document) path →
            AcceptedAt document (rootScope naming document name) path) ∧
      ∀ fault, compile naming document name = .error fault →
        (((types (rootScope naming document name) document).run .empty).1 = .error fault ∧
            fault.reportedAt none = fault) ∨
          (Accepted (rootScope naming document name) document ∧
            ∃ before path after,
              (∀ n, document.referenceCount ≤ n →
                BreadthFirst.order (referencesAt document) (references document) n =
                  before ++ path :: after) ∧
                (∀ p ∈ before, AcceptedAt document (rootScope naming document name) p) ∧
                ((Pointer.target? document path = .ok none ∧
                    fault = .schema (.unresolved (Pointer.join path)) none) ∨
                  ∃ schema cause, Pointer.target? document path = .ok (some schema) ∧
                    ((types (rootScope naming document name) schema).run .empty).1 = .error cause ∧
                    fault = cause.reportedAt (some (Pointer.join path)))) := by
  refine ⟨⟨?_, ?_⟩, ?_⟩
  · rintro ⟨tree, h⟩
    exact accepted_of_compile hname h
  · rintro ⟨⟨alternatives, haccepted⟩, hall⟩
    cases hcompile : compile naming document name with
    | ok tree => exact ⟨tree, rfl⟩
    | error fault =>
      rcases fault_of_compile hname hcompile with ⟨htypes, -⟩ |
        ⟨-, before, path, after, -, -, hreachable, hfault⟩
      · cases htypes.symm.trans haccepted
      · obtain ⟨declaration, hdeclared⟩ :=
          (exists_declaredAt_iff (proper_of_reachable hreachable)).mpr (hall path hreachable)
        cases hfault.symm.trans hdeclared
  · intro fault h
    rcases fault_of_compile hname h with hroot |
      ⟨haccepted, before, path, after, horder, hbefore, hreachable, hfault⟩
    · exact Or.inl hroot
    · exact Or.inr ⟨haccepted, before, path, after, horder, hbefore,
        fault_of_declaredAt (proper_of_reachable hreachable) (hnumerals path hreachable) hfault⟩

/-- A document with two offenders. The one that leads nowhere is discovered first, although the other
one stands before it. -/
def twoOffenders : Value :=
  .object [(.text "oneOf", .list [.object [(.text "$ref", .text "#/definitions/outer")],
      .object [(.text "$ref", .text "#/definitions/missing")]]),
    (.text "definitions", .object [
      (.text "outer", .object [(.text "type", .text "array"),
        (.text "items", .object [(.text "$ref", .text "#/definitions/inner")])]),
      (.text "inner", .object [(.text "type", .text "unheard")])])]

/-- Of two offenders, the one discovered first is reported. -/
theorem compile_fails_first_twoOffenders :
    (rootScope .standard twoOffenders .null).Total ∧
      (∀ path, BreadthFirst.Reachable (referencesAt twoOffenders) (references twoOffenders) path →
        ∀ segment ∈ path, ∃ n, numeral? segment = .ok n) ∧
      compile .standard twoOffenders .null =
        .error (.schema (.unresolved "#/definitions/missing") none) ∧
      ∃ before path after,
        BreadthFirst.order (referencesAt twoOffenders) (references twoOffenders) 3 =
            before ++ path :: after ∧
          (∀ p ∈ before, AcceptedAt twoOffenders (rootScope .standard twoOffenders .null) p) ∧
          Pointer.join path = "#/definitions/missing" := by
  have hname : (rootScope .standard twoOffenders .null).Total := by
    rintro _ ⟨⟩
    exact ⟨_, rfl⟩
  have hnumerals : ∀ path ∈ twoOffenders.writtenPaths, ∀ segment ∈ path,
      (numeral? segment).toOption.isSome = true := by decide +kernel
  have hreachable : ∀ path,
      BreadthFirst.Reachable (referencesAt twoOffenders) (references twoOffenders) path →
        ∀ segment ∈ path, ∃ n, numeral? segment = .ok n := fun path hpath segment hsegment =>
    exists_eq_ok (hnumerals path (mem_writtenPaths_of_reachable hpath) segment hsegment)
  have hfault : (match compile .standard twoOffenders .null with
      | .error (.schema (.unresolved ref) none) => ref == "#/definitions/missing"
      | _ => false) = true := by decide +kernel
  split at hfault
  · rename_i ref hcompile
    rw [eq_of_beq hfault] at hcompile
    refine ⟨hname, hreachable, hcompile, ?_⟩
    rcases (compile_fails_first hname hreachable).2 _ hcompile with ⟨htypes, -⟩ |
      ⟨-, before, path, after, horder, hbefore, ⟨-, hmissing⟩ | ⟨schema, cause, -, -, hrejected⟩⟩
    · have haccepted : ((types (rootScope .standard twoOffenders .null) twoOffenders).run
          .empty).1.toOption.isSome = true := by decide +kernel
      rw [htypes] at haccepted
      cases haccepted
    · injection hmissing with hcause _
      injection hcause with hjoin
      exact ⟨before, path, after, horder 3 (by decide +kernel), hbefore, hjoin.symm⟩
    · cases cause <;> cases hrejected
  · cases hfault

end Schema

end SchemaTypes
