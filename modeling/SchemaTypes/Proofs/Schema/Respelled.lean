import SchemaTypes.Proofs.Schema.Closed
import SchemaTypes.Proofs.Schema.Spelling

/-!
# Compiling a respelled document

A document and a respelled one compile in lockstep: the same paths are declared in the same order, and both
documents compile or both fail in the same way. What they declare is the same as well. All of this rests on the
names of the two documents, for these alone may differ where a name is asked for. A document may be named by a
title that is no text, and references in the title are respelled with the others. A naming may accept the one
name and refuse the other, or make different identifiers of them.
-/

namespace SchemaTypes

open Faulting Value

namespace Resolution

open Discovery

variable {condition : Prop} {scope scope' : Scope} {document document' : Value} {path : List Text}

/-- A place for faults changes nothing in what names are. -/
theorem alike_reportingAt (h : scope.Alike condition scope') (place : Option Text) :
    (scope.reportingAt place).Alike condition (scope'.reportingAt place) :=
  ⟨h.naming_eq, rfl, h.roots⟩

/-- The parts at a path with segments are declared in lockstep, under the name at the end of the path. -/
theorem declare_path_lockstep (h : scope.Alike condition scope') {schema schema' : Value}
    (hschema : schema.Akin schema') (hproper : Pointer.Proper path) :
    Lockstep (SameIf condition)
      (Schema.declare scope schema (.text (path.getLastD "")) (path.length = 1))
      (Schema.declare scope' schema' (.text (path.getLastD "")) (path.length = 1)) := by
  have hpresent : (Value.text (path.getLastD "")).isPresent = true := decide_eq_true hproper.getLastD_ne_empty
  refine Schema.declare_lockstep h hschema ?_ _
  rw [orElse_of_isPresent hpresent, orElse_of_isPresent hpresent, Scope.identify, Scope.identify, h.naming_eq]
  exact .refl (fun _ _ => rfl) _

/-- What is declared at a path on its own matches. -/
theorem declaredAt_matching (h : scope.Alike condition scope') (hdocument : document.Akin document')
    (hproper : Pointer.Proper path) :
    Matching (SameIf condition) (declaredAt document scope path) (declaredAt document' scope' path) := by
  have hfound := Pointer.target?_found hdocument path
  rw [declaredAt, declaredAt]
  generalize Pointer.target? document path = result, Pointer.target? document' path = result' at hfound ⊢
  cases hfound with
  | error cause => exact .error rfl
  | ok hpart =>
    cases hpart with
    | none => exact .error (Schema.fault_erased h rfl)
    | some hschema => exact (declare_path_lockstep (alike_reportingAt h _) hschema hproper .empty).2

/-- The same new paths are visited at a path that is declared in both documents. -/
theorem fresh_referencesAt_eq (h : scope.Alike condition scope') (hdocument : document.Akin document')
    (hproper : Pointer.Proper path) {declaration declaration' : Declaration}
    (hdeclared : declaredAt document scope path = .ok declaration)
    (hdeclared' : declaredAt document' scope' path = .ok declaration') {known : List (List Text)}
    (hknown : ∀ p ∈ known, Pointer.Proper p) :
    fresh known (Schema.referencesAt document path) = fresh known (Schema.referencesAt document' path) := by
  obtain ⟨schema, hdeclares⟩ := declares_of_declaredAt hdeclared
  obtain ⟨schema', hdeclares'⟩ := declares_of_declaredAt hdeclared'
  have hfound := Pointer.target?_found hdocument path
  rw [hdeclares.target, hdeclares'.target] at hfound
  cases hfound with
  | ok hpart =>
    cases hpart with
    | some hschema =>
      -- Both declarations start from the known paths and end in the same state, which lists the paths.
      have hstates := (declare_path_lockstep h hschema hproper (.ofPaths known [])).1
      rw [hdeclares.run_eq, hdeclares'.run_eq] at hstates
      rw [hdeclares.referencesAt_eq, hdeclares'.referencesAt_eq]
      exact fresh_eq_of_addAll_eq hknown (fun _ => Schema.proper_of_mem_references)
        (fun _ => Schema.proper_of_mem_references) hstates

/-- Pending paths are declared in lockstep. -/
theorem runs_matching (h : scope.Alike condition scope') (hdocument : document.Akin document')
    {declared pending last left last' left' : List (List Text)}
    {outcome outcome' : Except Fault (List (List Text × Declaration))}
    (hruns : Runs document scope declared pending outcome last left)
    (hruns' : Runs document' scope' declared pending outcome' last' left')
    (hproper : ∀ p ∈ declared ++ pending, Pointer.Proper p) :
    Matching (SameIf condition) outcome outcome' := by
  induction hruns generalizing outcome' last' left' with
  | done =>
    cases hruns'
    exact .ok fun _ => rfl
  | @stop declared rest visited path fault hfault _ =>
    have hmatch := declaredAt_matching h hdocument (hproper path (by simp))
    cases hruns' with
    | stop hfault' _ =>
      rw [hfault, hfault'] at hmatch
      cases hmatch with
      | error herased => exact .error herased
    | step hdeclared' _ =>
      rw [hfault, hdeclared'] at hmatch
      cases hmatch
  | @step declared rest path declaration outcome last left hdeclared _ ih =>
    have hpath := hproper path (by simp)
    have hmatch := declaredAt_matching h hdocument hpath
    rw [hdeclared] at hmatch
    cases hruns' with
    | stop hfault' _ =>
      rw [hfault'] at hmatch
      cases hmatch
    | @step _ _ _ declaration' others _ _ hdeclared' hnext' =>
      rw [hdeclared'] at hmatch
      have hknown : ∀ p ∈ declared ++ [path] ++ rest, Pointer.Proper p := by simpa using hproper
      have hnext := proper_append_fresh hknown (Schema.referencesAt_subset_writtenPaths document path)
      rw [List.append_assoc (declared ++ [path])] at hnext
      rw [← fresh_referencesAt_eq h hdocument hpath hdeclared hdeclared' hknown] at hnext'
      cases hmatch with
      | ok hsame =>
        refine (ih hnext' hnext).map fun results results' hresults hcondition => ?_
        rw [hsame hcondition, hresults hcondition]

end Resolution

namespace Schema

open Resolution Namespace

variable {naming : Naming} {document other name : Value}

/-- The same is made of the names of two documents. -/
def SameRoot (naming : Naming) (document other name : Value) : Prop :=
  naming.apply (rootName document name) = naming.apply (rootName other name)

/-- The names of two documents are both accepted, or both refused for the same cause. -/
def RootsAgree (naming : Naming) (document other name : Value) : Prop :=
  ∀ cause, naming.apply (rootName document name) = .error cause ↔
    naming.apply (rootName other name) = .error cause

/-- The name of a respelled document is respelled. -/
theorem rootName_respells (h : document.respells other = true) (name : Value) :
    (rootName document name).respells (rootName other name) = true :=
  orElse_respells (respells_self name) (orElse_respells (title_respells (akin_of_respells h)) rfl)

/-- The same is made of the names of a document and of a respelled one if the name is given, if the title is
a scalar, or if names that are no texts are refused. -/
theorem sameRoot_of_respells (h : document.respells other = true)
    (hname : name.isPresent = true ∨ isScalar (title document) = true ∨ naming = .standard) :
    SameRoot naming document other name := by
  rw [SameRoot]
  rcases hname with hpresent | htitle | rfl
  · rw [rootName, rootName, orElse_of_isPresent hpresent, orElse_of_isPresent hpresent]
  · have hsame := (isScalar_of_respells (title_respells (akin_of_respells h))).2 htitle
    rw [rootName, rootName, hsame]
  · obtain ⟨hscalars, hequal⟩ := isScalar_of_respells (rootName_respells h name)
    have hrefused {v : Value} (hv : isScalar v = false) : Naming.standard.apply v = .error .nameNotText := by
      cases v with
      | scalar s => cases hv
      | _ => rfl
    cases hscalar : isScalar (rootName document name) with
    | true => rw [hequal hscalar]
    | false => rw [hrefused hscalar, hrefused (hscalars.symm.trans hscalar)]

/-- The names of two documents match if both are accepted or both refused. -/
theorem rootName_matching (h : RootsAgree naming document other name) :
    Matching (SameIf (SameRoot naming document other name))
      ((rootScope naming document name).identify (rootName document name))
      ((rootScope naming other name).identify (rootName other name)) :=
  identify_matching h id

/-- The scopes of a document and of a respelled one are alike. -/
theorem rootScope_alike (h : RootsAgree naming document other name) :
    (rootScope naming document name).Alike (SameRoot naming document other name)
      (rootScope naming other name) :=
  ⟨rfl, rfl, .some (rootName_matching h)⟩

/-- The declarations of a document and of a respelled one match. -/
theorem entries_matching (h : document.respells other = true) (hagree : RootsAgree naming document other name) :
    Matching (SameIf (SameRoot naming document other name))
      ((entries naming document name).run .empty).1 ((entries naming other name).run .empty).1 := by
  have halike := rootScope_alike hagree
  have hakin := akin_of_respells h
  have hname : Matching (SameIf (SameRoot naming document other name))
      ((rootScope naming document name).identify ((rootName document name).orElse
        ((title document).orElse (.text fallbackName))))
      ((rootScope naming other name).identify ((rootName other name).orElse
        ((title other).orElse (.text fallbackName)))) := by
    rw [orElse_of_isPresent (isPresent_rootName document name),
      orElse_of_isPresent (isPresent_rootName other name)]
    exact rootName_matching hagree
  obtain ⟨hstates, hroots⟩ := declare_lockstep halike hakin hname true .empty
  rcases run_entries naming document name with ⟨fault, d, hroot, hrun⟩ |
      ⟨root, outcome, last, left, hroot, hruns, hrun⟩ <;>
    rcases run_entries naming other name with ⟨fault', d', hroot', hrun'⟩ |
      ⟨root', outcome', last', left', hroot', hruns', hrun'⟩ <;>
    rw [hroot, hroot'] at hroots hstates <;> rw [hrun, hrun']
  · cases hroots with
    | error herased => exact .error herased
  · cases hroots
  · cases hroots
  · have hfresh : Discovery.fresh [] (references document) = Discovery.fresh [] (references other) :=
      Discovery.fresh_eq_of_addAll_eq (List.forall_mem_nil _) (fun _ => proper_of_mem_references)
        (fun _ => proper_of_mem_references) hstates
    rw [← hfresh] at hruns'
    cases hroots with
    | ok hsame =>
      refine (runs_matching halike hakin hruns hruns' ?_).map fun results results' hresults hcondition => ?_
      · exact fun p hp => proper_of_mem_references (Discovery.mem_fresh.mp hp).1
      · rw [hsame hcondition, hresults hcondition]

/-- Declarations that are made can be put together. -/
theorem compile_of_run {root : Declaration} {results : List (List Text × Declaration)} {final : Resolution}
    (h : (entries naming document name).run .empty = (.ok (root, results.map entryOf), final)) :
    compile naming document name = .ok (withRoot root (place naming (empty (.text "")) results)) := by
  rw [compile, h]
  change Fault.ofMalformed (assemble naming (results.map entryOf)) >>= _ = _
  rw [assemble_entryOf]
  rfl

/-- A document and a respelled one compile alike if both names are accepted or both refused. Their trees are
equal if and only if the same is made of both names. -/
theorem compile_matching (h : document.respells other = true) (hagree : RootsAgree naming document other name) :
    Matching (fun tree tree' => tree = tree' ↔ SameRoot naming document other name)
      (compile naming document name) (compile naming other name) := by
  have hmatch := entries_matching h hagree
  rcases hrun : (entries naming document name).run .empty with ⟨result, final⟩
  rcases hrun' : (entries naming other name).run .empty with ⟨result', final'⟩
  rw [hrun, hrun'] at hmatch
  cases hmatch with
  | error herased =>
    rw [compile, compile, hrun, hrun']
    exact .error herased
  | @ok found found' hfound =>
    obtain ⟨root, found⟩ := found
    obtain ⟨root', found'⟩ := found'
    obtain ⟨hroot, results, rfl, -⟩ := run_entries_ok hrun
    obtain ⟨hroot', results', rfl, -⟩ := run_entries_ok hrun'
    rw [compile_of_run hrun, compile_of_run hrun']
    refine .ok ⟨fun htree => ?_, fun hsame => ?_⟩
    · have hdeclarations : root = root' :=
        (List.cons.inj (congrArg Namespace.declarations htree)).1
      exact (apply_rootName hroot).trans (hdeclarations ▸ apply_rootName hroot').symm
    · obtain ⟨rfl, hentries⟩ := Prod.mk.inj (hfound hsame)
      have hplaced := (assemble_entryOf naming results).symm.trans
        ((congrArg (assemble naming) hentries).trans (assemble_entryOf naming results'))
      rw [Except.ok.inj hplaced]

/-- A document and a respelled one compile or fail together, for every naming that accepts the names of both
or refuses both for the same cause. If they fail, their faults have the same kind, reason and place. If they
compile, their trees are equal exactly if the naming makes the same of both names. It does so whenever a name
is given, the title is a scalar or missing, or names that are no texts are refused. -/
theorem compile_respelled (h : document.respells other = true) (naming : Naming) (name : Value) :
    ((∀ cause, naming.apply (rootName document name) = .error cause ↔
        naming.apply (rootName other name) = .error cause) →
      match compile naming document name, compile naming other name with
      | .ok tree, .ok tree' =>
        tree = tree' ↔ naming.apply (rootName document name) = naming.apply (rootName other name)
      | .error fault, .error fault' => fault.erased = fault'.erased
      | _, _ => False) ∧
      (name.isPresent = true ∨ isScalar (title document) = true ∨ naming = .standard →
        naming.apply (rootName document name) = naming.apply (rootName other name)) := by
  refine ⟨fun hagree => ?_, sameRoot_of_respells h⟩
  have hmatch := compile_matching h hagree
  generalize compile naming document name = result, compile naming other name = result' at hmatch ⊢
  cases hmatch with
  | ok htrees => exact htrees
  | error herased => exact herased

/-- A schema with a reference to a definition and one to itself. -/
def selfReferring (definition self : Text) : Value :=
  .record [
    ("type", .text "object"),
    ("properties", .record [
      ("node", .record [("$ref", .text definition)]), ("self", .record [("$ref", .text self)])]),
    ("definitions", .record [("node", .record [("type", .text "string")])])]

/-- Slashes that are doubled or stand at the end change nothing. -/
theorem compile_respelled_slashes :
    (selfReferring "#/definitions/node" "#").respells (selfReferring "#//definitions/node/" "#/") = true ∧
      ∃ tree, compile .standard (selfReferring "#/definitions/node" "#") .null = .ok tree ∧
        compile .standard (selfReferring "#//definitions/node/" "#/") .null = .ok tree := by
  have h : (selfReferring "#/definitions/node" "#").respells
      (selfReferring "#//definitions/node/" "#/") = true := by decide +kernel
  obtain ⟨tree, htree⟩ :
      ∃ tree, compile .standard (selfReferring "#/definitions/node" "#") .null = .ok tree :=
    exists_eq_ok (by decide +kernel)
  obtain ⟨tree', htree'⟩ :
      ∃ tree, compile .standard (selfReferring "#//definitions/node/" "#/") .null = .ok tree :=
    exists_eq_ok (by decide +kernel)
  obtain ⟨hboth, hsame⟩ := compile_respelled h .standard .null
  have hroots := hsame (.inr (.inr rfl))
  rw [htree, htree'] at hboth
  obtain rfl : tree = tree' := (hboth fun cause => by rw [hroots]).mpr hroots
  exact ⟨h, tree, htree, htree'⟩

/-- A schema whose title is an object with a reference. -/
def titledByReference (ref : Text) : Value :=
  .record [("title", .record [("$ref", .text ref)]), ("type", .text "string")]

/-- The spelling of a reference shows if it is part of a name that is kept as it is. -/
theorem spelling_shows_in_title :
    (titledByReference "#/a/").respells (titledByReference "#/a") = true ∧
      ∃ tree tree', compile ⟨id, .ok⟩ (titledByReference "#/a/") .null = .ok tree ∧
        compile ⟨id, .ok⟩ (titledByReference "#/a") .null = .ok tree' ∧ tree ≠ tree' := by
  have h : (titledByReference "#/a/").respells (titledByReference "#/a") = true := by decide +kernel
  obtain ⟨tree, htree⟩ : ∃ tree, compile ⟨id, .ok⟩ (titledByReference "#/a/") .null = .ok tree :=
    exists_eq_ok (by decide +kernel)
  obtain ⟨tree', htree'⟩ : ∃ tree, compile ⟨id, .ok⟩ (titledByReference "#/a") .null = .ok tree :=
    exists_eq_ok (by decide +kernel)
  refine ⟨h, tree, tree', htree, htree', fun heq => ?_⟩
  have hagree : RootsAgree ⟨id, .ok⟩ (titledByReference "#/a/") (titledByReference "#/a") .null := by
    intro cause
    constructor <;> rintro ⟨⟩
  have hmatch := compile_matching h hagree
  rw [htree, htree'] at hmatch
  cases hmatch with
  | ok htrees =>
    have hnames : Value.record [("$ref", .text "#/a/")] = Value.record [("$ref", .text "#/a")] :=
      Except.ok.inj (htrees.mp heq)
    simp [Value.record] at hnames

end Schema

end SchemaTypes
