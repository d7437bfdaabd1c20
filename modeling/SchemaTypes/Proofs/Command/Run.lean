import SchemaTypes.Command.Run
import SchemaTypes.Proofs.Command.Arguments
import SchemaTypes.Proofs.Command.Files

/-!
# The command writes all or nothing

A run that fails leaves every file as it is, wherever it fails, and prints nothing. A run that
writes its output to a file changes no other file, and writes what it would have printed without the
output option. This holds for every way to read YAML.
-/

namespace SchemaTypes

namespace Namespace

mutual

/-- The number of declarations in a namespace and further in. -/
def declarationCount : Namespace → Nat
  | ⟨_, declarations, children⟩ => declarations.length + declarationCountAll children

/-- The number of declarations in several namespaces and further in. -/
def declarationCountAll : List Namespace → Nat
  | [] => 0
  | node :: rest => declarationCount node + declarationCountAll rest

end

mutual

/-- There is an entry for every declaration. -/
theorem length_entriesUnder (path : List Value) :
    ∀ node : Namespace, (entriesUnder path node).length = node.declarationCount
  | ⟨name, declarations, children⟩ => by
    rw [entriesUnder, declarationCount, List.length_append, List.length_map,
      length_entriesUnderAll (extendPath path name) children]

/-- There is an entry for every declaration of several namespaces. -/
theorem length_entriesUnderAll (path : List Value) :
    ∀ nodes : List Namespace, (entriesUnderAll path nodes).length = declarationCountAll nodes
  | [] => rfl
  | node :: rest => by
    rw [entriesUnderAll, declarationCountAll, List.length_append, length_entriesUnder path node,
      length_entriesUnderAll path rest]

end

end Namespace

namespace Command

open Files

namespace Outcome

/-- What a run prints. -/
def stdout : Outcome → Text
  | printed text => text
  | _ => ""

/-- Whether a run came to its end. -/
def returned : Outcome → Bool
  | printed _ => true
  | _ => false

/-- A run that failed with a message for an error, or because something is malformed. -/
def Failed (outcome : Outcome) : Prop :=
  (∃ message, outcome = failed ("Error: " ++ message)) ∨ ∃ cause, outcome = malformed cause

/-- A run that ends with a fault failed. -/
theorem failed_ofFault (fault : Fault) : (ofFault fault).Failed := by
  cases fault with
  | schema fault path => exact .inl ⟨fault.message path, rfl⟩
  | malformed cause => exact .inr ⟨cause, rfl⟩

/-- A run that cannot write its output failed. -/
theorem failed_ofFileFault (fault : FileFault) : (ofFileFault fault).Failed := by
  cases fault with
  | refused refusal => exact .inl ⟨refusal.message, rfl⟩
  | unencodable => exact .inr ⟨.unencodable, rfl⟩
  | nullInPath => exact .inr ⟨.nullInPath, rfl⟩

/-- A run that failed prints nothing. -/
theorem Failed.stdout_eq {outcome : Outcome} (h : outcome.Failed) : outcome.stdout = "" := by
  obtain ⟨message, rfl⟩ | ⟨cause, rfl⟩ := h <;> rfl

/-- A run that failed did not come to its end. -/
theorem Failed.returned_eq {outcome : Outcome} (h : outcome.Failed) : outcome.returned = false := by
  obtain ⟨message, rfl⟩ | ⟨cause, rfl⟩ := h <;> rfl

end Outcome

/-- What is generated is the source of the declarations and their number. -/
theorem produce_eq_ok {yaml : YamlReader} {inv : Invocation} {content : Except FileFault Bytes} {product : Product}
    (h : produce yaml inv content = .ok product) :
    ∃ tree, inv.tree yaml content = .ok tree ∧ tree.source? header = .ok product.source ∧
      product.count = tree.declarationCount := by
  obtain ⟨tree, htree, h⟩ := Faulting.bind_eq_ok h
  obtain ⟨source, hsource, h⟩ := Faulting.bind_eq_ok h
  cases h
  exact ⟨tree, htree, Faulting.ofMalformed_eq_ok hsource, Namespace.length_entriesUnder [] tree⟩

namespace Invocation

/-- The ways in which a run of an invocation may end. -/
inductive Ends (yaml : YamlReader) (inv : Invocation) (files : Files) : Outcome → Files → Prop where
  /-- Nothing was generated. -/
  | faulty {fault : Fault} (hproduce : produce yaml inv (files.read inv.documentPath) = .error fault) :
    Ends yaml inv files (.ofFault fault) files
  /-- What was generated is printed. -/
  | shown {product : Product} (hproduce : produce yaml inv (files.read inv.documentPath) = .ok product)
    (houtput : inv.output = .console) : Ends yaml inv files (.printed product.source) files
  /-- The output was left out. -/
  | nowhere (houtput : inv.output = .missing) : Ends yaml inv files (.malformed .missingOutput) files
  /-- The file could not be written. -/
  | refused {fault : FileFault} {made : Files} (hgrown : Grown files made) :
    Ends yaml inv files (.ofFileFault fault) made
  /-- The file was written. -/
  | written {product : Product} {output : Text} {after : Files}
    (hproduce : produce yaml inv (files.read inv.documentPath) = .ok product)
    (houtput : inv.output = .file output)
    (hwrote : OnlyWroteText files after (.ofText output) product.source) :
    Ends yaml inv files (.printed (report inv (.ofText output) product)) after

variable {yaml : YamlReader} {inv : Invocation} {files after : Files} {outcome : Outcome} {output : Text}

/-- Every run of an invocation ends in one of these ways. -/
theorem ends_run (yaml : YamlReader) (inv : Invocation) (files : Files) :
    Ends yaml inv files (inv.run yaml files).1 (inv.run yaml files).2 := by
  rw [run]
  cases hproduce : produce yaml inv (files.read inv.documentPath) with
  | error fault => exact .faulty hproduce
  | ok product =>
    cases houtput : inv.output with
    | console => exact .shown hproduce houtput
    | missing => exact .nowhere houtput
    | file output =>
      obtain ⟨fault, made, hwrite, hgrown⟩ | ⟨after, hwrite, hwrote⟩ :=
        writeWithin_spec files (.ofText output) product.source
      · simp only [hwrite]
        exact .refused hgrown
      · simp only [hwrite]
        exact .written hproduce houtput hwrote

/-- A run that does not come to its end failed, and every file is as before. -/
theorem Ends.of_not_returned (h : inv.Ends yaml files outcome after) (hreturned : outcome.returned = false) :
    outcome.Failed ∧ ∀ place, after.content? place = files.content? place := by
  cases h with
  | faulty => exact ⟨Outcome.failed_ofFault _, fun _ => rfl⟩
  | shown => cases hreturned
  | nowhere => exact ⟨.inr ⟨_, rfl⟩, fun _ => rfl⟩
  | refused hgrown => exact ⟨Outcome.failed_ofFileFault _, hgrown.content?_eq⟩
  | written => cases hreturned

/-- A run that comes to its end with an output file wrote this file only, and reports on it. -/
theorem Ends.of_returned (h : inv.Ends yaml files outcome after) (hreturned : outcome.returned = true)
    (houtput : inv.output = .file output) :
    ∃ product, produce yaml inv (files.read inv.documentPath) = .ok product ∧
      OnlyWroteText files after (.ofText output) product.source ∧
      outcome = .printed (report inv (.ofText output) product) := by
  cases h with
  | faulty =>
    rw [(Outcome.failed_ofFault _).returned_eq] at hreturned
    cases hreturned
  | shown _ hconsole =>
    rw [hconsole] at houtput
    cases houtput
  | nowhere => cases hreturned
  | refused =>
    rw [(Outcome.failed_ofFileFault _).returned_eq] at hreturned
    cases hreturned
  | written hproduce hfile hwrote =>
    rw [hfile] at houtput
    cases houtput
    exact ⟨_, hproduce, hwrote, rfl⟩

/-- Without its output an invocation generates the same, prints it and leaves all files as they are. -/
theorem run_toConsole (yaml : YamlReader) (inv : Invocation) (files : Files) :
    inv.toConsole.run yaml files =
      match produce yaml inv (files.read inv.documentPath) with
      | .error fault => (.ofFault fault, files)
      | .ok product => (.printed product.source, files) := rfl

/-- What fails without an output fails with it in the same way. -/
theorem run_eq_of_not_returned (h : (inv.toConsole.run yaml files).1.returned = false) :
    inv.run yaml files = inv.toConsole.run yaml files := by
  rw [run_toConsole] at h ⊢
  cases hproduce : produce yaml inv (files.read inv.documentPath) with
  | error fault => rw [run, hproduce]
  | ok product =>
    rw [hproduce] at h
    cases h

end Invocation

/-- The command writes all or nothing. A run that fails says so with an error or as malformed, prints
nothing and leaves every file as it is. A run that writes its output to a file changes this file
only; there it writes what it prints without its output options, and it reports the number of
declarations. What fails without the output options fails with them in the same way. All this holds
however YAML is read. -/
theorem run_all_or_nothing (yaml : YamlReader) (files : Files) {arguments : List Text} {inv : Invocation}
    (h : Invocation.ofArguments arguments = some inv) {outcome : Outcome} {after : Files}
    (hrun : run yaml files arguments = (outcome, after)) :
    (outcome.returned = false →
      outcome.Failed ∧ outcome.stdout = "" ∧ ∀ place, after.content? place = files.content? place) ∧
    (∀ output, outcome.returned = true → inv.output = .file output →
      ∃ tree source, inv.tree yaml (files.read inv.documentPath) = .ok tree ∧
        tree.source? header = .ok source ∧
        run yaml files (withoutOutput arguments) = (.printed source, files) ∧
        OnlyWroteText files after (.ofText output) source ∧
        outcome = .printed (report inv (.ofText output) ⟨source, tree.declarationCount⟩)) ∧
    (run yaml files (withoutOutput arguments)).2 = files ∧
    ((run yaml files (withoutOutput arguments)).1.returned = false →
      run yaml files arguments = run yaml files (withoutOutput arguments)) := by
  have hinv : run yaml files arguments = inv.run yaml files := by rw [run, h]
  have hconsole : run yaml files (withoutOutput arguments) = inv.toConsole.run yaml files := by
    rw [run, Invocation.ofArguments_withoutOutput h]
  have hends : inv.Ends yaml files outcome after := by
    have hends := Invocation.ends_run yaml inv files
    rwa [← hinv, hrun] at hends
  rw [hconsole]
  refine ⟨fun hreturned => ?_, fun output hreturned houtput => ?_, ?_, fun hreturned => ?_⟩
  · obtain ⟨hfailed, hkept⟩ := hends.of_not_returned hreturned
    exact ⟨hfailed, hfailed.stdout_eq, hkept⟩
  · obtain ⟨⟨source, count⟩, hproduce, hwrote, rfl⟩ := hends.of_returned hreturned houtput
    obtain ⟨tree, htree, hsource, rfl⟩ := produce_eq_ok hproduce
    refine ⟨tree, source, htree, hsource, ?_, hwrote, rfl⟩
    rw [Invocation.run_toConsole, hproduce]
  · rw [Invocation.run_toConsole]
    cases produce yaml inv (files.read inv.documentPath) <;> rfl
  · rw [hinv, Invocation.run_eq_of_not_returned hreturned]

/-- A document, and one that cannot be loaded. -/
def pointFiles : Files :=
  let point := "\x7b\"title\": \"point\", \"type\": \"number\"\x7d"
  let broken := "\x7b\"title\": "
  (Files.empty.add ["docs", "point.json"] point.toUTF8.toList).add ["docs", "broken.json"]
    broken.toUTF8.toList

/-- A way to read YAML that finds nothing in it. -/
def readNothing : YamlReader := fun _ => .ok .null

/-- The types of a document are written to a new directory, and those of one that cannot be loaded
are not. -/
theorem run_all_or_nothing_point :
    (∃ source after, run readNothing pointFiles ["docs/point.json", "--out=types/point.d.ts"] =
        (.printed "Generated 1 declaration(s) from docs/point.json -> types/point.d.ts\n", after) ∧
      run readNothing pointFiles ["docs/point.json"] = (.printed source, pointFiles) ∧
      OnlyWroteText pointFiles after ⟨"", ["types", "point.d.ts"]⟩ source) ∧
    ∃ outcome after,
      run readNothing pointFiles ["--output", "types/point.d.ts", "docs/broken.json"] = (outcome, after) ∧
        outcome.Failed ∧ ∀ place, after.content? place = pointFiles.content? place := by
  have hpoint : (run readNothing pointFiles ["docs/point.json", "--out=types/point.d.ts"]).1.stdout =
      "Generated 1 declaration(s) from docs/point.json -> types/point.d.ts\n" := by decide +kernel
  have hreturned :
      (run readNothing pointFiles ["docs/point.json", "--out=types/point.d.ts"]).1.returned = true := by
    decide +kernel
  have hbroken :
      (run readNothing pointFiles ["--output", "types/point.d.ts", "docs/broken.json"]).1.returned = false := by
    decide +kernel
  have hleft : withoutOutput ["docs/point.json", "--out=types/point.d.ts"] =
      [("docs/point.json" : Text)] := by decide +kernel
  constructor
  · rcases hrun : run readNothing pointFiles ["docs/point.json", "--out=types/point.d.ts"] with ⟨outcome, after⟩
    have hinv : Invocation.ofArguments ["docs/point.json", "--out=types/point.d.ts"] =
        some ⟨some "docs/point.json", none, none, [], false, .file "types/point.d.ts"⟩ := rfl
    rw [hrun] at hpoint hreturned
    obtain ⟨tree, source, -, -, hconsole, hwrote, rfl⟩ :=
      (run_all_or_nothing readNothing pointFiles hinv hrun).2.1 _ hreturned rfl
    rw [hleft] at hconsole
    exact ⟨source, after, by rw [← hpoint]; rfl, hconsole, hwrote⟩
  · rcases hrun :
      run readNothing pointFiles ["--output", "types/point.d.ts", "docs/broken.json"] with ⟨outcome, after⟩
    have hinv : Invocation.ofArguments ["--output", "types/point.d.ts", "docs/broken.json"] =
        some ⟨some "docs/broken.json", none, none, [], false, .file "types/point.d.ts"⟩ := rfl
    rw [hrun] at hbroken
    obtain ⟨hfailed, -, hkept⟩ := (run_all_or_nothing readNothing pointFiles hinv hrun).1 hbroken
    exact ⟨outcome, after, rfl, hfailed, hkept⟩

end Command

end SchemaTypes
