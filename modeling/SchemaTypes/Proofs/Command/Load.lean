import SchemaTypes.Proofs.Command.Run
import SchemaTypes.Proofs.Text.Join
import SchemaTypes.Proofs.Text.Utf8

/-!
# Which documents are reported as unloadable

A document that is no YAML is loaded as a mapping, or its path is reported together with what is
wrong with it: the file is refused, its text is no JSON, or the JSON is no mapping. Three things escape
this report. The bytes of a file may be the encoding of no text, a path may hold a null character, and
a path may hold a surrogate that has no place in a file name; all end as malformed, without a message. A
run of the command says the same of its document, and leaves all files as they are.
-/

namespace SchemaTypes.Command

namespace Path

/-- A path that was read is not written as the empty text. -/
theorem toText_ofText_ne (s : Text) : (ofText s).toText ≠ "" := by
  have hnames : ∀ name ∈ (ofText s).names, name ≠ "" := by
    intro name hname
    obtain ⟨piece, hpiece, rfl⟩ := List.mem_map.1 hname
    simp only [List.mem_filter, Bool.and_eq_true, Bool.not_eq_true', List.isEmpty_eq_false_iff]
      at hpiece
    intro hempty
    exact hpiece.2.1 (Text.ofList_eq_empty_iff.1 hempty)
  rw [toText]
  split
  next => decide
  next hsome =>
    intro hempty
    obtain ⟨hroot, hjoin⟩ := Text.append_eq_empty_iff.1 hempty
    obtain ⟨name, hname⟩ := List.exists_mem_of_ne_nil _ fun hnone => hsome ⟨hroot, hnone⟩
    have hlength := Text.length_le_length_joinWith "/" hname
    rw [hjoin] at hlength
    have hnil : name.toList = [] := List.length_eq_zero_iff.1 (Nat.le_zero.1 hlength)
    exact hnames name hname (Text.toList_eq_nil_iff.1 hnil)

end Path

/-- A document was loaded as a mapping, or its path is reported together with a cause. -/
inductive Reports (path : Path) : Except Fault Value → Prop where
  | mapping (members : Members) : Reports path (.ok (.object members))
  | unloadable (cause : LoadCause) : Reports path (.error (unloadable path cause))

variable {yaml : YamlReader} {path : Path} {content : Bytes} {files : Files} {cause : Malformed}

/-- What is malformed is not reported. -/
theorem not_reports_malformed : ¬Reports path (.error (.malformed cause)) := by
  intro h
  generalize hfault : (Except.error (.malformed cause) : Except Fault Value) = result at h
  cases h with
  | mapping => cases hfault
  | unloadable => cases hfault

/-- A value that is required to be a mapping is one or is reported. -/
theorem reports_requireMapping (path : Path) (value : Value) : Reports path (requireMapping path value) := by
  fun_cases requireMapping path value
  · exact .mapping _
  · exact .unloadable _

/-- Only a mapping comes out as one. -/
theorem requireMapping_eq_ok_iff {value : Value} {members : Members} :
    requireMapping path value = .ok (.object members) ↔ value = .object members := by
  constructor
  · intro h
    cases value with
    | object other =>
      cases h
      rfl
    | _ => cases h
  · rintro rfl
    rfl

/-- The content of a file that is no YAML is the JSON of its text, and must be a mapping. -/
theorem loadContent_eq (yaml : YamlReader) (hjson : isYaml path = false) {text : List CodePoint}
    (h : Text.encodeUtf8? text = some content) :
    loadContent yaml path content =
      match Json.read (Text.unifyLineEnds text) with
      | .ok value => requireMapping path value
      | .error fault => .error (unloadable path (.json (Text.unifyLineEnds text) fault)) := by
  rw [loadContent, Text.decodeUtf8?_of_encodeUtf8? h]
  simp only [parse, hjson, Bool.false_eq_true, if_false]
  cases Json.read (Text.unifyLineEnds text) <;> rfl

/-- The content of a file is loaded or reported if it is the encoding of a text. -/
theorem reports_loadContent (hjson : isYaml path = false) {text : List CodePoint}
    (h : Text.encodeUtf8? text = some content) : Reports path (loadContent yaml path content) := by
  rw [loadContent_eq yaml hjson h]
  cases Json.read (Text.unifyLineEnds text) with
  | ok value => exact reports_requireMapping path value
  | error fault => exact .unloadable _

/-- The content of a file that is the encoding of no text is malformed. -/
theorem loadContent_of_forall_ne (h : ∀ text, Text.encodeUtf8? text ≠ some content) :
    loadContent yaml path content = .error (.malformed .invalidEncoding) := by
  rw [loadContent, Text.decodeUtf8?_eq_none_iff.2 h]
  rfl

/-- A mapping is loaded exactly from the encoding of a text that is JSON of this mapping. -/
theorem load_eq_ok_iff (hjson : isYaml path = false) {read : Except FileFault Bytes} {members : Members} :
    load yaml path read = .ok (.object members) ↔
      ∃ text content, read = .ok content ∧ Text.encodeUtf8? text = some content ∧
        Json.read (Text.unifyLineEnds text) = .ok (.object members) := by
  constructor
  · intro h
    cases read with
    | error fault => cases fault <;> cases h
    | ok content =>
      rw [load] at h
      cases hdecode : Text.decodeUtf8? content with
      | none =>
        rw [loadContent_of_forall_ne (Text.decodeUtf8?_eq_none_iff.1 hdecode)] at h
        cases h
      | some text =>
        have hcontent := Text.decodeUtf8?_eq_some_iff.1 hdecode
        rw [loadContent_eq yaml hjson hcontent] at h
        cases hread : Json.read (Text.unifyLineEnds text) with
        | error fault =>
          rw [hread] at h
          cases h
        | ok value =>
          rw [hread] at h
          exact ⟨text, content, rfl, hcontent,
            hread.trans (congrArg Except.ok (requireMapping_eq_ok_iff.1 h))⟩
  · rintro ⟨text, content, rfl, hcontent, hread⟩
    rw [load, loadContent_eq yaml hjson hcontent, hread]
    exact requireMapping_eq_ok_iff.2 rfl

/-- Why a path is not even handed to the system. -/
def pathFault? (path : Path) : Option FileFault :=
  if !path.isEncodable then some .unencodable else if path.hasNull then some .nullInPath else none

/-- A path is handed to the system if it has a place there and holds no null character. -/
theorem pathFault?_eq_none_iff :
    pathFault? path = none ↔ path.isEncodable = true ∧ path.hasNull = false := by
  rw [pathFault?]
  cases path.isEncodable <;> cases path.hasNull <;> simp

/-- A path that is not handed to the system is not read. -/
theorem read_of_pathFault {fault : FileFault} (h : pathFault? path = some fault) :
    files.read path = .error fault := by
  have hlocate : files.locate path = .error fault := by
    rw [pathFault?] at h
    rw [Files.locate]
    split_ifs at h ⊢ <;> cases h <;> rfl
  rw [Files.read, hlocate]
  rfl

/-- A path that is handed to the system is read, or refused. -/
theorem read_of_no_pathFault (h : pathFault? path = none) :
    (∃ content, files.read path = .ok content) ∨
      ∃ refusal, files.read path = .error (.refused refusal) := by
  have hlocate : (∃ place, files.locate path = .ok place) ∨
      ∃ refusal, files.locate path = .error (.refused refusal) := by
    rw [pathFault?] at h
    split_ifs at h with hencodable hnull
    rw [Files.locate, if_neg hencodable, if_neg hnull]
    split_ifs
    · exact .inr ⟨_, rfl⟩
    · cases files.locateFrom (.startOf path) path.names with
      | ok place => exact .inl ⟨place, rfl⟩
      | error cause => exact .inr ⟨_, rfl⟩
  rw [Files.read]
  rcases hlocate with ⟨place, hplace⟩ | ⟨refusal, hrefusal⟩
  · simp only [hplace, bind, Except.bind]
    cases files.node place with
    | file content => exact .inl ⟨content, rfl⟩
    | directory => exact .inr ⟨_, rfl⟩
    | nothing => exact .inr ⟨_, rfl⟩
  · rw [hrefusal]
    exact .inr ⟨refusal, rfl⟩

/-- What reading a file came to can be reported: its path has a place in a file system and holds no null
character, and its bytes are the encoding of a text. -/
structure Legible (files : Files) (path : Path) : Prop where
  isEncodable : path.isEncodable = true
  hasNull : path.hasNull = false
  encoded : ∀ content, files.read path = .ok content → ∃ text, Text.encodeUtf8? text = some content

/-- The cause that is not reported. -/
def illegible (path : Path) : Malformed :=
  if !path.isEncodable then .unencodable else if path.hasNull then .nullInPath else .invalidEncoding

/-- What can be reported is. -/
theorem Legible.reports (h : Legible files path) (yaml : YamlReader) (hjson : isYaml path = false) :
    Reports path (load yaml path (files.read path)) := by
  rcases read_of_no_pathFault (pathFault?_eq_none_iff.2 ⟨h.isEncodable, h.hasNull⟩)
    with ⟨content, hread⟩ | ⟨refusal, hread⟩
  · obtain ⟨text, htext⟩ := h.encoded content hread
    rw [hread]
    exact reports_loadContent hjson htext
  · rw [hread]
    exact .unloadable _

/-- What cannot be reported is malformed. -/
theorem load_of_not_legible (h : ¬Legible files path) :
    load yaml path (files.read path) = .error (.malformed (illegible path)) := by
  cases hpath : pathFault? path with
  | some fault =>
    rw [read_of_pathFault hpath]
    rw [pathFault?] at hpath
    rw [illegible]
    split_ifs at hpath ⊢ <;> cases hpath <;> rfl
  | none =>
    obtain ⟨hencodable, hnull⟩ := pathFault?_eq_none_iff.1 hpath
    rw [illegible, hencodable, hnull]
    rcases read_of_no_pathFault hpath with ⟨content, hread⟩ | ⟨refusal, hread⟩
    · rw [hread]
      refine loadContent_of_forall_ne fun text htext =>
        h ⟨hencodable, hnull, fun other hother => ⟨text, ?_⟩⟩
      rw [hread] at hother
      cases hother
      exact htext
    · refine absurd ⟨hencodable, hnull, fun content hcontent => ?_⟩ h
      rw [hread] at hcontent
      cases hcontent

/-- A run whose document cannot be loaded ends with this fault and changes nothing. -/
theorem run_of_load_eq_error {inv : Invocation} {options : Api.Options} {fault : Fault}
    (hoptions : inv.options = .ok options)
    (hload : load yaml inv.documentPath (files.read inv.documentPath) = .error fault) :
    inv.run yaml files = (.ofFault fault, files) := by
  have hproduce : produce yaml inv (files.read inv.documentPath) = .error fault := by
    rw [produce, Invocation.tree, hoptions, hload]
    rfl
  rw [Invocation.run, hproduce]

/-- A run says of a path that was reported which path it is and why. -/
theorem ofFault_unloadable (inv : Invocation) (cause : LoadCause) :
    Outcome.ofFault (unloadable inv.documentPath cause) =
      .failed ("Error: " ++ ("[" ++ inv.documentPath.toText ++ "] " ++ cause.words)) := by
  have hpath : inv.documentPath.toText ≠ "" := Path.toText_ofText_ne (inv.document.getD "")
  change Outcome.failed (errorText (if inv.documentPath.toText = "" then cause.words else
    "[" ++ inv.documentPath.toText ++ "] " ++ cause.words)) = _
  rw [if_neg hpath, errorText]

/-- A document that is no YAML is loaded as a mapping, or reported with its path, exactly if its path
has a place in a file system and holds no null character and its bytes are the encoding of a text;
otherwise it is malformed. It is loaded exactly if this text is JSON of a mapping. Every run whose
document is not loaded leaves the files as they are. It names the path and the cause if the document is
reported, and has no message if not. -/
theorem load_reports_iff {path : Path} (hjson : isYaml path = false) (yaml : YamlReader) (files : Files) :
    (Reports path (load yaml path (files.read path)) ↔ Legible files path) ∧
    (∀ members, load yaml path (files.read path) = .ok (.object members) ↔
      ∃ text content, files.read path = .ok content ∧ Text.encodeUtf8? text = some content ∧
        Json.read (Text.unifyLineEnds text) = .ok (.object members)) ∧
    (¬Legible files path → load yaml path (files.read path) = .error (.malformed (illegible path))) ∧
    ∀ (inv : Invocation) (options : Api.Options) (fault : Fault),
      inv.documentPath = path → inv.options = .ok options →
      load yaml path (files.read path) = .error fault →
      (Legible files path → ∃ cause : LoadCause, inv.run yaml files =
        (.failed ("Error: " ++ ("[" ++ path.toText ++ "] " ++ cause.words)), files)) ∧
      (¬Legible files path → inv.run yaml files = (.malformed (illegible path), files)) := by
  refine ⟨⟨fun h => ?_, fun h => h.reports yaml hjson⟩, fun members => load_eq_ok_iff hjson,
    load_of_not_legible, ?_⟩
  · refine Classical.byContradiction fun hlegible => ?_
    rw [load_of_not_legible hlegible] at h
    exact not_reports_malformed h
  · rintro inv options fault rfl hoptions hload
    rw [run_of_load_eq_error hoptions hload]
    constructor
    · intro hlegible
      have hreports := hlegible.reports yaml hjson
      rw [hload] at hreports
      cases hreports with
      | unloadable cause => exact ⟨cause, by rw [ofFault_unloadable]⟩
    · intro hlegible
      rw [load_of_not_legible hlegible] at hload
      cases hload
      rfl

/-- The path of the only document of a working directory. -/
def lonePath : Path := ⟨"", ["doc.json"]⟩

/-- A working directory with one document. -/
def loneDocument (content : Bytes) : Files := Files.empty.add lonePath.names content

/-- An opening brace alone is no JSON, and a run says so. -/
theorem load_reports_iff_brace :
    isYaml lonePath = false ∧ Legible (loneDocument [0x7b]) lonePath ∧
    Reports lonePath (load readNothing lonePath ((loneDocument [0x7b]).read lonePath)) ∧
    ∃ inv cause, Invocation.ofArguments ["doc.json"] = some inv ∧
      inv.run readNothing (loneDocument [0x7b]) =
        (.failed ("Error: " ++ ("[" ++ lonePath.toText ++ "] " ++ LoadCause.words cause)),
          loneDocument [0x7b]) := by
  have hjson : isYaml lonePath = false := by decide +kernel
  have hlegible : Legible (loneDocument [0x7b]) lonePath := by
    refine ⟨by decide, by decide, fun content hcontent => ⟨[.scalar (Char.ofNat 0x7b)], ?_⟩⟩
    have hread : (loneDocument [0x7b]).read lonePath = .ok [0x7b] := by rfl
    rw [hread] at hcontent
    cases hcontent
    rfl
  have hnone : (load readNothing lonePath ((loneDocument [0x7b]).read lonePath)).toOption.isNone = true := by
    decide +kernel
  obtain ⟨hreports, -, -, hrun⟩ := load_reports_iff hjson readNothing (loneDocument [0x7b])
  cases hload : load readNothing lonePath ((loneDocument [0x7b]).read lonePath) with
  | ok value =>
    rw [hload] at hnone
    cases hnone
  | error fault =>
    have hpath : Path.ofText "doc.json" = lonePath := by decide +kernel
    obtain ⟨cause, hcause⟩ :=
      (hrun ⟨some "doc.json", none, none, [], false, .console⟩ ⟨none, false⟩ fault hpath rfl hload).1 hlegible
    exact ⟨hjson, hlegible, hload ▸ hreports.2 hlegible, _, cause, rfl, hcause⟩

/-- A byte that starts no character is not reported, neither by loading nor by a run. -/
theorem load_not_reported_byte :
    isYaml lonePath = false ∧ ¬Reports lonePath (load readNothing lonePath ((loneDocument [0xff]).read lonePath)) ∧
    run readNothing (loneDocument [0xff]) ["doc.json"] = (.malformed .invalidEncoding, loneDocument [0xff]) := by
  have hload : load readNothing lonePath ((loneDocument [0xff]).read lonePath) =
      .error (.malformed .invalidEncoding) := rfl
  refine ⟨by decide +kernel, ?_, rfl⟩
  rw [hload]
  exact not_reports_malformed

end SchemaTypes.Command
