import Mathlib.Data.List.Nodup
import SchemaTypes.Proofs.Api.Inputs

/-!
# Names of inputs

The parameters of an operation are told apart by their names and locations, but their fields in the record of
inputs only by their names in camel case. Two parameters share a field if they have one name in different
locations or if their names are different spellings of one, and a parameter shares the field of the request
body if it is called like it. The fields have different names exactly if none of this happens.
-/

namespace SchemaTypes.Api

open Faulting BreadthFirst

namespace Parameter

/-- The name of the field of a parameter. -/
def fieldName (p : Parameter) : Text := Name.camelCase p.name

/-- Merged parameters have the field names of all keys. -/
theorem map_fieldName_latest (parameters : List Parameter) :
    (latest parameters).map fieldName =
      (parameters.map key).eraseDups.map fun key => Name.camelCase key.1 := by
  rw [← map_key_merged, merged_eq_latest, List.map_map]
  rfl

/-- Merged parameters have different field names if and only if those that share one have one key. -/
theorem nodup_map_fieldName_latest_iff (parameters : List Parameter) :
    ((latest parameters).map fieldName).Nodup ↔
      ∀ p ∈ parameters, ∀ q ∈ parameters, p.fieldName = q.fieldName → p.key = q.key := by
  rw [map_fieldName_latest, List.nodup_map_iff_inj_on (eraseDups_nodup _)]
  simp only [List.mem_eraseDups, List.forall_mem_map]
  rfl

/-- Merging loses no field name. -/
theorem mem_map_fieldName_latest_iff {name : Text} {parameters : List Parameter} :
    name ∈ (latest parameters).map fieldName ↔ ∃ p ∈ parameters, p.fieldName = name := by
  rw [map_fieldName_latest]
  simp only [List.mem_map, List.mem_eraseDups, exists_exists_and_eq_and]
  rfl

end Parameter

/-- A request body is at most one argument. -/
theorem bodyArguments_eq (requestBody : Value) :
    bodyArguments requestBody = [] ∨ ∃ members, bodyArguments requestBody = [.body members] := by
  rw [bodyArguments.eq_def]
  split
  · split_ifs
    · exact Or.inl rfl
    · exact Or.inr ⟨_, rfl⟩
  · exact Or.inl rfl

/-- No argument is declared like the record of inputs. -/
theorem Argument.parts_ne_input (a : Argument) : a.parts ≠ [("Input" : Text)] := by
  cases a <;> simp [parts]

namespace Turn

/-- No two inputs of an operation share a field: parameters with one field name have one name and one
location, and none has the field name of the request body if there is one. -/
structure NamesApart (setting : Setting) (turn : Turn) : Prop where
  parameters : ∀ p ∈ turn.parameters setting, ∀ q ∈ turn.parameters setting,
    p.fieldName = q.fieldName → p.key = q.key
  body : bodyArguments (turn.requestBody setting) ≠ [] →
    ∀ p ∈ turn.parameters setting, p.fieldName ≠ "body"

/-- The field names of the arguments of an operation are different if and only if no two inputs share one. -/
theorem nodup_fieldNames_iff (setting : Setting) (turn : Turn) :
    ((turn.arguments setting).map fun a => Name.camelCase a.name).Nodup ↔ turn.NamesApart setting := by
  have hparameters : ((Parameter.latest (turn.parameters setting)).map Argument.parameter).map
      (fun a => Name.camelCase a.name) =
        (Parameter.latest (turn.parameters setting)).map Parameter.fieldName := by
    rw [List.map_map]
    rfl
  have hbody : Name.camelCase "body" = "body" := by decide +kernel
  rw [arguments, List.map_append, hparameters]
  obtain hnone | ⟨members, hsome⟩ := bodyArguments_eq (turn.requestBody setting)
  · rw [hnone, List.map_nil, List.nil_append, Parameter.nodup_map_fieldName_latest_iff]
    exact ⟨fun h => ⟨h, fun hne => absurd hnone hne⟩, fun h => h.parameters⟩
  · have hcons : [Argument.body members].map (fun a => Name.camelCase a.name) = [("body" : Text)] :=
      congrArg ([·]) hbody
    rw [hsome, hcons, List.singleton_append, List.nodup_cons, Parameter.mem_map_fieldName_latest_iff,
      Parameter.nodup_map_fieldName_latest_iff]
    push Not
    exact ⟨fun h => ⟨h.2, fun _ => h.1⟩,
      fun h => ⟨h.body (hsome ▸ List.cons_ne_nil _ _), h.parameters⟩⟩

/-- An operation declares one record of inputs. -/
theorem DeclaresInputs.filter_input {setting : Setting} {turn : Turn} {block : List OperationEntry}
    (h : turn.DeclaresInputs setting block) : ∃ fields,
      block.filter (fun entry => entry.parts = [("Input" : Text)]) = [turn.inputEntry fields] ∧
        List.Forall₂ (Argument.HasField setting turn.operation) (turn.arguments setting) fields := by
  obtain ⟨given, fields, answers, output, rfl, hgiven, hfields, hanswers, -, houtput⟩ := h.declares
  refine ⟨fields, ?_, hfields⟩
  have hparts : given.map (·.parts) = (turn.arguments setting).map Argument.parts :=
    List.forall₂_eq_eq_eq ▸ List.forall₂_map_left_iff.mpr (List.forall₂_map_right_iff.mpr
      (hgiven.flip.imp fun _ _ hdeclared => hdeclared.parts_eq))
  have hnone : (given ++ answers).filter (fun entry => entry.parts = [("Input" : Text)]) = [] := by
    refine List.filter_eq_nil_iff.mpr fun entry hentry => ?_
    rw [decide_eq_true_eq]
    rcases List.mem_append.mp hentry with hentry | hentry
    · obtain ⟨a, -, ha⟩ := List.mem_map.mp (hparts ▸ List.mem_map_of_mem hentry)
      exact ha ▸ a.parts_ne_input
    · obtain ⟨-, status, hstatus⟩ := hanswers entry hentry
      simp [hstatus, Response.parts]
  rw [List.filter_append, hnone]
  simp [inputEntry, houtput]

end Turn

/-- The record of inputs of an operation, whose fields have different names if and only if no two inputs share
one. -/
def Turn.NamesInputs (setting : Setting) (turn : Turn) (block : List OperationEntry) : Prop :=
  ∃ fields, block.filter (fun entry => entry.parts = [("Input" : Text)]) = [turn.inputEntry fields] ∧
    ((fields.map (·.name)).Nodup ↔ turn.NamesApart setting)

/-- In a document that compiles, every operation has one record of inputs, and the fields of the record have
different names if and only if no two inputs of the operation share one. -/
theorem inputNames_distinct_iff {naming : Naming} {document base : Value} {options : Options}
    {tree : Namespace} (h : compile naming document base options = .ok tree) :
    ∃ c : Compilation naming document base options tree,
      (turns c.setting).map (·.source) = documentSources c.overlay.document ∧
        List.Forall₂ (Turn.NamesInputs c.setting) (turns c.setting) c.blocks := by
  obtain ⟨c, hblocks⟩ := DeclaresInTurn.exists_compilation declaresInTurn_inputs h
  refine ⟨c, map_source_turnsFrom c.setting [] .empty _, hblocks.imp fun turn block hblock => ?_⟩
  obtain ⟨fields, hrecord, hfields⟩ := hblock.filter_input
  refine ⟨fields, hrecord, ?_⟩
  have hnames : fields.map (·.name) =
      ((turn.arguments c.setting).map fun a => Name.camelCase a.name).map Scalar.text := by
    have hpairs := congrArg (List.map Prod.fst) (map_fields c.setting turn.operation hfields)
    rw [List.map_map, List.map_map] at hpairs
    rw [List.map_map]
    exact hpairs
  rw [hnames, List.nodup_map_iff (fun _ _ => Scalar.text.inj), turn.nodup_fieldNames_iff]

/-- The fields of the record of inputs of the overriding document have different names. -/
theorem inputNames_distinct_iff_overriding :
    ∃ tree, compile .standard (.object overridingDocument) (.text "API") .default = .ok tree ∧
      ∃ (c : Compilation .standard (.object overridingDocument) (.text "API") .default tree)
        (turn : Turn) (fields : List (Field TypeExpr)), turns c.setting = [turn] ∧
        c.blocks.flatten.filter (fun entry => entry.parts = [("Input" : Text)]) = [turn.inputEntry fields] ∧
        turn.NamesApart c.setting ∧ (fields.map (·.name)).Nodup := by
  obtain ⟨tree, h⟩ := exists_compile_overriding
  obtain ⟨turn, hturn, -, harguments⟩ := exists_turn_overriding
  obtain ⟨c, -, hblocks⟩ := inputNames_distinct_iff h
  have hsetting : c.setting = overridingSetting := c.setting_eq rfl
  rw [hsetting, hturn] at hblocks
  obtain ⟨block, rest, ⟨fields, hrecord, hiff⟩, hrest, hc⟩ := List.forall₂_cons_left_iff.mp hblocks
  rw [List.forall₂_nil_left_iff] at hrest
  have hnames := congrArg (List.map Prod.fst) harguments
  rw [List.map_map] at hnames
  have hapart : turn.NamesApart overridingSetting :=
    (turn.nodup_fieldNames_iff overridingSetting).mp (hnames ▸ by decide)
  refine ⟨tree, h, c, turn, fields, hsetting ▸ hturn, ?_, hsetting ▸ hapart, hiff.mpr hapart⟩
  rw [hc, hrest, List.flatten_cons, List.flatten_nil, List.append_nil, hrecord]

/-- The names of the fields of an object type. -/
def fieldNames : TypeExpr → List Scalar
  | .object fields _ => fields.map (·.name)
  | _ => []

/-- A document whose operation takes parameters of one name in different locations. -/
def sharedNameDocument : Members :=
  operationDocument [] [parameterRecord "id" "path" [("required", .bool true)]]
    [parameterRecord "id" "query" []] []

/-- Parameters of one name in different locations share a field. -/
theorem inputNames_shared :
    ∃ tree declaration,
      compile .standard (.object sharedNameDocument) (.text "API") .default = .ok tree ∧
      tree.find? [.text "API", .text "ChangePet", .text "Input"] = .ok (some declaration) ∧
      fieldNames declaration.type = [.text "id", .text "id"] ∧
      ¬(fieldNames declaration.type).Nodup := by
  obtain ⟨tree, h⟩ :
      ∃ tree, compile .standard (.object sharedNameDocument) (.text "API") .default = .ok tree :=
    exists_eq_ok (by decide +kernel)
  have hnames : ((compile .standard (.object sharedNameDocument) (.text "API") .default).toOption.map
      fun tree => (tree.findIn? [.text "API", .text "ChangePet"] (.text "Input")).map
        fun declaration => fieldNames declaration.type) = some (some [.text "id", .text "id"]) := by
    decide +kernel
  rw [h] at hnames
  obtain ⟨declaration, hfound, hids⟩ := Option.map_eq_some_iff.mp (Option.some.inj hnames)
  exact ⟨tree, declaration, h, congrArg Except.ok hfound, hids, hids ▸ by decide⟩

end SchemaTypes.Api
