import SchemaTypes.Namespace.Source
import SchemaTypes.Proofs.Api.Declared

/-!
# Ambient declarations stand at the top level

Whether a declaration is ambient is settled when it is built, and where it stands only when the
declarations are put into namespaces. Both follow its path. An entry goes as deep as its path has
segments before the last, so it stays at the top level exactly if its path has a single segment. This
is when a referenced schema is declared as ambient; the declarations of operations have longer paths
and never are.
-/

namespace SchemaTypes

open Build

/-- An ambient declaration is printed as one, and every other one as an export. -/
theorem Declaration.print_prefix_iff (d : Declaration) :
    (("declare type " : Text).toList <+: d.print.toList ↔ d.ambient = true) ∧
      (("export type " : Text).toList <+: d.print.toList ↔ d.ambient = false) := by
  cases h : d.exported <;> simp [print, ambient, h]

namespace Namespace

/-- A declaration stands in a namespace at a depth: at zero if it is the namespace's own, and one
deeper for each namespace in between. -/
inductive Holds : Namespace → Nat → Declaration → Prop where
  | own {node : Namespace} {d : Declaration} : d ∈ node.declarations → Holds node 0 d
  | inside {node child : Namespace} {depth : Nat} {d : Declaration} :
      child ∈ node.children → Holds child depth d → Holds node (depth + 1) d

variable {node tree : Namespace} {depth : Nat} {d added : Declaration}

/-- The declarations at the top of a namespace are its own. -/
theorem holds_zero_iff : node.Holds 0 d ↔ d ∈ node.declarations := by
  refine ⟨fun h => ?_, Holds.own⟩
  cases h with
  | own hmem => exact hmem

/-- The declarations further in are those of the namespaces inside. -/
theorem holds_succ_iff : node.Holds (depth + 1) d ↔ ∃ child ∈ node.children, child.Holds depth d := by
  constructor
  · intro h
    cases h with
    | inside hchild hinner => exact ⟨_, hchild, hinner⟩
  · rintro ⟨child, hchild, hinner⟩
    exact .inside hchild hinner

/-- What stands further in depends on the namespaces inside alone. -/
theorem Holds.of_children_eq {other : Namespace} (h : node.Holds (depth + 1) d)
    (hchildren : node.children = other.children) : other.Holds (depth + 1) d := by
  rw [holds_succ_iff, hchildren] at h
  exact holds_succ_iff.mpr h

/-- Nothing stands in a namespace that holds nothing. -/
theorem not_holds_empty (name : Value) : ¬(empty name).Holds depth d := by
  intro h
  cases depth with
  | zero => exact List.not_mem_nil (holds_zero_iff.mp h)
  | succ depth =>
    obtain ⟨child, hchild, -⟩ := holds_succ_iff.mp h
    exact List.not_mem_nil hchild

/-- After one namespace is changed, each is as before, or is the changed one, which may be new. -/
theorem mem_updateChild {name : Value} {change : Namespace → Namespace} {children : List Namespace}
    {child : Namespace} (h : child ∈ updateChild name change children) :
    child ∈ children ∨ ∃ old, child = change old ∧ (old ∈ children ∨ old = empty name) := by
  induction children with
  | nil =>
    rw [updateChild, List.mem_singleton] at h
    exact Or.inr ⟨_, h, Or.inr rfl⟩
  | cons first rest ih =>
    rw [updateChild] at h
    split at h
    · rcases List.mem_cons.mp h with rfl | hrest
      · exact Or.inr ⟨first, rfl, Or.inl List.mem_cons_self⟩
      · exact Or.inl (List.mem_cons_of_mem _ hrest)
    · rcases List.mem_cons.mp h with rfl | hrest
      · exact Or.inl List.mem_cons_self
      · rcases ih hrest with hmem | ⟨old, hold, hfrom⟩
        · exact Or.inl (List.mem_cons_of_mem _ hmem)
        · exact Or.inr ⟨old, hold, hfrom.imp_left (List.mem_cons_of_mem _)⟩

/-- A declaration that is added stands as deep as its path is long, and the others stay. -/
theorem holds_insertAt {names : List Value} (h : (insertAt added names node).Holds depth d) :
    node.Holds depth d ∨ d = added ∧ depth = names.length := by
  induction names generalizing node depth with
  | nil =>
    cases depth with
    | zero =>
      rw [holds_zero_iff, insertAt, List.mem_append, List.mem_singleton] at h
      exact h.imp Holds.own fun hd => ⟨hd, rfl⟩
    | succ depth => exact Or.inl (h.of_children_eq rfl)
  | cons name rest ih =>
    cases depth with
    | zero => exact Or.inl (holds_zero_iff.mpr (by simpa only [insertAt] using holds_zero_iff.mp h))
    | succ depth =>
      obtain ⟨child, hchild, hinner⟩ := holds_succ_iff.mp h
      rcases mem_updateChild hchild with hold | ⟨old, rfl, hold⟩
      · exact Or.inl (.inside hold hinner)
      · rcases ih hinner with hinner | ⟨hd, hdepth⟩
        · rcases hold with hold | rfl
          · exact Or.inl (.inside hold hinner)
          · exact absurd hinner (not_holds_empty name)
        · exact Or.inr ⟨hd, by rw [hdepth, List.length_cons]⟩

/-- There are as many identifiers as names. -/
theorem length_of_applyAll {naming : Naming} {names identifiers : List Value}
    (h : naming.applyAll names = .ok identifiers) : identifiers.length = names.length := by
  induction names generalizing identifiers with
  | nil =>
    cases h
    rfl
  | cons name rest ih =>
    obtain ⟨identifier, -, h⟩ := Faulting.bind_eq_ok h
    obtain ⟨others, hothers, h⟩ := Faulting.bind_eq_ok h
    cases h
    rw [List.length_cons, ih hothers, List.length_cons]

/-- Declarations put into a namespace one after the other stand as deep as their paths say. -/
theorem holds_foldlM {naming : Naming} {found : List Entry}
    (h : found.foldlM (insert naming) node = .ok tree) (hd : tree.Holds depth d) :
    node.Holds depth d ∨ ∃ entry ∈ found, d = entry.declaration ∧ depth = entry.path.length - 1 := by
  induction found generalizing node with
  | nil =>
    cases h
    exact Or.inl hd
  | cons entry rest ih =>
    rw [List.foldlM_cons] at h
    obtain ⟨next, hinsert, hrest⟩ := Faulting.bind_eq_ok h
    obtain ⟨names, hnames, hnext⟩ := Faulting.bind_eq_ok hinsert
    cases hnext
    rcases ih hrest with hnext | ⟨other, hother, heq⟩
    · refine (holds_insertAt hnext).imp_right fun ⟨hadded, hdepth⟩ => ?_
      have hlength := length_of_applyAll hnames
      rw [List.length_dropLast] at hlength
      exact ⟨entry, List.mem_cons_self, hadded, hdepth.trans hlength⟩
    · exact Or.inr ⟨other, List.mem_cons_of_mem _ hother, heq⟩

/-- Every declaration put together from entries is that of one of them, and stands as deep as its path
says. -/
theorem holds_assemble {naming : Naming} {found : List Entry} (h : assemble naming found = .ok tree)
    (hd : tree.Holds depth d) :
    ∃ entry ∈ found, d = entry.declaration ∧ depth = entry.path.length - 1 :=
  (holds_foldlM h hd).resolve_left (not_holds_empty _)

end Namespace

/-- A declaration that is ambient exactly if its path has a single segment. -/
def Entry.AmbientAtTop (entry : Entry) : Prop :=
  entry.declaration.ambient = true ↔ entry.path.length - 1 = 0

/-- A declaration is ambient if it is asked to be. -/
theorem Schema.declare_ambient (scope : Scope) (schema name : Value) (ambient : Bool) :
    Yields (declare scope schema name ambient) fun d => d.ambient = ambient :=
  Yields.bind (Yields.of_forall fun _ => trivial) fun _ (_ : True) =>
    Yields.bind (Yields.of_forall fun _ => trivial) fun _ (_ : True) =>
      Yields.pure (Bool.not_not ambient)

/-- Referenced schemas are ambient exactly if their paths have a single segment. -/
theorem Resolution.Resolves.ambientAtTop {document : Value} {scope : Scope} {start : List (List Text)}
    {results : List (List Text × Declaration)} (h : Resolves document scope start results) :
    ∀ entry ∈ results.map entryOf, entry.AmbientAtTop := by
  intro entry hentry
  obtain ⟨⟨path, declaration⟩, hresult, rfl⟩ := List.mem_map.mp hentry
  obtain ⟨schema, hdeclares⟩ := h.declares _ hresult
  have hambient : declaration.ambient = decide (path.length = 1) :=
    Schema.declare_ambient _ _ _ _ _ _ _ hdeclares.built
  have hpath : 0 < path.length :=
    List.length_pos_of_ne_nil (h.proper path (List.mem_map_of_mem hresult)).ne_nil
  simp only [Entry.AmbientAtTop, entryOf, hambient, decide_eq_true_iff, List.length_map]
  omega

/-- The declarations of operations are never ambient, and their paths have at least two segments. -/
theorem Api.Produced.ambientAtTop {setting : Setting} {entry : OperationEntry}
    (h : Produced setting entry) : (wholePath setting.base entry).AmbientAtTop := by
  have hambient : entry.declaration.ambient = false := by
    cases h with
    | declared _ hrun => exact Schema.declare_ambient _ _ _ _ _ _ _ hrun
    | input _ => rfl
    | output _ => rfl
  simp [Entry.AmbientAtTop, wholePath, hambient]

namespace Namespace

variable {tree : Namespace} {depth : Nat} {d : Declaration}

/-- Of entries that are ambient exactly if their paths have a single segment, exactly those at the top
level are ambient. -/
theorem ambient_iff_of_assemble {naming : Naming} {found : List Entry}
    (hfound : ∀ entry ∈ found, entry.AmbientAtTop) (h : assemble naming found = .ok tree)
    (hd : tree.Holds depth d) : d.ambient = true ↔ depth = 0 := by
  obtain ⟨entry, hentry, rfl, rfl⟩ := holds_assemble h hd
  exact hfound entry hentry

/-- In the namespaces of a schema document, exactly the declarations at the top level are ambient. -/
theorem ambient_iff_of_schema {naming : Naming} {document name : Value}
    (h : Schema.compile naming document name = .ok tree) (hd : tree.Holds depth d) :
    d.ambient = true ↔ depth = 0 := by
  obtain ⟨root, results, final, node, -, hroot, hresolves, hassemble, rfl⟩ := Schema.compile_ok h
  cases depth with
  | zero =>
    rcases List.mem_cons.mp (holds_zero_iff.mp hd) with rfl | hmem
    · exact iff_of_true (Schema.declare_ambient _ _ _ _ _ _ _ hroot) rfl
    · exact ambient_iff_of_assemble hresolves.ambientAtTop hassemble (.own hmem)
  | succ depth =>
    exact ambient_iff_of_assemble hresolves.ambientAtTop hassemble (hd.of_children_eq rfl)

/-- In the namespaces of an API document, exactly the declarations at the top level are ambient. -/
theorem ambient_iff_of_api {naming : Naming} {document base : Value} {options : Api.Options}
    (h : Api.compile naming document base options = .ok tree) (hd : tree.Holds depth d) :
    d.ambient = true ↔ depth = 0 := by
  obtain ⟨own, resolved, hdeclared, hassemble⟩ := Api.exists_declared_of_compile h
  obtain ⟨overlay, change, results, -, -, hadds, hresolves, rfl, rfl⟩ := Api.declared_ok hdeclared
  refine ambient_iff_of_assemble (List.forall_mem_append.mpr ⟨?_, hresolves.ambientAtTop⟩) hassemble hd
  intro entry hentry
  obtain ⟨inner, hinner, rfl⟩ := List.mem_map.mp hentry
  exact (hadds.entries inner hinner).ambientAtTop

/-- In the namespaces of a document of either kind, a declaration is ambient, and printed as one,
exactly if it stands at the top level. Every declaration inside a namespace is exported. -/
theorem ambient_iff_top_level {naming : Naming} {document name : Value} (options : Api.Options)
    (h : Schema.compile naming document name = .ok tree ∨
      Api.compile naming document name options = .ok tree) (hd : tree.Holds depth d) :
    (d.ambient = true ↔ depth = 0) ∧ (d.exported = true ↔ 0 < depth) ∧
      (("declare type " : Text).toList <+: d.print.toList ↔ depth = 0) ∧
      (("export type " : Text).toList <+: d.print.toList ↔ 0 < depth) := by
  have hambient : d.ambient = true ↔ depth = 0 :=
    h.elim (fun h => ambient_iff_of_schema h hd) (fun h => ambient_iff_of_api h hd)
  obtain ⟨hdeclare, hexport⟩ := d.print_prefix_iff
  have hexported : d.ambient = false ↔ 0 < depth := by
    rw [Bool.eq_false_iff, Ne, hambient, Nat.pos_iff_ne_zero]
  refine ⟨hambient, ?_, hdeclare.trans hambient, hexport.trans hexported⟩
  rw [← hexported, Declaration.ambient, Bool.not_eq_false']

/-- Whether a namespace holds any declaration at a depth. -/
def holdsAny : Nat → Namespace → Bool
  | 0, node => !node.declarations.isEmpty
  | depth + 1, node => node.children.any (holdsAny depth)

/-- Where any declaration stands, there is one. -/
theorem exists_holds_of_holdsAny (h : tree.holdsAny depth = true) : ∃ d, tree.Holds depth d := by
  induction depth generalizing tree with
  | zero =>
    obtain ⟨d, hd⟩ := List.exists_mem_of_ne_nil tree.declarations (by simpa [holdsAny] using h)
    exact ⟨d, .own hd⟩
  | succ depth ih =>
    obtain ⟨child, hchild, hinner⟩ := List.any_eq_true.mp h
    obtain ⟨d, hd⟩ := ih hinner
    exact ⟨d, .inside hchild hd⟩

/-- A result in which any declarations stand at two depths has one at each of them. -/
theorem exists_holds_of_any {result : Except Fault Namespace} {outer inner : Nat}
    (h : result.toOption.any (fun tree => tree.holdsAny outer && tree.holdsAny inner) = true) :
    ∃ tree top nested, result = .ok tree ∧ tree.Holds outer top ∧ tree.Holds inner nested := by
  cases result with
  | error fault => cases h
  | ok tree =>
    obtain ⟨houter, hinner⟩ := Bool.and_eq_true_iff.mp h
    obtain ⟨top, htop⟩ := exists_holds_of_holdsAny houter
    obtain ⟨nested, hnested⟩ := exists_holds_of_holdsAny hinner
    exact ⟨tree, top, nested, rfl, htop, hnested⟩

/-- A document that can be read as one of either kind: it refers to a member of its own and to a
definition further in, and it has an operation with a parameter that refers to the member. -/
def limitDocument : Value :=
  .record [
    ("allOf", .list [.record [("$ref", .text "#/limit")], .record [("$ref", .text "#/definitions/limit")]]),
    ("limit", .record [("type", .text "integer")]),
    ("definitions", .record [("limit", .record [("type", .text "number")])]),
    ("paths", .record [("/limits", .record [("get", .record [("parameters", .list [
      .record [("name", .text "limit"), ("schema", .record [("$ref", .text "#/limit")])]])])])])]

/-- A document that is read as one of either kind has ambient declarations at the top level and
exported ones further in. -/
theorem ambient_iff_top_level_limit :
    (∃ tree top nested, Schema.compile .standard limitDocument .null = .ok tree ∧
        tree.Holds 0 top ∧ tree.Holds 1 nested ∧ top.ambient = true ∧ nested.exported = true) ∧
      ∃ tree top nested, Api.compile .standard limitDocument (.text "API") .default = .ok tree ∧
        tree.Holds 0 top ∧ tree.Holds 2 nested ∧ top.ambient = true ∧ nested.exported = true := by
  constructor
  · obtain ⟨tree, top, nested, hcompile, htop, hnested⟩ := exists_holds_of_any
      (show (Schema.compile .standard limitDocument .null).toOption.any
        (fun tree => tree.holdsAny 0 && tree.holdsAny 1) = true by decide +kernel)
    exact ⟨tree, top, nested, hcompile, htop, hnested,
      (ambient_iff_top_level .default (Or.inl hcompile) htop).1.mpr rfl,
      (ambient_iff_top_level .default (Or.inl hcompile) hnested).2.1.mpr (by decide)⟩
  · obtain ⟨tree, top, nested, hcompile, htop, hnested⟩ := exists_holds_of_any
      (show (Api.compile .standard limitDocument (.text "API") .default).toOption.any
        (fun tree => tree.holdsAny 0 && tree.holdsAny 2) = true by decide +kernel)
    exact ⟨tree, top, nested, hcompile, htop, hnested,
      (ambient_iff_top_level .default (Or.inr hcompile) htop).1.mpr rfl,
      (ambient_iff_top_level .default (Or.inr hcompile) hnested).2.1.mpr (by decide)⟩

end Namespace

end SchemaTypes
