import SchemaTypes.Proofs.Name.Identifier
import SchemaTypes.Proofs.Namespace.Ambient

/-!
# The names in a tree are identifiers

The names of namespaces and declarations and the parts of references come from path segments, from titles
and from the caller. With the naming of generated source every one of them is the identifier made from a
text. What such an identifier holds is known from the text: it is empty only if the text is, and it holds a
separator exactly if the text keeps it.
-/

namespace SchemaTypes

open Faulting

/-- A value that stands as a name in a declaration: its own name, or a part of a reference in its type. -/
def Declaration.Uses (d : Declaration) (value : Value) : Prop :=
  value = d.name ∨ ∃ parts ∈ d.type.referenced, value ∈ parts

/-- A value that stands as a name in a namespace: the name of a namespace inside it, or a name that is used
in one of the declarations, at any depth. -/
inductive Namespace.Uses : Namespace → Value → Prop where
  | own {node : Namespace} {d : Declaration} {value : Value} :
      d ∈ node.declarations → d.Uses value → Uses node value
  | child {node inner : Namespace} : inner ∈ node.children → Uses node inner.name
  | inside {node inner : Namespace} {value : Value} :
      inner ∈ node.children → Uses inner value → Uses node value

namespace Namespace

variable {node tree : Namespace} {value : Value} {added : Declaration}

/-- No name is used in a namespace that holds nothing. -/
theorem not_uses_empty (name : Value) : ¬ (empty name).Uses value := by
  intro h
  cases h with
  | own hmem => cases hmem
  | child hmem => cases hmem
  | inside hmem => cases hmem

/-- A declaration that is added brings its own names and those of the namespaces it is put into. -/
theorem uses_insertAt {names : List Value} (h : (insertAt added names node).Uses value) :
    node.Uses value ∨ added.Uses value ∨ value ∈ names := by
  induction names generalizing node with
  | nil =>
    cases h with
    | own hmem huses =>
      rcases List.mem_append.mp hmem with hmem | hadded
      · exact Or.inl (.own hmem huses)
      · exact Or.inr (Or.inl (List.mem_singleton.mp hadded ▸ huses))
    | child hmem => exact Or.inl (.child hmem)
    | inside hmem huses => exact Or.inl (.inside hmem huses)
  | cons name rest ih =>
    cases h with
    | own hmem huses => exact Or.inl (.own hmem huses)
    | child hmem =>
      rcases mem_updateChild hmem with hold | ⟨old, rfl, hold⟩
      · exact Or.inl (.child hold)
      · rw [insertAt_name]
        rcases hold with hold | rfl
        · exact Or.inl (.child hold)
        · exact Or.inr (Or.inr List.mem_cons_self)
    | inside hmem huses =>
      rcases mem_updateChild hmem with hold | ⟨old, rfl, hold⟩
      · exact Or.inl (.inside hold huses)
      · rcases ih huses with hinner | hadded | hrest
        · rcases hold with hold | rfl
          · exact Or.inl (.inside hold hinner)
          · exact absurd hinner (not_uses_empty name)
        · exact Or.inr (Or.inl hadded)
        · exact Or.inr (Or.inr (List.mem_cons_of_mem _ hrest))

/-- Every identifier is made from one of the names. -/
theorem exists_of_mem_applyAll {naming : Naming} {names identifiers : List Value}
    (h : naming.applyAll names = .ok identifiers) (hvalue : value ∈ identifiers) :
    ∃ name ∈ names, naming.apply name = .ok value := by
  induction names generalizing identifiers with
  | nil =>
    cases h
    cases hvalue
  | cons name rest ih =>
    obtain ⟨identifier, hidentifier, h⟩ := bind_eq_ok h
    obtain ⟨others, hothers, h⟩ := bind_eq_ok h
    cases h
    rcases List.mem_cons.mp hvalue with rfl | hrest
    · exact ⟨name, List.mem_cons_self, hidentifier⟩
    · obtain ⟨other, hother, happly⟩ := ih hothers hrest
      exact ⟨other, List.mem_cons_of_mem _ hother, happly⟩

/-- Every name in a namespace that entries were put into was there before, is used in one of their
declarations, or is the identifier made from a segment of one of their paths. -/
theorem uses_foldlM {naming : Naming} {found : List Entry}
    (h : found.foldlM (insert naming) node = .ok tree) (huses : tree.Uses value) :
    node.Uses value ∨ ∃ entry ∈ found, entry.declaration.Uses value ∨
      ∃ segment ∈ entry.path, naming.apply segment = .ok value := by
  induction found generalizing node with
  | nil =>
    cases h
    exact Or.inl huses
  | cons entry rest ih =>
    rw [List.foldlM_cons] at h
    obtain ⟨next, hinsert, hrest⟩ := bind_eq_ok h
    obtain ⟨names, hnames, hnext⟩ := bind_eq_ok hinsert
    cases hnext
    rcases ih hrest with hnext | ⟨other, hother, hfrom⟩
    · refine (uses_insertAt hnext).imp_right fun hnew => ⟨entry, List.mem_cons_self, ?_⟩
      refine hnew.imp_right fun hmem => ?_
      obtain ⟨segment, hsegment, happly⟩ := exists_of_mem_applyAll hnames hmem
      exact ⟨segment, List.dropLast_subset _ hsegment, happly⟩
    · exact Or.inr ⟨other, List.mem_cons_of_mem _ hother, hfrom⟩

/-- Every name in a tree put together from entries is used in one of their declarations, or is the
identifier made from a segment of one of their paths. -/
theorem uses_assemble {naming : Naming} {found : List Entry} (h : assemble naming found = .ok tree)
    (huses : tree.Uses value) :
    ∃ entry ∈ found, entry.declaration.Uses value ∨
      ∃ segment ∈ entry.path, naming.apply segment = .ok value :=
  (uses_foldlM h huses).resolve_left (not_uses_empty _)

end Namespace

/-- A value that is the identifier made from a text. -/
def IsIdentifierOf (source : Text) (value : Value) : Prop := value = .text (Name.identifier source)

/-- The naming of generated source makes identifiers from texts alone. -/
theorem Naming.exists_of_standard_apply {name value : Value} (h : Naming.standard.apply name = .ok value) :
    ∃ source, name = .text source ∧ IsIdentifierOf source value := by
  cases name with
  | scalar s =>
    cases s with
    | text source =>
      cases h
      exact ⟨source, rfl, rfl⟩
    | _ => cases h
  | list items => cases h
  | object members => cases h

/-- The qualified names of paths consist of the identifiers made from their segments. -/
theorem exists_of_mem_qualified {path : List Text} {value : Value}
    (h : value ∈ (path.map Naming.standard.ofText).map .text) :
    ∃ source ∈ path, IsIdentifierOf source value := by
  rw [List.map_map] at h
  obtain ⟨source, hsource, rfl⟩ := List.mem_map.mp h
  exact ⟨source, hsource, rfl⟩

namespace Resolution

variable {document value : Value} {scope : Scope} {start : List (List Text)}
  {results : List (List Text × Declaration)}

/-- The names that stand for paths that can be reached, or for the document, are made from texts that are
not empty. -/
theorem Resolves.exists_of_names (h : Resolves document scope start results)
    (hnaming : scope.naming = .standard) (hroot : ∀ name, scope.rootName = some name → name.isPresent = true)
    {parts : List Value} (hparts : scope.Names (results.map (·.1)) parts) (hvalue : value ∈ parts) :
    ∃ source : Text, source ≠ "" ∧ IsIdentifierOf source value := by
  cases hparts with
  | @path path hpath =>
    rw [hnaming] at hvalue
    obtain ⟨source, hsource, hmade⟩ := exists_of_mem_qualified hvalue
    exact ⟨source, fun hempty => (h.proper path hpath).2 (hempty ▸ hsource), hmade⟩
  | root hname happly =>
    rw [hnaming] at happly
    obtain ⟨name, hmem, hone⟩ := Namespace.exists_of_mem_applyAll happly hvalue
    obtain ⟨source, rfl, hmade⟩ := Naming.exists_of_standard_apply hone
    have hpresent := hroot _ (List.mem_singleton.mp hmem ▸ hname)
    refine ⟨source, fun hempty => ?_, hmade⟩
    rw [hempty] at hpresent
    cases hpresent

/-- The names in the declarations of referenced schemas, and the segments of their paths, are made from
texts that are not empty. -/
theorem Resolves.exists_of_uses (h : Resolves document scope start results)
    (hnaming : scope.naming = .standard) (hroot : ∀ name, scope.rootName = some name → name.isPresent = true)
    {entry : Entry} (hentry : entry ∈ results.map entryOf)
    (huses : entry.declaration.Uses value ∨
      ∃ segment ∈ entry.path, Naming.standard.apply segment = .ok value) :
    ∃ source : Text, source ≠ "" ∧ IsIdentifierOf source value := by
  obtain ⟨⟨path, declaration⟩, hresult, rfl⟩ := List.mem_map.mp hentry
  have hproper := h.proper path (List.mem_map_of_mem hresult)
  rcases huses with (rfl | ⟨parts, hparts, hvalue⟩) | ⟨segment, hsegment, happly⟩
  · refine ⟨path.getLastD "", hproper.getLastD_ne_empty, ?_⟩
    have hname := (h.named _ hresult).name_eq
    rw [hnaming] at hname
    exact hname
  · exact h.exists_of_names hnaming hroot
      (h.mentions _ hresult parts (by simpa [entryOf] using hparts)) hvalue
  · obtain ⟨text, htext, rfl⟩ := List.mem_map.mp hsegment
    obtain ⟨source, hsource, hmade⟩ := Naming.exists_of_standard_apply happly
    cases hsource
    exact ⟨text, fun hempty => hproper.2 (hempty ▸ htext), hmade⟩

end Resolution

/-- Every name in the tree of a schema document is the identifier made from a text that is not empty. -/
theorem Schema.exists_of_uses {document name value : Value} {tree : Namespace}
    (h : Schema.compile .standard document name = .ok tree) (huses : tree.Uses value) :
    ∃ source : Text, source ≠ "" ∧ IsIdentifierOf source value := by
  obtain ⟨root, results, final, node, -, hdeclare, hresolves, hassemble, rfl⟩ := Schema.compile_ok h
  have hroot (other : Value) (hother : (rootScope .standard document name).rootName = some other) :
      other.isPresent = true := by
    cases hother
    exact isPresent_rootName document name
  have hsplit : root.Uses value ∨ node.Uses value := by
    cases huses with
    | own hmem huses =>
      rcases List.mem_cons.mp hmem with rfl | hmem
      · exact Or.inl huses
      · exact Or.inr (.own hmem huses)
    | child hmem => exact Or.inr (.child hmem)
    | inside hmem huses => exact Or.inr (.inside hmem huses)
  rcases hsplit with (rfl | ⟨parts, hparts, hvalue⟩) | hnode
  · obtain ⟨source, hsource, hmade⟩ := Naming.exists_of_standard_apply (apply_rootName hdeclare)
    refine ⟨source, fun hempty => ?_, hmade⟩
    have hpresent := isPresent_rootName document name
    rw [hsource, hempty] at hpresent
    cases hpresent
  · have hmentions := declare_mentions _ _ _ _ _ _ _ hdeclare
    exact hresolves.exists_of_names rfl hroot
      ((hmentions parts (by simpa using hparts)).mono hresolves.start_subset) hvalue
  · obtain ⟨entry, hentry, hfrom⟩ := Namespace.uses_assemble hassemble hnode
    exact hresolves.exists_of_uses rfl hroot hentry hfrom

namespace Api

variable {document base value : Value} {options : Options} {tree : Namespace}

/-- A declaration of the walk is named by the identifier made from a text. -/
theorem Produced.exists_of_name {setting : Setting} {entry : OperationEntry}
    (hnaming : setting.naming = .standard) (h : Produced setting entry) :
    ∃ source, IsIdentifierOf source entry.declaration.name := by
  cases h with
  | declared _ hrun =>
    have hname := ofMalformed_eq_ok (Schema.declare_named _ _ _ _ _ _ _ hrun)
    rw [show (setting.scope _).naming = .standard from hnaming] at hname
    obtain ⟨source, -, hmade⟩ := Naming.exists_of_standard_apply hname
    exact ⟨source, hmade⟩
  | input _ => exact ⟨"Input", rfl⟩
  | output _ => exact ⟨"Output", rfl⟩

/-- Every name mentioned in a declaration of the walk is the identifier made from a text. -/
theorem Sound.exists_of_mentioned {name : Text} {state : State} (h : Sound .standard name state)
    {entry : OperationEntry} (hentry : entry ∈ state.entries) {parts : List Value}
    (hparts : parts ∈ entry.declaration.type.referenced) (hvalue : value ∈ parts) :
    ∃ source, IsIdentifierOf source value := by
  have hqualified (path : List Text) (hmem : value ∈ qualify .standard path) :
      ∃ source, IsIdentifierOf source value := by
    obtain ⟨source, -, hmade⟩ := exists_of_mem_qualified hmem
    exact ⟨source, hmade⟩
  cases h.covered entry hentry parts hparts with
  | path _ => exact hqualified _ hvalue
  | entry _ _ => exact hqualified _ hvalue

/-- A base that names the namespace of an operation in generated source is a text. -/
theorem exists_base_of_assemble {found : List Entry} (h : Namespace.assemble .standard found = .ok tree)
    {entry : OperationEntry} (hentry : wholePath base entry ∈ found) : ∃ name, base = .text name := by
  obtain ⟨names, hnames⟩ := Namespace.exists_assemble_iff.mp ⟨tree, h⟩ _ hentry
  obtain ⟨identifier, happly, -⟩ := bind_eq_ok hnames
  obtain ⟨name, hname, -⟩ := Naming.exists_of_standard_apply happly
  exact ⟨name, hname⟩

/-- Every name in the tree of an API document is the identifier made from a text. -/
theorem exists_of_uses (h : compile .standard document base options = .ok tree)
    (huses : tree.Uses value) : ∃ source, IsIdentifierOf source value := by
  obtain ⟨own, resolved, hdeclared, hassemble⟩ := exists_declared_of_compile h
  obtain ⟨overlay, change, results, hoverlay, hwalk, hadds, hresolves, rfl, rfl⟩ := declared_ok hdeclared
  obtain ⟨entry, hentry, hfrom⟩ := Namespace.uses_assemble hassemble huses
  rcases List.mem_append.mp hentry with hown | hresult
  · obtain ⟨operation, hoperation, rfl⟩ := List.mem_map.mp hown
    obtain ⟨name, rfl⟩ := exists_base_of_assemble hassemble hentry
    obtain ⟨overlay', state, _, hoverlay', hwalk', hsound, -, -⟩ := compile_ok h
    cases hoverlay.symm.trans hoverlay'
    cases hwalk.symm.trans hwalk'
    rcases hfrom with (rfl | ⟨parts, hparts, hvalue⟩) | ⟨segment, -, happly⟩
    · exact (hadds.entries operation hoperation).exists_of_name rfl
    · exact hsound.exists_of_mentioned hoperation hparts hvalue
    · obtain ⟨source, -, hmade⟩ := Naming.exists_of_standard_apply happly
      exact ⟨source, hmade⟩
  · obtain ⟨source, -, hmade⟩ := hresolves.exists_of_uses rfl (by simp) hresult hfrom
    exact ⟨source, hmade⟩

end Api

namespace Namespace

open Name

/-- The identifier made from a text is empty only if the text is, and its ASCII characters are letters,
digits, underscores and dollar signs exactly if the text keeps no other ASCII separator: none before a digit
and none at its end. Every name of a namespace or a declaration and every part of a reference in the tree of
a document of either kind is such an identifier, and in the tree of a schema document the text is never
empty. -/
theorem names_clean_iff (source : Text) :
    (source ≠ "" → identifier source ≠ "") ∧
      (Clean (identifier source) ↔ ∀ c, Keeps source.toList c → c.toNat < 128 → c = '_' ∨ c = '$') ∧
      (∀ (document name : Value) (tree : Namespace), Schema.compile .standard document name = .ok tree →
        ∀ value, tree.Uses value → ∃ origin : Text, origin ≠ "" ∧ value = .text (identifier origin)) ∧
      ∀ (document base : Value) (options : Api.Options) (tree : Namespace),
        Api.compile .standard document base options = .ok tree →
          ∀ value, tree.Uses value → ∃ origin, value = .text (identifier origin) :=
  ⟨identifier_ne_empty, clean_identifier_iff source,
    fun _ _ _ h _ huses => Schema.exists_of_uses h huses,
    fun _ _ _ _ h _ huses => Api.exists_of_uses h huses⟩

/-- A document that refers to a definition with the given name. -/
def definitionDocument (name : Text) : Value :=
  .record [("$ref", .text ("#/definitions/" ++ name)),
    ("definitions", .record [(name, .record [("type", .text "string")])])]

/-- Whether a declaration with the given name stands in a namespace directly inside. -/
def declaresInside (tree : Namespace) (name : Text) : Bool :=
  tree.children.any fun child => child.declarations.any fun d => d.name.same (.text name)

/-- The name of a declaration in a namespace directly inside is used. -/
theorem uses_of_declaresInside {tree : Namespace} {name : Text} (h : tree.declaresInside name = true) :
    tree.Uses (.text name) := by
  obtain ⟨child, hchild, hinner⟩ := List.any_eq_true.mp h
  obtain ⟨d, hd, hsame⟩ := List.any_eq_true.mp hinner
  exact .inside hchild (.own hd (Or.inl ((Value.same_text_iff _ _).mp hsame).symm))

/-- A compiled document whose tree declares a name uses it. -/
theorem exists_uses_of_any {document : Value} {name : Text}
    (h : (Schema.compile .standard document .null).toOption.any (declaresInside · name) = true) :
    ∃ tree, Schema.compile .standard document .null = .ok tree ∧ tree.Uses (.text name) := by
  cases hresult : Schema.compile .standard document .null with
  | error fault =>
    rw [hresult] at h
    cases h
  | ok tree =>
    rw [hresult] at h
    exact ⟨tree, rfl, uses_of_declaresInside h⟩

/-- A hyphen before a letter is dropped, and the name in the tree comes from a text that is not empty. -/
theorem names_clean_iff_petStore :
    identifier "pet-store" = "PetStore" ∧ "pet-store" ≠ "" ∧ identifier "pet-store" ≠ "" ∧
      Clean (identifier "pet-store") ∧
        (∀ c, Keeps ("pet-store" : Text).toList c → c.toNat < 128 → c = '_' ∨ c = '$') ∧
      ∃ tree, Schema.compile .standard (definitionDocument "pet-store") .null = .ok tree ∧
        tree.Uses (.text "PetStore") ∧
        ∃ origin : Text, origin ≠ "" ∧ Value.text "PetStore" = .text (identifier origin) := by
  obtain ⟨hempty, hclean, hschema, -⟩ := names_clean_iff "pet-store"
  obtain ⟨tree, hcompile, huses⟩ := exists_uses_of_any
    (show (Schema.compile .standard (definitionDocument "pet-store") .null).toOption.any
      (declaresInside · "PetStore") = true by decide +kernel)
  have hparts : Clean (identifier "pet-store") := by
    have hall : (identifier "pet-store").toList.all isNamePart = true := by decide
    exact fun c hc _ => List.all_eq_true.mp hall c hc
  exact ⟨by decide, by decide, hempty (by decide), hparts, hclean.mp hparts, tree, hcompile, huses,
    hschema _ _ _ hcompile _ huses⟩

/-- A hyphen before a digit is kept, so it stands in the name of a declaration. -/
theorem names_keep_hyphen :
    identifier "a-1" = "A-1" ∧ ¬ Clean (identifier "a-1") ∧
      ∃ tree, Schema.compile .standard (definitionDocument "a-1") .null = .ok tree ∧
        tree.Uses (.text "A-1") := by
  refine ⟨by decide, fun hclean => ?_, exists_uses_of_any (by decide +kernel)⟩
  exact absurd (hclean '-' (by decide) (by decide)) (by decide)

end Namespace

end SchemaTypes
