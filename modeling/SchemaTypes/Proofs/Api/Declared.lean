import SchemaTypes.Proofs.Api.Changes
import SchemaTypes.Proofs.Api.Closed
import SchemaTypes.Proofs.Schema.Fewer

/-!
# The declarations of an API document by their origin

An API document is compiled in three steps: its operations are declared, then the schemas that they reach,
and the declarations of both are put into namespaces. Putting them together fails only on a name that
is refused, and every declaration of the result comes from one of the first two steps. Of the declarations of
operations with one qualified name, the first is found under this name.
-/

namespace SchemaTypes

namespace Namespace

open Faulting

variable {naming : Naming} {found : List Entry} {tree : Namespace}

/-- Entries can be put together if their namespaces can be named. -/
theorem exists_assemble_iff :
    (∃ tree, assemble naming found = .ok tree) ↔
      ∀ entry ∈ found, ∃ names, naming.applyAll entry.path.dropLast = .ok names := by
  have hfold (node : Namespace) : (∃ tree, found.foldlM (insert naming) node = .ok tree) ↔
      ∀ entry ∈ found, ∃ names, naming.applyAll entry.path.dropLast = .ok names := by
    induction found generalizing node with
    | nil => exact iff_of_true ⟨node, rfl⟩ (List.forall_mem_nil _)
    | cons entry rest ih =>
      rw [List.foldlM_cons, List.forall_mem_cons, insert]
      cases naming.applyAll entry.path.dropLast with
      | error cause =>
        apply iff_of_false
        · rintro ⟨tree, h⟩
          cases h
        · rintro ⟨⟨names, h⟩, -⟩
          cases h
      | ok names => exact (ih _).trans (and_iff_right ⟨names, rfl⟩).symm
  exact hfold _

/-- Entries can be put together if others can whose paths include theirs. -/
theorem exists_assemble_of_paths {others : List Entry} (h : assemble naming found = .ok tree)
    (hpaths : ∀ entry ∈ others, ∃ e ∈ found, e.path = entry.path) :
    ∃ tree, assemble naming others = .ok tree := by
  refine exists_assemble_iff.mpr fun entry hentry => ?_
  obtain ⟨e, he, hpath⟩ := hpaths entry hentry
  exact hpath ▸ exists_assemble_iff.mp ⟨tree, h⟩ e he

/-- Every declaration of a namespace was there before entries were put into it, or is that of an entry. -/
theorem mem_entries_foldlM {node : Namespace} (h : found.foldlM (insert naming) node = .ok tree)
    {entry : List Value × Declaration} (hentry : entry ∈ tree.entries) :
    entry ∈ node.entries ∨ ∃ e ∈ found, entry.2 = e.declaration := by
  induction found generalizing node with
  | nil =>
    cases h
    exact Or.inl hentry
  | cons e rest ih =>
    rw [List.foldlM_cons] at h
    obtain ⟨next, hinsert, hrest⟩ := bind_eq_ok h
    obtain ⟨names, -, hnext⟩ := bind_eq_ok hinsert
    cases hnext
    rcases ih hrest with hmem | ⟨other, hother, heq⟩
    · exact (mem_entriesUnder_insertAt hmem).imp_right fun heq => ⟨e, List.mem_cons_self, heq⟩
    · exact Or.inr ⟨other, List.mem_cons_of_mem _ hother, heq⟩

/-- Every declaration put together from entries is that of one of them. -/
theorem mem_entries_assemble (h : assemble naming found = .ok tree) {entry : List Value × Declaration}
    (hentry : entry ∈ tree.entries) : ∃ e ∈ found, entry.2 = e.declaration := by
  rcases mem_entries_foldlM h hentry with hmem | hfound
  · simp [entries, empty, entriesUnder, entriesUnderAll] at hmem
  · exact hfound

end Namespace

namespace Api

open Faulting Resolution

variable {naming : Naming} {document base : Value} {options : Options}

/-- The declarations of the operations of a document and, apart from them, those of the schemas that
they reach. -/
def declared (naming : Naming) (document base : Value) (options : Options) :
    Except Fault (List OperationEntry × List Entry) := do
  let overlay ← Fault.ofMalformed (Overlay.ofDocument document)
  let setting : Setting := ⟨overlay, naming, base, options⟩
  let ((), state) ← (walk setting).run .initial
  let resolved ←
    ((resolve (overlay.value state.scratch) setting.outerScope).run ⟨state.discovery, [], none⟩).1
  return (state.entries, resolved)

/-- A document is compiled by putting its declarations into namespaces, those of its operations first. -/
theorem compile_eq (naming : Naming) (document base : Value) (options : Options) :
    compile naming document base options =
      declared naming document base options >>= fun found =>
        Fault.ofMalformed (Namespace.assemble naming (found.1.map (wholePath base) ++ found.2)) := by
  simp only [compile, declared, entries, bind_assoc, pure_bind]
  rfl

/-- A document that compiles has declarations, and they are put together. -/
theorem exists_declared_of_compile {tree : Namespace}
    (h : compile naming document base options = .ok tree) :
    ∃ own resolved, declared naming document base options = .ok (own, resolved) ∧
      Namespace.assemble naming (own.map (wholePath base) ++ resolved) = .ok tree := by
  rw [compile_eq] at h
  obtain ⟨⟨own, resolved⟩, hdeclared, hassemble⟩ := bind_eq_ok h
  exact ⟨own, resolved, hdeclared, ofMalformed_eq_ok hassemble⟩

/-- The declarations of a document are those of the walk, and those of everything discovered by it. -/
theorem exists_walk_of_declared {own : List OperationEntry} {resolved : List Entry}
    (h : declared naming document base options = .ok (own, resolved)) :
    ∃ overlay state, Overlay.ofDocument document = .ok overlay ∧
      (walk ⟨overlay, naming, base, options⟩).run .initial = .ok ((), state) ∧
      ((resolve (overlay.value state.scratch) ⟨naming, none, none⟩).run ⟨state.discovery, [], none⟩).1 =
        .ok resolved ∧
      own = state.entries := by
  obtain ⟨overlay, hoverlay, h⟩ := bind_eq_ok h
  obtain ⟨⟨⟨⟩, state⟩, hwalk, h⟩ := bind_eq_ok h
  obtain ⟨found, hresolve, h⟩ := bind_eq_ok h
  cases h
  exact ⟨overlay, state, ofMalformed_eq_ok hoverlay, hwalk, hresolve, rfl⟩

/-- The declarations of a document come from one change of the walk, and from everything that can be
reached from the paths discovered by it. -/
theorem declared_ok {own : List OperationEntry} {resolved : List Entry}
    (h : declared naming document base options = .ok (own, resolved)) :
    ∃ (overlay : Overlay) (change : Change) (results : List (List Text × Declaration)),
      Overlay.ofDocument document = .ok overlay ∧
        (walk ⟨overlay, naming, base, options⟩).run .initial = .ok ((), State.initial.after change) ∧
        change.Adds (Produced ⟨overlay, naming, base, options⟩) ∧
        Resolves (overlay.value change.scratch) ⟨naming, none, none⟩ change.paths results ∧
        own = change.entries ∧ resolved = results.map entryOf := by
  obtain ⟨overlay, state, hoverlay, hwalk, hresolve, rfl⟩ := exists_walk_of_declared h
  obtain ⟨change, hadds, hchange⟩ := walk_oblivious _ _ _ _ hwalk
  obtain rfl := Oblivious.final_eq hwalk hchange
  obtain ⟨results, rfl, hresolves⟩ := resolves_of_run hadds.proper hresolve
  exact ⟨overlay, change, results, hoverlay, hwalk, hadds, hresolves, rfl, rfl⟩

/-- The declarations of the operations of a document are produced by the walk. -/
theorem produced_of_declared {own : List OperationEntry} {resolved : List Entry}
    (h : declared naming document base options = .ok (own, resolved)) :
    ∃ overlay, ∀ entry ∈ own, Produced ⟨overlay, naming, base, options⟩ entry := by
  obtain ⟨overlay, change, results, -, -, hadds, -, rfl, -⟩ := declared_ok h
  exact ⟨overlay, hadds.entries⟩

/-- The qualified name of a declaration of an operation: the namespaces that it is put into, and its own
name. -/
def OperationEntry.qualified (naming : Naming) (base : Text) (entry : OperationEntry) : List Value :=
  qualify naming (operationPath base entry.operation entry.parts).dropLast ++ [entry.declaration.name]

/-- Declarations with one part stand right in the namespace of their operation, and no others do. -/
theorem OperationEntry.qualified_eq_iff {base id name : Text} {entry : OperationEntry} :
    entry.qualified naming base = [.text (naming.ofText base), .text id, .text name] ↔
      (∃ part, entry.parts = [part]) ∧ naming.ofText entry.operation = id ∧
        entry.declaration.name = .text name := by
  rw [qualified, operationPath]
  rcases entry.parts with _ | ⟨first, _ | ⟨second, rest⟩⟩
  · simp [qualify]
  · simp [qualify]
  · simp [qualify]

/-- In the tree of a document, the first declaration of its operations with a qualified name is found under
this name. -/
theorem find?_qualified {base name : Text} {before after : List OperationEntry} {entry : OperationEntry}
    {resolved : List Entry} {tree : Namespace}
    (h : declared naming document (.text base) options = .ok (before ++ entry :: after, resolved))
    (hassemble : Namespace.assemble naming
      ((before ++ entry :: after).map (wholePath (.text base)) ++ resolved) = .ok tree)
    (hname : entry.declaration.name = .text name)
    (hfirst : ∀ earlier ∈ before, earlier.qualified naming base ≠ entry.qualified naming base) :
    tree.find? (entry.qualified naming base) = .ok (some entry.declaration) := by
  obtain ⟨-, -, results, -, -, -, -, -, rfl⟩ := declared_ok h
  let located (e : OperationEntry) := (operationPath base e.operation e.parts, e.declaration)
  have hentries : (before ++ entry :: after).map (wholePath (.text base)) ++ results.map entryOf =
      ((before ++ entry :: after).map located ++ results).map entryOf := by
    rw [List.map_append (f := entryOf), List.map_map]
    rfl
  rw [hentries, Namespace.assemble_entryOf] at hassemble
  cases hassemble
  let names := (operationPath base entry.operation entry.parts).dropLast.map naming.ofText
  have hqualified : entry.qualified naming base = (names ++ [name]).map .text := by
    rw [OperationEntry.qualified, hname, List.map_append]
    rfl
  have hsame (e : OperationEntry) : (located e).1.dropLast.map naming.ofText = names ∧
      (located e).2.name = .text name ↔ e.qualified naming base = entry.qualified naming base := by
    rw [hqualified, List.map_append, OperationEntry.qualified, qualify]
    constructor
    · rintro ⟨hnames, hown⟩
      rw [← hnames, show e.declaration.name = .text name from hown]
      rfl
    · intro hparts
      obtain ⟨hnames, hown⟩ := List.append_inj' hparts rfl
      exact ⟨Value.map_text_inj.mp hnames, List.singleton_inj.mp hown⟩
  rw [hqualified, Namespace.find?_place, List.map_append, List.append_assoc, List.find?_append,
    List.find?_eq_none.mpr, Option.none_or, List.map_cons, List.cons_append, List.find?_cons_of_pos]
  · rfl
  · exact decide_eq_true ((hsame entry).mpr rfl)
  · refine List.forall_mem_map.mpr fun earlier hearlier => ?_
    rw [decide_eq_true_iff, hsame]
    exact hfirst earlier hearlier

/-- A document whose walk ends and whose discovered schemas can be declared has declarations. -/
theorem declared_of_walk {overlay : Overlay} {state : State} {resolved : List Entry}
    (hoverlay : Overlay.ofDocument document = .ok overlay)
    (hwalk : (walk ⟨overlay, naming, base, options⟩).run .initial = .ok ((), state))
    (hresolve : ((resolve (overlay.value state.scratch) ⟨naming, none, none⟩).run
      ⟨state.discovery, [], none⟩).1 = .ok resolved) :
    declared naming document base options = .ok (state.entries, resolved) := by
  rw [declared, hoverlay]
  change (walk ⟨overlay, naming, base, options⟩).run .initial >>= _ = _
  rw [hwalk]
  change ((resolve (overlay.value state.scratch) ⟨naming, none, none⟩).run
    ⟨state.discovery, [], none⟩).1 >>= _ = _
  rw [hresolve]
  rfl

/-- A state in which less is discovered than in another one, with the same scratch area. -/
structure DiscoversLess (full narrow : State) : Prop where
  scratch_eq : narrow.scratch = full.scratch
  discovery : ∃ paths fewer, full.discovery = Discovery.empty.addAll paths ∧
    narrow.discovery = Discovery.empty.addAll fewer ∧ fewer ⊆ paths ∧
    ∀ path ∈ paths, Pointer.Proper path

/-- If the schemas discovered by a walk can be declared, so can those of one that discovers less, and they
are declared alike. -/
theorem DiscoversLess.exists_declared {overlay : Overlay} {full narrow : State} {resolved : List Entry}
    (h : DiscoversLess full narrow) (hoverlay : Overlay.ofDocument document = .ok overlay)
    (hwalk : (walk ⟨overlay, naming, base, options⟩).run .initial = .ok ((), narrow))
    (hresolve : ((resolve (overlay.value full.scratch) ⟨naming, none, none⟩).run
      ⟨full.discovery, [], none⟩).1 = .ok resolved) :
    ∃ fewer, declared naming document base options = .ok (narrow.entries, fewer) ∧ fewer ⊆ resolved := by
  obtain ⟨paths, fewer, hfull, hnarrow, hsubset, hproper⟩ := h.discovery
  rw [hfull] at hresolve
  obtain ⟨results, rfl, hresolves⟩ := resolves_of_run hproper hresolve
  obtain ⟨others, hrun, hothers⟩ := hresolves.exists_run hproper hsubset
  rw [← h.scratch_eq, ← hnarrow] at hrun
  exact ⟨others.map entryOf, declared_of_walk hoverlay hwalk hrun,
    List.map_subset _ (hresolves.subset hothers hsubset)⟩

/-- A document whose declarations have the paths of those of a document that compiles does compile. -/
theorem exists_compile_of_declared {others : Options} {tree : Namespace}
    {own own' : List OperationEntry} {resolved resolved' : List Entry}
    (hcompile : compile naming document base options = .ok tree)
    (h : declared naming document base options = .ok (own, resolved))
    (h' : declared naming document base others = .ok (own', resolved'))
    (hown : ∀ entry ∈ own', ∃ e ∈ own, e.operation = entry.operation ∧ e.parts = entry.parts)
    (hresolved : resolved' ⊆ resolved) : ∃ tree, compile naming document base others = .ok tree := by
  rw [compile_eq, h] at hcompile
  have hassemble := ofMalformed_eq_ok hcompile
  have hpaths : ∀ entry ∈ own'.map (wholePath base) ++ resolved',
      ∃ e ∈ own.map (wholePath base) ++ resolved, e.path = entry.path := by
    intro entry hentry
    rcases List.mem_append.mp hentry with hentry | hentry
    · obtain ⟨inner, hinner, rfl⟩ := List.mem_map.mp hentry
      obtain ⟨e, he, hoperation, hparts⟩ := hown inner hinner
      refine ⟨wholePath base e, List.mem_append_left _ (List.mem_map_of_mem he), ?_⟩
      rw [wholePath, wholePath, hoperation, hparts]
    · exact ⟨entry, List.mem_append_right _ (hresolved hentry), rfl⟩
  obtain ⟨tree', htree⟩ := Namespace.exists_assemble_of_paths hassemble hpaths
  refine ⟨tree', ?_⟩
  rw [compile_eq, h']
  exact congrArg Fault.ofMalformed htree

end Api

end SchemaTypes
