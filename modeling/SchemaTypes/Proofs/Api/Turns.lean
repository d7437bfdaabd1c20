import Mathlib.Data.List.Forall2
import SchemaTypes.Proofs.Api.Declared

/-!
# Operations in their turn

The walk compiles the operations of a document one after the other. The id of an operation depends on what
the ones before it asked for, and references are followed through what they have put aside, so an operation
is taken together with both. All declarations of an operation stand together. Hence what one operation
declares in its turn, whatever came before, divides the declarations of a document into blocks, one for each
operation. In the tree of the document, the namespace of an operation holds what is in its block, unless an
earlier operation has the same identifier.
-/

namespace SchemaTypes.Api

open Faulting

/-- An operation in its turn: where it stands in the document, the id it is compiled under, and what the
operations before it have put aside. -/
structure Turn where
  source : OperationSource
  id : Text
  scratch : Scratch

namespace Turn

/-- The operation that is compiled. -/
def operation (turn : Turn) : Operation := turn.source.under turn.id

/-- The emissions for the operation. -/
def emissions (setting : Setting) (turn : Turn) : List Emission :=
  turn.source.emissions setting turn.scratch turn.id

/-- The qualified name of what is declared right in the namespace of the operation. -/
def member (naming : Naming) (base : Text) (turn : Turn) (name : Text) : List Value :=
  [.text (naming.ofText base), .text (naming.ofText turn.id), .text name]

end Turn

/-- The turns of some operations, after others have been given ids and have put schemas aside. -/
def turnsFrom (setting : Setting) : List (Text × Nat) → Scratch → List OperationSource → List Turn
  | _, _, [] => []
  | counts, scratch, source :: rest =>
    let given := uniqueId source.requestedId counts
    let turn : Turn := ⟨source, given.1, scratch⟩
    turn :: turnsFrom setting given.2 (storeAll (turn.emissions setting) scratch) rest

/-- The turns of all operations of a document. -/
def turns (setting : Setting) : List Turn :=
  turnsFrom setting [] .empty (documentSources setting.overlay.document)

/-- Every operation has one turn. -/
theorem map_source_turnsFrom (setting : Setting) (counts : List (Text × Nat)) (scratch : Scratch)
    (operations : List OperationSource) :
    (turnsFrom setting counts scratch operations).map (·.source) = operations := by
  induction operations generalizing counts scratch with
  | nil => rfl
  | cons source rest ih => rw [turnsFrom, List.map_cons, ih]

/-- The emissions of operations are those of their turns. -/
theorem flatMap_emissions_turnsFrom (setting : Setting) (counts : List (Text × Nat))
    (scratch : Scratch) (operations : List OperationSource) :
    (turnsFrom setting counts scratch operations).flatMap (·.emissions setting) =
      sourcesEmissions setting counts scratch operations := by
  induction operations generalizing counts scratch with
  | nil => rfl
  | cons source rest ih =>
    rw [turnsFrom, List.flatMap_cons, ih]
    rfl

/-- Two properties that hold at the end hold together. -/
theorem Ends.and {α : Type} {state : State} {action : Compile α} {first second : α → State → Prop}
    (hfirst : Ends state action first) (hsecond : Ends state action second) :
    Ends state action fun a final => first a final ∧ second a final :=
  fun a final hrun => ⟨hfirst a final hrun, hsecond a final hrun⟩

/-- Whatever is declared of an operation in its turn, it adds declarations of which this holds. -/
def DeclaresInTurn (setting : Setting) (block : Turn → List OperationEntry → Prop) : Prop :=
  ∀ (source : OperationSource) (state : State), Ends state (source.compile setting) fun _ final =>
    ∃ added, final.entries = state.entries ++ added ∧
      block ⟨source, (uniqueId source.requestedId state.ids).1, state.scratch⟩ added

namespace DeclaresInTurn

variable {setting : Setting} {block other : Turn → List OperationEntry → Prop}

/-- What holds of the declarations of an operation may be weakened. -/
theorem weaken (h : DeclaresInTurn setting block) (himp : ∀ turn added, block turn added → other turn added) :
    DeclaresInTurn setting other := by
  intro source state
  refine (h source state).weaken ?_
  rintro _ final ⟨added, hadded, hblock⟩
  exact ⟨added, hadded, himp _ added hblock⟩

/-- Two properties of the declarations of an operation hold together. -/
theorem and (h : DeclaresInTurn setting block) (hother : DeclaresInTurn setting other) :
    DeclaresInTurn setting fun turn added => block turn added ∧ other turn added := by
  intro source state
  refine ((h source state).and (hother source state)).weaken ?_
  rintro _ final ⟨⟨added, hadded, hblock⟩, added', hadded', hblock'⟩
  rw [hadded] at hadded'
  cases List.append_cancel_left hadded'
  exact ⟨added, hadded, hblock, hblock'⟩

/-- Several operations declare one block after the other. -/
theorem sources (h : DeclaresInTurn setting block) (operations : List OperationSource) (state : State) :
    Ends state (forM operations (OperationSource.compile setting)) fun _ final =>
      ∃ blocks, final.entries = state.entries ++ blocks.flatten ∧
        List.Forall₂ block (turnsFrom setting state.ids state.scratch operations) blocks := by
  induction operations generalizing state with
  | nil => exact Ends.pure ⟨[], (List.append_nil _).symm, .nil⟩
  | cons source rest ih =>
    rw [List.forM_cons]
    refine Ends.bind ((h source state).and (source.compile_emits setting state)) ?_
    rintro _ middle ⟨⟨added, hadded, hblock⟩, hemits⟩
    refine (ih middle).weaken ?_
    rintro _ final ⟨blocks, hblocks, hturns⟩
    rw [hemits.ids_eq, hemits.scratch_eq] at hturns
    refine ⟨added :: blocks, ?_, .cons hblock hturns⟩
    rw [hblocks, hadded, List.append_assoc, List.flatten_cons]

/-- The declarations of a walk are divided into blocks, one for each operation. -/
theorem walk (h : DeclaresInTurn setting block) {state : State}
    (hwalk : (Api.walk setting).run .initial = .ok ((), state)) :
    ∃ blocks, state.entries = blocks.flatten ∧ List.Forall₂ block (turns setting) blocks := by
  obtain ⟨members, middle, hpaths, hsources, hrest⟩ := (run_walk_eq_ok setting).mp hwalk
  obtain ⟨blocks, hblocks, hturns⟩ := h.sources (Api.sources members) .initial () middle hsources
  have hoperations : documentSources setting.overlay.document = Api.sources members := by
    rw [documentSources, hpaths]
    rfl
  refine ⟨blocks, ?_, by rw [turns, hoperations]; exact hturns⟩
  have hkept : state.entries = middle.entries := by
    split_ifs at hrest
    · obtain ⟨paths, -, hdiscover⟩ := (discoverComponents_oblivious setting).discovers
        (discoverComponents_emits setting) hrest
      cases hrest.symm.trans (hdiscover middle rfl rfl)
      rfl
    · cases hrest
      rfl
  exact hkept.trans hblocks

end DeclaresInTurn

/-- A compilation of a document: where its walk ends, what is declared besides the operations, and the
declarations of the operations one by one. -/
structure Compilation (naming : Naming) (document base : Value) (options : Options) (tree : Namespace) where
  overlay : Overlay
  state : State
  resolved : List Entry
  blocks : List (List OperationEntry)
  opened : Overlay.ofDocument document = .ok overlay
  walked : (walk ⟨overlay, naming, base, options⟩).run .initial = .ok ((), state)
  stored : state.scratch = storeAll ((turns ⟨overlay, naming, base, options⟩).flatMap
    (·.emissions ⟨overlay, naming, base, options⟩)) .empty
  divided : state.entries = blocks.flatten
  declared_eq : declared naming document base options = .ok (state.entries, resolved)
  assembled : Namespace.assemble naming (state.entries.map (wholePath base) ++ resolved) = .ok tree

section

variable {naming : Naming} {document base : Value} {options : Options} {tree : Namespace}

/-- The setting that the document is compiled in. -/
def Compilation.setting (c : Compilation naming document base options tree) : Setting :=
  ⟨c.overlay, naming, base, options⟩

/-- The setting is determined by the document. -/
theorem Compilation.setting_eq (c : Compilation naming document base options tree) {overlay : Overlay}
    (h : Overlay.ofDocument document = .ok overlay) : c.setting = ⟨overlay, naming, base, options⟩ := by
  cases c.opened.symm.trans h
  rfl

/-- What operations declare in their turn, the operations of a document that compiles have declared. -/
theorem DeclaresInTurn.exists_compilation {block : Setting → Turn → List OperationEntry → Prop}
    (h : ∀ setting, DeclaresInTurn setting (block setting))
    (hcompile : compile naming document base options = .ok tree) :
    ∃ c : Compilation naming document base options tree,
      List.Forall₂ (block c.setting) (turns c.setting) c.blocks := by
  obtain ⟨own, resolved, hdeclared, hassemble⟩ := exists_declared_of_compile hcompile
  obtain ⟨overlay, state, hoverlay, hwalk, -, rfl⟩ := exists_walk_of_declared hdeclared
  obtain ⟨blocks, hblocks, hturns⟩ := (h _).walk hwalk
  have hstored := (walk_emits _ .initial () state hwalk).scratch_eq
  rw [← flatMap_emissions_turnsFrom] at hstored
  exact ⟨⟨overlay, state, resolved, blocks, hoverlay, hwalk, hstored, hblocks, hdeclared, hassemble⟩, hturns⟩

/-- The request body of an operation is declared under its name. -/
theorem Compilation.name_of_body (c : Compilation naming document base options tree)
    {block : List OperationEntry} (hblock : block ∈ c.blocks) {entry : OperationEntry}
    (hentry : entry ∈ block) (hparts : entry.parts = [("Body" : Text)]) :
    entry.declaration.name = .text (naming.ofText "Body") := by
  obtain ⟨overlay, hproduced⟩ := produced_of_declared c.declared_eq
  rw [c.divided] at hproduced
  exact (hproduced entry (List.mem_flatten.mpr ⟨block, hblock, hentry⟩)).name_of_body hparts

/-- A relation between the members of two lists relates each part of the one to a part of the other. -/
theorem exists_append_of_forall₂ {α β : Type} {R : α → β → Prop} {before after : List α} {a : α}
    {found : List β} (h : List.Forall₂ R (before ++ a :: after) found) :
    ∃ front b back, found = front ++ b :: back ∧ List.Forall₂ R before front ∧ R a b := by
  induction before generalizing found with
  | nil =>
    obtain ⟨b, back, hb, -, rfl⟩ := List.forall₂_cons_left_iff.mp h
    exact ⟨[], b, back, rfl, .nil, hb⟩
  | cons first rest ih =>
    obtain ⟨other, others, hother, hrest, rfl⟩ := List.forall₂_cons_left_iff.mp h
    obtain ⟨front, b, back, rfl, hfront, hb⟩ := ih hrest
    exact ⟨other :: front, b, back, rfl, .cons hother hfront, hb⟩

/-- A relation between the members of two lists relates each member of the second one to some of the first. -/
theorem exists_of_forall₂ {α β : Type} {R : α → β → Prop} {given : List α} {found : List β}
    (h : List.Forall₂ R given found) {b : β} (hb : b ∈ found) : ∃ a ∈ given, R a b := by
  obtain ⟨front, back, rfl⟩ := List.append_of_mem hb
  obtain ⟨_, a, _, rfl, -, ha⟩ := exists_append_of_forall₂ (List.Forall₂.flip (R := flip R) h)
  exact ⟨a, by simp, ha⟩

/-- The namespace of an operation holds the first of its declarations with a name, if no earlier operation
has the same identifier. -/
theorem Compilation.exists_block {base : Text} (c : Compilation naming document (.text base) options tree)
    {block : Turn → List OperationEntry → Prop} (hblocks : List.Forall₂ block (turns c.setting) c.blocks)
    (hown : ∀ turn added, block turn added → ∀ entry ∈ added, entry.operation = turn.id)
    {before after : List Turn} {turn : Turn} (hturns : turns c.setting = before ++ turn :: after)
    (hfirst : ∀ earlier ∈ before, naming.ofText earlier.id ≠ naming.ofText turn.id) :
    ∃ added, block turn added ∧ added ∈ c.blocks ∧ ∀ front entry back part name,
      added = front ++ entry :: back → entry.parts = [part] → entry.declaration.name = .text name →
        (∀ other ∈ front, (∃ part, other.parts = [part]) → other.declaration.name ≠ .text name) →
          tree.find? (turn.member naming base name) = .ok (some entry.declaration) := by
  rw [hturns] at hblocks
  obtain ⟨earlier, added, later, hdivided, hearlier, hadded⟩ := exists_append_of_forall₂ hblocks
  refine ⟨added, hadded, by simp [hdivided], ?_⟩
  rintro front entry back part name rfl hparts hname hfront
  have hentries : c.state.entries = (earlier.flatten ++ front) ++ entry :: (back ++ later.flatten) := by
    rw [c.divided, hdivided]
    simp
  have hoperation : entry.operation = turn.id := hown turn _ hadded entry (by simp)
  have hqualified : entry.qualified naming base = turn.member naming base name :=
    OperationEntry.qualified_eq_iff.mpr ⟨⟨part, hparts⟩, by rw [hoperation], hname⟩
  have hdeclared := c.declared_eq
  have hassembled := c.assembled
  rw [hentries] at hdeclared hassembled
  rw [← hqualified]
  refine find?_qualified hdeclared hassembled hname fun other hother hsame => ?_
  obtain ⟨hpart, hid, hother'⟩ := OperationEntry.qualified_eq_iff.mp (hsame.trans hqualified)
  rcases List.mem_append.mp hother with hmem | hmem
  · -- Another block belongs to an operation with another identifier.
    obtain ⟨others, hothers, hinside⟩ := List.mem_flatten.mp hmem
    obtain ⟨former, hformer, hblock⟩ := exists_of_forall₂ hearlier hothers
    rw [hown former others hblock other hinside] at hid
    exact hfirst former hformer hid
  · exact hfront other hmem hpart hother'

end

end SchemaTypes.Api
