import SchemaTypes.Api.Compile
import SchemaTypes.Proofs.Schema.Mentions
import SchemaTypes.Proofs.Schema.Discovery
import SchemaTypes.Proofs.Schema.Written

/-!
# What the walk over the operations keeps

Every name mentioned by a declaration of the walk so far is covered: it is the name of a path that
has been discovered, or that of another declaration of the walk. Names are covered for good, since
the walk forgets neither paths nor declarations.

`Keeps` says of a computation of the walk that it leaves such a state behind, that this state has
grown from the one before, and what holds of the result there. It has one rule for each way to put
computations together.
-/

namespace SchemaTypes.Api

open Build TypeExpr

/-- The paths discovered so far. -/
def State.paths (state : State) : List (List Text) := state.discovery.found.map (·.2)

/-- A declaration is named by the end of its path, unless it is a parameter without a name. -/
structure OperationEntry.Usable (naming : Naming) (entry : OperationEntry) : Prop where
  ne_nil : entry.parts ≠ []
  name_eq : entry.parts ≠ [("Parameters" : Text), ""] →
    entry.declaration.name = .text (naming.ofText (entry.parts.getLastD ""))

/-- The path of a declaration of an operation. -/
def operationPath (base operation : Text) (parts : List Text) : List Text :=
  base :: operation :: parts

/-- The qualified name of a path. -/
def qualify (naming : Naming) (path : List Text) : List Value := (path.map naming.ofText).map .text

/-- The qualified names of discovered paths and of declarations. -/
inductive Covered (naming : Naming) (base : Text) (state : State) : List Value → Prop where
  | path {path : List Text} : path ∈ state.paths → Covered naming base state (qualify naming path)
  | entry {entry : OperationEntry} : entry ∈ state.entries → entry.Usable naming →
      Covered naming base state (qualify naming (operationPath base entry.operation entry.parts))

/-- A state of the walk in which every name mentioned is covered. -/
structure Sound (naming : Naming) (base : Text) (state : State) : Prop where
  discovery_eq : state.discovery = .ofPaths [] state.paths
  proper : ∀ path ∈ state.paths, Pointer.Proper path
  nodup : state.paths.Nodup
  covered : ∀ entry ∈ state.entries, ∀ parts ∈ entry.declaration.type.referenced,
    Covered naming base state parts

/-- A later state of the walk has every path and every declaration of an earlier one. -/
structure Grows (before after : State) : Prop where
  paths : before.paths ⊆ after.paths
  entries : before.entries ⊆ after.entries

namespace Grows

/-- A state has all of its own. -/
theorem refl (state : State) : Grows state state := ⟨List.Subset.refl _, List.Subset.refl _⟩

/-- What was there stays there. -/
theorem trans {first second third : State} (hfirst : Grows first second)
    (hsecond : Grows second third) : Grows first third :=
  ⟨List.Subset.trans hfirst.paths hsecond.paths, List.Subset.trans hfirst.entries hsecond.entries⟩

end Grows

variable {naming : Naming} {base : Text} {α β : Type}

/-- Names stay covered. -/
theorem Covered.mono {before after : State} (hgrows : Grows before after) {parts : List Value}
    (h : Covered naming base before parts) : Covered naming base after parts := by
  cases h with
  | path hpath => exact .path (hgrows.paths hpath)
  | entry hentry husable => exact .entry (hgrows.entries hentry) husable

/-- A computation that, from a given state, leaves a sound state behind which has grown, with a
result for which a property holds there. -/
def Keeps (naming : Naming) (base : Text) (state : State) (action : Compile α)
    (post : α → State → Prop) : Prop :=
  ∀ a final, Sound naming base state → action.run state = .ok (a, final) →
    Sound naming base final ∧ Grows state final ∧ post a final

namespace Keeps

variable {state : State} {post : α → State → Prop}

/-- A finished computation keeps the state. -/
theorem pure {a : α} (h : post a state) : Keeps naming base state (Pure.pure a) post := by
  intro b final hsound hrun
  cases hrun
  exact ⟨hsound, .refl state, h⟩

/-- A fault leaves nothing behind. -/
theorem throw (fault : Fault) :
    Keeps naming base state (MonadExcept.throw fault : Compile α) post := by
  intro a final _ hrun
  cases hrun

/-- A result from elsewhere keeps the state. -/
theorem lift {result : Except Fault α} (h : ∀ a, result = .ok a → post a state) :
    Keeps naming base state (liftM result) post := by
  intro a final hsound hrun
  cases result with
  | error fault => cases hrun
  | ok b =>
    cases hrun
    exact ⟨hsound, .refl state, h a rfl⟩

/-- The second computation of a sequence starts where the first one ended. -/
theorem bind {first : Compile α} {second : α → Compile β} {last : β → State → Prop}
    (hfirst : Keeps naming base state first post)
    (hsecond : ∀ a middle, Grows state middle → post a middle →
      Keeps naming base middle (second a) last) :
    Keeps naming base state (first >>= second) last := by
  intro b final hsound hrun
  rw [StateT.run_bind] at hrun
  cases hmiddle : first.run state with
  | error fault =>
    rw [hmiddle] at hrun
    cases hrun
  | ok outcome =>
    obtain ⟨a, middle⟩ := outcome
    rw [hmiddle] at hrun
    obtain ⟨hsound₁, hgrows₁, hpost₁⟩ := hfirst a middle hsound hmiddle
    obtain ⟨hsound₂, hgrows₂, hpost₂⟩ := hsecond a middle hgrows₁ hpost₁ b final hsound₁ hrun
    exact ⟨hsound₂, hgrows₁.trans hgrows₂, hpost₂⟩

/-- A weaker property holds of the result as well. -/
theorem weaken {action : Compile α} {weaker : α → State → Prop}
    (h : Keeps naming base state action post)
    (himp : ∀ a final, Grows state final → post a final → weaker a final) :
    Keeps naming base state action weaker := by
  intro a final hsound hrun
  obtain ⟨hfinal, hgrows, hpost⟩ := h a final hsound hrun
  exact ⟨hfinal, hgrows, himp a final hgrows hpost⟩

/-- Reading the state gives the state at hand. -/
theorem get_bind {second : State → Compile α} (h : Keeps naming base state (second state) post) :
    Keeps naming base state (get >>= second) post :=
  fun a final hsound hrun => h a final hsound hrun

/-- A change of the state that concerns neither paths nor declarations keeps it. -/
theorem modify {change : State → State} (hdiscovery : (change state).discovery = state.discovery)
    (hentries : (change state).entries = state.entries) :
    Keeps naming base state (modify change) fun _ _ => True := by
  intro a final hsound hrun
  cases hrun
  have hpaths : (change state).paths = state.paths := by rw [State.paths, State.paths, hdiscovery]
  have hgrows : Grows state (change state) :=
    ⟨by rw [hpaths]; exact List.Subset.refl _, by rw [hentries]; exact List.Subset.refl _⟩
  refine ⟨⟨?_, ?_, ?_, ?_⟩, hgrows, trivial⟩
  · rw [hpaths, hdiscovery, hsound.discovery_eq]
  · rw [hpaths]
    exact hsound.proper
  · rw [hpaths]
    exact hsound.nodup
  · rw [hentries]
    exact fun entry hentry parts hparts => (hsound.covered entry hentry parts hparts).mono hgrows

/-- Computations for the items of a list keep the state one after the other. -/
theorem mapM {γ : Type} {items : List γ} {f : γ → Compile α}
    (hstable : ∀ a before after, Grows before after → post a before → post a after)
    (h : ∀ item ∈ items, ∀ middle, Keeps naming base middle (f item) post) :
    Keeps naming base state (items.mapM f) fun results final => ∀ a ∈ results, post a final := by
  induction items generalizing state with
  | nil => exact pure nofun
  | cons item rest ih =>
    rw [List.mapM_cons]
    refine (h item List.mem_cons_self state).bind fun a middle _ ha => ?_
    refine (ih fun other hother => h other (List.mem_cons_of_mem _ hother)).bind
      fun results last hgrows hresults => pure ?_
    exact List.forall_mem_cons.mpr ⟨hstable a middle last hgrows ha, hresults⟩

end Keeps

/-- The paths of a state made from pending paths are these. -/
theorem paths_ofPaths (pending : List (List Text)) :
    (Discovery.ofPaths [] pending).found.map (·.2) = pending := by
  simp [Discovery.ofPaths, Function.comp_def]

/-- Discovering more paths keeps every name covered. -/
theorem Sound.discover {state final : State} {paths : List (List Text)}
    (hsound : Sound naming base state) (hproper : ∀ path ∈ paths, Pointer.Proper path)
    (hdiscovery : final.discovery = state.discovery.addAll paths)
    (hentries : final.entries = state.entries) :
    Sound naming base final ∧ Grows state final ∧ paths ⊆ final.paths := by
  have hadded : final.discovery =
      .ofPaths [] (state.paths ++ Discovery.fresh state.paths paths) := by
    rw [hdiscovery, hsound.discovery_eq,
      Discovery.addAll_ofPaths (fun path hpath => (hsound.proper path hpath).no_empty)
        fun path hpath => (hproper path hpath).no_empty,
      List.nil_append]
  have hpaths : final.paths = state.paths ++ Discovery.fresh state.paths paths := by
    rw [State.paths, hadded, paths_ofPaths]
  have hgrows : Grows state final :=
    ⟨hpaths ▸ List.subset_append_left _ _, hentries ▸ List.Subset.refl _⟩
  refine ⟨⟨hpaths ▸ hadded, fun path hpath => ?_, ?_, ?_⟩, hgrows, fun path hpath => ?_⟩
  · rw [hpaths, List.mem_append] at hpath
    rcases hpath with hpath | hpath
    · exact hsound.proper path hpath
    · exact hproper path (Discovery.mem_fresh.mp hpath).1
  · rw [hpaths]
    exact Discovery.nodup_append_fresh hsound.nodup paths
  · rw [hentries]
    exact fun entry hentry parts hparts => (hsound.covered entry hentry parts hparts).mono hgrows
  · rw [hpaths, List.mem_append, Discovery.mem_fresh]
    by_cases hknown : path ∈ state.paths
    · exact Or.inl hknown
    · exact Or.inr ⟨hpath, hknown⟩

namespace Keeps

variable {state : State}

/-- Building keeps the state, and what it visits is discovered. -/
theorem build {action : Option Text → Build α} {paths : List (List Text)} {property : α → Prop}
    {place : Option Text} (hexplores : Explores action paths)
    (hproper : ∀ path ∈ paths, Pointer.Proper path) (hyields : Yields (action place) property) :
    Keeps naming base state (Api.build (action place))
      fun a final => property a ∧ paths ⊆ final.paths := by
  intro a final hsound hrun
  rcases hbuild : (action place).run state.discovery with ⟨result, d⟩
  unfold Api.build at hrun
  simp only [StateT.run, hbuild] at hrun
  cases result with
  | error fault => cases hrun
  | ok b =>
    cases hrun
    have hd : State.discovery { state with discovery := d } = state.discovery.addAll paths :=
      congrArg Prod.snd (hbuild.symm.trans (hexplores.run_of_ok hbuild place state.discovery))
    obtain ⟨hfinal, hgrows, hsubset⟩ := hsound.discover hproper hd rfl
    exact ⟨hfinal, hgrows, hyields _ _ _ hbuild, hsubset⟩

/-- What is named in a scope without a root is the name of a path. -/
theorem covered_of_names {scope : Scope} (hroot : scope.rootName = none) {paths : List (List Text)}
    (hpaths : paths ⊆ state.paths) {parts : List Value} (h : scope.Names paths parts) :
    Covered scope.naming base state parts := by
  cases h with
  | path hpath => exact .path (hpaths hpath)
  | root hname _ => cases hroot.symm.trans hname

/-- Building the types of a schema covers what they mention. -/
theorem build_types {scope : Scope} (hroot : scope.rootName = none) (schema : Value) :
    Keeps scope.naming base state (Api.build (Schema.types scope schema))
      fun ts final => ∀ parts ∈ ts.flatMap referenced, Covered scope.naming base final parts := by
  have hyields : Yields (Schema.types (scope.reportingAt scope.path) schema)
      (Schema.Mentions scope (Schema.references schema)) := Schema.types_mentions scope schema
  refine (build (Schema.types_explores scope schema)
    (fun path hpath => Schema.proper_of_mem_references hpath) hyields).weaken ?_
  intro ts final _ h parts hparts
  exact covered_of_names hroot h.2 (h.1 parts hparts)

/-- Building a declaration covers what it mentions. -/
theorem build_declare {scope : Scope} (hroot : scope.rootName = none) (schema name : Value)
    (ambient : Bool) :
    Keeps scope.naming base state (Api.build (Schema.declare scope schema name ambient))
      fun declaration final =>
        scope.identify (name.orElse ((Schema.title schema).orElse (.text Schema.fallbackName))) =
            .ok declaration.name ∧
          ∀ parts ∈ declaration.type.referenced, Covered scope.naming base final parts := by
  have hyields : Yields (Schema.declare (scope.reportingAt scope.path) schema name ambient)
      fun declaration =>
        scope.identify (name.orElse ((Schema.title schema).orElse (.text Schema.fallbackName))) =
            .ok declaration.name ∧
          Schema.Mentions scope (Schema.references schema) [declaration.type] :=
    fun d declaration d' hrun => ⟨Schema.declare_named scope schema name ambient d _ d' hrun,
      Schema.declare_mentions scope schema name ambient d _ d' hrun⟩
  refine (build (Schema.declare_explores scope schema name ambient)
    (fun path hpath => Schema.proper_of_mem_references hpath) hyields).weaken ?_
  intro declaration final _ h
  refine ⟨h.1.1, fun parts hparts => ?_⟩
  exact covered_of_names hroot h.2 (h.1.2 parts (by simpa using hparts))

/-- Adding a declaration whose names are covered keeps every name covered. -/
theorem addEntry (operation : Operation) (parts : List Text) {declaration : Declaration}
    (h : ∀ mentioned ∈ declaration.type.referenced, Covered naming base state mentioned) :
    Keeps naming base state (Api.addEntry operation parts declaration)
      fun _ final => ⟨operation.id, parts, declaration⟩ ∈ final.entries := by
  intro a final hsound hrun
  cases hrun
  have hgrows : Grows state
      { state with entries := state.entries ++ [⟨operation.id, parts, declaration⟩] } :=
    ⟨List.Subset.refl _, List.subset_append_left _ _⟩
  refine ⟨⟨hsound.discovery_eq, hsound.proper, hsound.nodup, ?_⟩, hgrows, by simp⟩
  intro entry hentry mentioned hmentioned
  rw [List.mem_append, List.mem_singleton] at hentry
  rcases hentry with hentry | rfl
  · exact (hsound.covered entry hentry mentioned hmentioned).mono hgrows
  · exact (h mentioned hmentioned).mono hgrows

end Keeps

end SchemaTypes.Api
