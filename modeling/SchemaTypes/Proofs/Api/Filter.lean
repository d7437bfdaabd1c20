import SchemaTypes.Proofs.Api.Declared

/-!
# A filter on statuses narrows outputs

With a filter, the walk leaves out the variants whose status is not among the given codes, and with them the
schemas of their headers. It still makes every other declaration alike: computations of the walk do not
look at what has been discovered before, and everything else about the two states is the same.

Fewer paths are discovered in this way, so fewer schemas are declared afterwards. Each of them is declared
as it is without a filter.
-/

namespace SchemaTypes.Api

open Build Faulting TypeExpr Resolution

/-- The code that a variant has as its status, if its status is a code. -/
def statusCode? : TypeExpr → Option Int
  | .object fields _ =>
    match fields.find? fun field => field.name = .text "status" with
    | some ⟨_, .literal (.scalar (.int code)), _, _⟩ => some code
    | _ => none
  | _ => none

/-- Whether the status of a variant is one of some codes. -/
def hasStatusIn (statuses : List Int) (variant : TypeExpr) : Bool :=
  match statusCode? variant with
  | some code => statuses.contains code
  | none => false

/-- The union of some variants, or anything if there is none. -/
def outputOf : List TypeExpr → TypeExpr
  | [] => .any
  | variants => .union variants

/-- An output without the variants whose status is not one of some codes. -/
def narrowedOutput (statuses : List Int) : TypeExpr → TypeExpr
  | .union variants => outputOf (variants.filter (hasStatusIn statuses))
  | other => other

/-- A declaration of an operation, with fewer variants if it is an output. -/
def OperationEntry.narrowed (statuses : List Int) (entry : OperationEntry) : OperationEntry :=
  if entry.parts = [("Output" : Text)] then
    { entry with declaration :=
        { entry.declaration with type := narrowedOutput statuses entry.declaration.type } }
  else entry

/-- Leaving variants out of an output keeps the other ones in order. -/
theorem narrowedOutput_outputOf (statuses : List Int) (variants : List TypeExpr) :
    narrowedOutput statuses (outputOf variants) =
      outputOf (variants.filter (hasStatusIn statuses)) := by
  cases variants with
  | nil => rfl
  | cons variant rest => rfl

/-- The declaration of the output of an operation by its variants. -/
def outputEntry (operation : Operation) (variants : List TypeExpr) : OperationEntry :=
  ⟨operation.id, ["Output"], ⟨.text "Output", outputOf variants, true⟩⟩

/-- A state of the walk without a filter and the state with one: they differ in the variants of outputs, and
less is discovered with the filter. -/
structure Narrows (statuses : List Int) (full narrow : State) : Prop extends
    DiscoversLess full narrow where
  ids_eq : narrow.ids = full.ids
  entries_eq : narrow.entries = full.entries.map (OperationEntry.narrowed statuses)

variable {statuses : List Int} {full narrow : State}

namespace Narrows

/-- At the start there is no difference. -/
theorem initial (statuses : List Int) : Narrows statuses .initial .initial :=
  ⟨⟨rfl, [], [], rfl, rfl, List.Subset.refl _, List.forall_mem_nil _⟩, rfl, rfl⟩

/-- Discovering more keeps the difference, as long as less of it is discovered with the filter. -/
theorem discover (h : Narrows statuses full narrow) {more some : List (List Text)}
    (hmore : ∀ path ∈ more, Pointer.Proper path) (hsome : some ⊆ more) :
    Narrows statuses { full with discovery := full.discovery.addAll more }
      { narrow with discovery := narrow.discovery.addAll some } := by
  obtain ⟨paths, fewer, hfull, hnarrow, hsubset, hproper⟩ := h.discovery
  refine ⟨⟨h.scratch_eq, paths ++ more, fewer ++ some, ?_, ?_, ?_, ?_⟩, h.ids_eq, h.entries_eq⟩
  · rw [hfull, Discovery.addAll_append]
  · rw [hnarrow, Discovery.addAll_append]
  · exact List.append_subset.mpr ⟨List.subset_append_of_subset_left _ hsubset,
      List.subset_append_of_subset_right _ hsome⟩
  · exact List.forall_mem_append.mpr ⟨hproper, hmore⟩

/-- The same change keeps the difference. -/
theorem after (h : Narrows statuses full narrow) {change : Change}
    (hadds : change.Adds fun entry => entry.parts ≠ [("Output" : Text)]) :
    Narrows statuses (full.after change) (narrow.after change) := by
  have hsame : change.entries.map (OperationEntry.narrowed statuses) = change.entries :=
    (List.map_congr_left fun entry hentry => if_neg (hadds.entries entry hentry)).trans (List.map_id _)
  refine ⟨⟨rfl, (h.discover hadds.proper (List.Subset.refl _)).discovery⟩, rfl, ?_⟩
  rw [State.after, State.after, h.entries_eq, List.map_append, hsame]

/-- Declaring an output with fewer variants keeps the difference. -/
theorem output (h : Narrows statuses full narrow) (operation : Operation) (variants : List TypeExpr) :
    Narrows statuses { full with entries := full.entries ++ [outputEntry operation variants] }
      { narrow with entries :=
          narrow.entries ++ [outputEntry operation (variants.filter (hasStatusIn statuses))] } := by
  refine ⟨⟨h.scratch_eq, h.discovery⟩, h.ids_eq, ?_⟩
  have houtput : (outputEntry operation variants).narrowed statuses =
      outputEntry operation (variants.filter (hasStatusIn statuses)) := by
    rw [outputEntry, outputEntry, ← narrowedOutput_outputOf]
    rfl
  rw [List.map_append, List.map_singleton, houtput, ← h.entries_eq]

end Narrows

/-- The type of the status of a variant: its code, or any number if it has none. -/
def statusType : Option Nat → TypeExpr
  | some code => .literal (.int code)
  | none => .nonNull .number

/-- The schema of a status has one type. -/
theorem run_types_statusSchema (scope : Scope) {status : Text} {schema : Value}
    (h : statusSchema status = .ok schema) :
    ∃ code, numeral? status = .ok code ∧
      ∀ d, (Schema.types scope schema).run d = (.ok [statusType code], d) := by
  obtain ⟨code, hcode, h⟩ := bind_eq_ok h
  refine ⟨code, ofMalformed_eq_ok hcode, fun d => ?_⟩
  cases code with
  | some n =>
    cases h
    rfl
  | none =>
    cases h
    rfl

/-- A variant has the code that its response has as its status, if that is a numeral. -/
theorem variant_statusCode (setting : Setting) (operation : Operation) (response : Response)
    (state : State) :
    Ends state (variant setting operation response) fun t _ =>
      ∃ code, numeral? response.status = .ok code ∧ statusCode? t = code.map Int.ofNat := by
  refine Ends.bind (Ends.lift _) fun schema _ hlift => ?_
  obtain ⟨code, hcode, htypes⟩ := run_types_statusSchema (setting.scope operation) hlift.2
  refine Ends.bind (Ends.lift _) fun headersSchema _ _ => Ends.bind (Ends.build _) ?_
  rintro status _ ⟨d, hstatus, -⟩
  have hstatus : status = [statusType code] :=
    Except.ok.inj (congrArg Prod.fst (hstatus.symm.trans (htypes _)))
  refine Ends.bind (Ends.build _) fun headers _ _ => Ends.bind (Ends.lift _) fun body _ _ => ?_
  refine Ends.pure ⟨code, hcode, ?_⟩
  rw [hstatus]
  cases code with
  | some n => rfl
  | none => rfl

/-- A setting with another filter. -/
def Setting.filtering (setting : Setting) (filter : Option (List Int)) : Setting :=
  { setting with options := ⟨filter, setting.options.unused⟩ }

variable (setting : Setting)

/-- Without a filter every response has a variant. -/
theorem variants_unfiltered (operation : Operation) (response : Response) (rest : List Response) :
    variants (setting.filtering none) operation (response :: rest) =
      variant setting operation response >>= fun first =>
        variants (setting.filtering none) operation rest >>= fun others => pure (first :: others) := by
  rw [variants]
  rfl

/-- With a filter a response takes part if the code of its variant is among those of the filter. -/
theorem includes_eq (unused : Bool) {response : Response} {code : Option Nat} {t : TypeExpr}
    (hcode : numeral? response.status = .ok code) (ht : statusCode? t = code.map Int.ofNat) :
    Options.includes ⟨some statuses, unused⟩ response.status = .ok (hasStatusIn statuses t) := by
  rw [hasStatusIn, ht, Options.includes]
  simp only [hcode]
  cases code with
  | some n => rfl
  | none => rfl

/-- With a filter, the variants that have one of its codes are left. -/
theorem variants_narrow (operation : Operation) {responses : List Response} {ts : List TypeExpr}
    {final : State} (h : Narrows statuses full narrow)
    (hrun : (variants (setting.filtering none) operation responses).run full = .ok (ts, final)) :
    ∃ other, (variants (setting.filtering (some statuses)) operation responses).run narrow =
        .ok (ts.filter (hasStatusIn statuses), other) ∧ Narrows statuses final other := by
  induction responses generalizing full narrow ts with
  | nil =>
    cases hrun
    exact ⟨narrow, rfl, h⟩
  | cons response rest ih =>
    rw [variants_unfiltered, StateT.run_bind] at hrun
    obtain ⟨⟨first, middle⟩, hfirst, hrun⟩ := bind_eq_ok hrun
    rw [StateT.run_bind] at hrun
    obtain ⟨⟨others, last⟩, hothers, hrun⟩ := bind_eq_ok hrun
    cases hrun
    obtain ⟨code, hcode, ht⟩ := variant_statusCode setting operation response full _ _ hfirst
    obtain ⟨paths, hproper, hdiscover⟩ := (variant_oblivious setting operation response).discovers
      (variant_emits setting operation response) hfirst
    cases hfirst.symm.trans (hdiscover full rfl rfl)
    rw [variants, show (setting.filtering (some statuses)).options.includes response.status = _ from
      includes_eq setting.options.unused hcode ht]
    cases hkeep : hasStatusIn statuses first with
    | false =>
      -- The headers of a variant that is left out are discovered without the filter alone.
      rw [List.filter_cons_of_neg (by simp [hkeep])]
      exact ih (h.discover hproper (List.nil_subset _)) hothers
    | true =>
      have hnarrow := hdiscover narrow h.scratch_eq h.ids_eq
      obtain ⟨other, hother, hrelated⟩ := ih (h.discover hproper (List.Subset.refl _)) hothers
      refine ⟨other, ?_, hrelated⟩
      rw [List.filter_cons_of_pos hkeep]
      change ((variant setting operation response) >>= fun first =>
        variants (setting.filtering (some statuses)) operation rest >>= fun others =>
          pure (first :: others)).run narrow = _
      rw [StateT.run_bind, hnarrow]
      change (variants (setting.filtering (some statuses)) operation rest >>= fun others =>
          pure (first :: others)).run _ = _
      rw [StateT.run_bind, hother]
      rfl

/-- The output of an operation is that of its variants. -/
theorem outputType_eq (operation : Operation) (responses : List Response) :
    outputType setting operation responses =
      variants setting operation responses >>= fun ts => pure (outputOf ts) := by
  rw [outputType]
  congr
  funext ts
  cases ts with
  | nil => rfl
  | cons t rest => rfl

/-- With a filter, the output of an operation is declared with fewer variants. -/
theorem OperationSource.conclude_narrow (operation : Operation) (responses : List Response)
    {final : State} (h : Narrows statuses full narrow)
    (hrun : (conclude (setting.filtering none) operation responses).run full = .ok ((), final)) :
    ∃ other, (conclude (setting.filtering (some statuses)) operation responses).run narrow =
        .ok ((), other) ∧ Narrows statuses final other := by
  rw [conclude, outputType_eq, bind_assoc, StateT.run_bind] at hrun
  obtain ⟨⟨ts, middle⟩, hvariants, hrun⟩ := bind_eq_ok hrun
  cases hrun
  obtain ⟨other, hother, hrelated⟩ := variants_narrow setting operation h hvariants
  refine ⟨_, ?_, hrelated.output operation ts⟩
  rw [conclude, outputType_eq, bind_assoc, StateT.run_bind, hother]
  rfl

/-- With a filter, an operation is declared alike up to its output. -/
theorem OperationSource.compile_narrow (source : OperationSource) {final : State}
    (h : Narrows statuses full narrow)
    (hrun : (source.compile (setting.filtering none)).run full = .ok ((), final)) :
    ∃ other, (source.compile (setting.filtering (some statuses))).run narrow = .ok ((), other) ∧
      Narrows statuses final other := by
  rw [compile_eq, StateT.run_bind] at hrun
  obtain ⟨⟨prepared, middle⟩, hprepare, hconclude⟩ := bind_eq_ok hrun
  obtain ⟨change, hadds, hchange⟩ := prepare_oblivious _ source _ _ _ hprepare
  obtain rfl := Oblivious.final_eq hprepare hchange
  have hnarrow : (source.prepare (setting.filtering (some statuses))).run narrow =
      .ok (prepared, narrow.after change) := hchange narrow h.scratch_eq h.ids_eq
  have hadds : change.Adds fun entry => entry.parts ≠ [("Output" : Text)] :=
    ⟨hadds.proper, fun entry hentry => (hadds.entries entry hentry).2⟩
  obtain ⟨other, hother, hrelated⟩ := conclude_narrow setting prepared.1 prepared.2 (h.after hadds) hconclude
  refine ⟨other, ?_, hrelated⟩
  rw [compile_eq, StateT.run_bind, hnarrow]
  exact hother

/-- With a filter, several operations are declared alike up to their outputs. -/
theorem sources_narrow (operations : List OperationSource) {final : State}
    (h : Narrows statuses full narrow)
    (hrun : (forM operations (OperationSource.compile (setting.filtering none))).run full =
      .ok ((), final)) :
    ∃ other, (forM operations (OperationSource.compile (setting.filtering (some statuses)))).run narrow =
        .ok ((), other) ∧ Narrows statuses final other := by
  induction operations generalizing full narrow with
  | nil =>
    cases hrun
    exact ⟨narrow, rfl, h⟩
  | cons source rest ih =>
    rw [List.forM_cons, StateT.run_bind] at hrun
    obtain ⟨⟨⟨⟩, middle⟩, hsource, hrest⟩ := bind_eq_ok hrun
    obtain ⟨next, hnext, hrelated⟩ := source.compile_narrow setting h hsource
    obtain ⟨other, hother, hrelated⟩ := ih hrelated hrest
    refine ⟨other, ?_, hrelated⟩
    rw [List.forM_cons, StateT.run_bind, hnext]
    exact hother

/-- Discovering component schemas does not depend on a filter. -/
theorem discoverSchemas_filtering (filter : Option (List Int)) (names : List Value) :
    discoverSchemas (setting.filtering filter) names = discoverSchemas setting names := by
  fun_induction discoverSchemas setting names with
  | case1 => rfl
  | case2 name rest ref ih =>
    rw [discoverSchemas, ih]
    rfl
  | case3 name rest hother => rw [discoverSchemas]; exact hother

/-- With a filter, the same component schemas are discovered. -/
theorem discoverComponents_narrow {final : State} (h : Narrows statuses full narrow)
    (hrun : (discoverComponents (setting.filtering none)).run full = .ok ((), final)) :
    ∃ other, (discoverComponents (setting.filtering (some statuses))).run narrow = .ok ((), other) ∧
      Narrows statuses final other := by
  have hsame (filter : Option (List Int)) :
      discoverComponents (setting.filtering filter) = discoverComponents setting := by
    simp only [discoverComponents, discoverSchemas_filtering]
    rfl
  rw [hsame] at hrun ⊢
  obtain ⟨paths, hproper, hdiscover⟩ := (discoverComponents_oblivious setting).discovers
    (discoverComponents_emits setting) hrun
  cases hrun.symm.trans (hdiscover full rfl rfl)
  exact ⟨_, hdiscover narrow h.scratch_eq h.ids_eq, h.discover hproper (List.Subset.refl _)⟩

/-- With a filter, the walk over a document declares the same up to outputs and discovers less. -/
theorem walk_narrow (statuses : List Int) {final : State}
    (hrun : (walk (setting.filtering none)).run .initial = .ok ((), final)) :
    ∃ other, (walk (setting.filtering (some statuses))).run .initial = .ok ((), other) ∧
      Narrows statuses final other := by
  obtain ⟨members, middle, hpaths, hsources, hrun⟩ := (run_walk_eq_ok _).mp hrun
  obtain ⟨next, hnext, hrelated⟩ := sources_narrow setting (sources members) (.initial statuses) hsources
  have hrest : ∃ other, (if setting.options.unused then
      discoverComponents (setting.filtering (some statuses)) else pure ()).run next = .ok ((), other) ∧
        Narrows statuses final other := by
    change (if setting.options.unused then
      discoverComponents (setting.filtering none) else pure ()).run middle = _ at hrun
    split_ifs at hrun ⊢
    · exact discoverComponents_narrow setting hrelated hrun
    · cases hrun
      exact ⟨next, rfl, hrelated⟩
  obtain ⟨other, hother, hnarrows⟩ := hrest
  exact ⟨other, (run_walk_eq_ok _).mpr ⟨members, next, hpaths, hnext, hother⟩, hnarrows⟩

/-- The output of an operation is a union of variants, or anything. -/
theorem Produced.output_eq {entry : OperationEntry} (h : Produced setting entry)
    (hparts : entry.parts = [("Output" : Text)]) : ∃ ts, entry.declaration.type = outputOf ts := by
  cases h with
  | declared hne _ => exact absurd hparts hne
  | input _ => simp at hparts
  | output hrun =>
    rw [outputType_eq, StateT.run_bind] at hrun
    obtain ⟨⟨ts, middle⟩, -, hrun⟩ := bind_eq_ok hrun
    cases hrun
    exact ⟨ts, rfl⟩

/-- A filter keeps the operation and the parts of a declaration. -/
theorem OperationEntry.narrowed_path (statuses : List Int) (entry : OperationEntry) :
    entry.operation = (entry.narrowed statuses).operation ∧
      entry.parts = (entry.narrowed statuses).parts := by
  rw [narrowed]
  split_ifs <;> exact ⟨rfl, rfl⟩

/-- A filter keeps the qualified name of a declaration. -/
theorem OperationEntry.narrowed_qualified (naming : Naming) (base : Text) (statuses : List Int)
    (entry : OperationEntry) :
    (entry.narrowed statuses).qualified naming base = entry.qualified naming base := by
  rw [narrowed]
  split_ifs <;> rfl

variable {naming : Naming} {document base : Value} {unused : Bool} {tree : Namespace}

/-- With a filter, a document that compiles without one has the same declarations of operations up to
outputs, and fewer others. -/
theorem declared_narrow (statuses : List Int) (h : compile naming document base ⟨none, unused⟩ = .ok tree) :
    ∃ own resolved fewer,
      declared naming document base ⟨none, unused⟩ = .ok (own, resolved) ∧
      Namespace.assemble naming (own.map (wholePath base) ++ resolved) = .ok tree ∧
      declared naming document base ⟨some statuses, unused⟩ =
        .ok (own.map (OperationEntry.narrowed statuses), fewer) ∧
      fewer ⊆ resolved := by
  obtain ⟨own, resolved, hfull, hassemble⟩ := exists_declared_of_compile h
  obtain ⟨overlay, state, hoverlay, hwalk, hresolve, rfl⟩ := exists_walk_of_declared hfull
  obtain ⟨other, hother, hnarrows⟩ :=
    walk_narrow ⟨overlay, naming, base, ⟨none, unused⟩⟩ statuses hwalk
  obtain ⟨fewer, hfewer, hsubset⟩ :=
    hnarrows.toDiscoversLess.exists_declared hoverlay hother hresolve
  rw [hnarrows.entries_eq] at hfewer
  exact ⟨state.entries, resolved, fewer, hfull, hassemble, hfewer, hsubset⟩

/-- A document that compiles without a filter compiles with one. The declarations of its operations are the
same in the same order, except that outputs have only the variants whose status is a code of the filter, and
every schema declared along with them is declared alike without a filter. -/
theorem filter_narrows (statuses : List Int)
    (h : compile naming document base ⟨none, unused⟩ = .ok tree) :
    ∃ own resolved fewer,
      declared naming document base ⟨none, unused⟩ = .ok (own, resolved) ∧
      declared naming document base ⟨some statuses, unused⟩ =
        .ok (own.map (OperationEntry.narrowed statuses), fewer) ∧
      (∃ tree, compile naming document base ⟨some statuses, unused⟩ = .ok tree) ∧
      (∀ entry ∈ own, entry.parts = [("Output" : Text)] → ∃ variants, entry.declaration.type = outputOf variants) ∧
      fewer ⊆ resolved := by
  obtain ⟨own, resolved, fewer, hfull, -, hfewer, hsubset⟩ := declared_narrow statuses h
  refine ⟨own, resolved, fewer, hfull, hfewer, ?_, fun entry hentry hparts => ?_, hsubset⟩
  · refine exists_compile_of_declared h hfull hfewer (fun entry hentry => ?_) hsubset
    obtain ⟨e, he, rfl⟩ := List.mem_map.mp hentry
    exact ⟨e, he, e.narrowed_path statuses⟩
  · obtain ⟨overlay, hproduced⟩ := produced_of_declared hfull
    exact (hproduced entry hentry).output_eq _ hparts

/-- In the trees of a document with and without a filter, the first declaration of its operations with a
qualified name is found under this name. With the filter it is the same one, except that an output has only
the variants whose status is a code of the filter. -/
theorem filter_found {base : Text} {narrow : Namespace} (statuses : List Int)
    (h : compile naming document (.text base) ⟨none, unused⟩ = .ok tree)
    (hnarrow : compile naming document (.text base) ⟨some statuses, unused⟩ = .ok narrow) :
    ∃ own resolved, declared naming document (.text base) ⟨none, unused⟩ = .ok (own, resolved) ∧
      ∀ before entry after name, own = before ++ entry :: after → entry.declaration.name = .text name →
        (∀ earlier ∈ before, earlier.qualified naming base ≠ entry.qualified naming base) →
          tree.find? (entry.qualified naming base) = .ok (some entry.declaration) ∧
          narrow.find? (entry.qualified naming base) =
            .ok (some (entry.narrowed statuses).declaration) := by
  obtain ⟨own, resolved, fewer, hfull, hassemble, hfewer, -⟩ := declared_narrow statuses h
  refine ⟨own, resolved, hfull, ?_⟩
  rintro before entry after name rfl hname hfirst
  refine ⟨find?_qualified hfull hassemble hname hfirst, ?_⟩
  obtain ⟨own', resolved', hdeclared, hassemble'⟩ := exists_declared_of_compile hnarrow
  cases hfewer.symm.trans hdeclared
  rw [List.map_append, List.map_cons] at hfewer hassemble'
  have hkept : (entry.narrowed statuses).declaration.name = .text name := by
    rw [OperationEntry.narrowed]
    split_ifs <;> exact hname
  rw [← entry.narrowed_qualified naming base statuses]
  refine find?_qualified hfewer hassemble' hkept (List.forall_mem_map.mpr fun earlier hearlier => ?_)
  rw [OperationEntry.narrowed_qualified, OperationEntry.narrowed_qualified]
  exact hfirst earlier hearlier

/-- A document with three responses. One has a header whose schema is found elsewhere. -/
def statusDocument : Value :=
  .record [
    ("paths", .record [("/pets", .record [("get", .record [("responses", .record [
      ("200", .record [("content", .record [("application/json", .record [("schema", .bool true)])])]),
      ("404", .record [
        ("headers", .record [("x-reason", .record [
          ("schema", .record [("$ref", .text "#/components/schemas/Reason")])])]),
        ("content", .record [("application/json", .record [("schema", .bool true)])])]),
      ("default", .record [
        ("content", .record [("application/json", .record [("schema", .bool true)])])])])])])]),
    ("components", .record [("schemas", .record [("Reason", .record [("type", .text "string")])])])]

/-- A filter of one code applies to the document with three responses. -/
theorem filter_narrows_statusDocument :
    (∃ tree, compile .standard statusDocument (.text "API") ⟨none, false⟩ = .ok tree) ∧
    ∃ own resolved fewer,
      declared .standard statusDocument (.text "API") ⟨none, false⟩ = .ok (own, resolved) ∧
      declared .standard statusDocument (.text "API") ⟨some [200], false⟩ =
        .ok (own.map (OperationEntry.narrowed [200]), fewer) ∧
      (∃ tree, compile .standard statusDocument (.text "API") ⟨some [200], false⟩ = .ok tree) ∧
      (∀ entry ∈ own, entry.parts = [("Output" : Text)] → ∃ variants, entry.declaration.type = outputOf variants) ∧
      fewer ⊆ resolved := by
  obtain ⟨tree, h⟩ : ∃ tree, compile .standard statusDocument (.text "API") ⟨none, false⟩ = .ok tree :=
    exists_eq_ok (by decide +kernel)
  exact ⟨⟨tree, h⟩, filter_narrows [200] h⟩

end SchemaTypes.Api
