import SchemaTypes.Proofs.Api.Declared
import SchemaTypes.Proofs.Schema.Session
import SchemaTypes.Proofs.Schema.WellFormed

/-!
# What is built is well-formed

Every call that builds gives well-formed types if the keys in its schema are texts, no two of them equal in
one object. They can be printed, with two exceptions. The digits of an integer may be too many. And a naming
may accept the name of the document although it is no text, and make no text of it; then a type that refers
to the document cannot be printed.

The declarations of an API document are built from schemas of all kinds, so nothing can be asked of the
names of their fields. All of them are well-formed otherwise, except that an output may be the union of a
single variant.
-/

namespace SchemaTypes

open Build TypeExpr

namespace Schema

variable {scope : Scope}

/-- A type refers to the document by an identifier that is no text. -/
def MisnamesDocument (scope : Scope) (t : TypeExpr) : Prop :=
  ∃ name identifier, scope.rootName = some name ∧ scope.naming.apply name = .ok identifier ∧
    identifier.isText = false ∧ [identifier] ∈ t.referenced

/-- The names of paths are made of texts, so a name that is not is that of the document. -/
theorem exists_of_names {paths : List (List Text)} {parts : List Value} (h : scope.Names paths parts)
    (htexts : parts.all Value.isText = false) :
    ∃ name identifier, scope.rootName = some name ∧ scope.naming.apply name = .ok identifier ∧
      identifier.isText = false ∧ parts = [identifier] := by
  cases h with
  | path _ => simp [Value.isText] at htexts
  | @root name parts hname hparts =>
    obtain ⟨identifier, hidentifier, hparts⟩ := Faulting.bind_eq_ok hparts
    cases hparts
    exact ⟨name, identifier, hname, hidentifier, by simpa using htexts, rfl⟩

/-- Types that mention the names of paths and of the document refer to something else than texts exactly if
they misname the document. -/
theorem misnamesDocument_iff {paths : List (List Text)} {t : TypeExpr}
    (h : ∀ names ∈ t.referenced, scope.Names paths names) :
    MisnamesDocument scope t ↔ ∃ names ∈ t.referenced, names.all Value.isText = false := by
  constructor
  · rintro ⟨name, identifier, -, -, htext, hmem⟩
    exact ⟨[identifier], hmem, by simpa using htext⟩
  · rintro ⟨names, hnames, htexts⟩
    obtain ⟨name, identifier, hname, hidentifier, htext, rfl⟩ := exists_of_names (h names hnames) htexts
    exact ⟨name, identifier, hname, hidentifier, htext, hnames⟩

/-- A well-formed type that mentions the names of paths and of the document is printed at every level unless
an integer in it has too many digits or it misnames the document. -/
theorem prints_iff {paths : List (List Text)} {t : TypeExpr} (hwell : WellFormed distinctTexts t)
    (hmentions : ∀ names ∈ t.referenced, scope.Names paths names) (level : Int) :
    ((∃ text, t.print? level = .ok text) ↔ ¬t.HoldsOverlong ∧ ¬MisnamesDocument scope t) ∧
      ∀ cause, t.print? level = .error cause →
        cause = .overlongInteger ∧ t.HoldsOverlong ∨ cause = .unprintableName ∧ MisnamesDocument scope t := by
  have htexts : (∀ names ∈ t.referenced, names.all Value.isText = true) ↔ ¬MisnamesDocument scope t := by
    rw [misnamesDocument_iff hmentions]
    simp only [not_exists, not_and, Bool.not_eq_false]
  constructor
  · rw [and_comm, ← htexts, ← printable_iff_of_wellFormed hwell, printable_iff, print?]
    cases t.obstacle? <;> simp
  · intro cause hcause
    have hobstacle : t.obstacle? = some cause := by
      rw [print?] at hcause
      cases h : t.obstacle? <;> rw [h] at hcause <;> cases hcause
      rfl
    rw [misnamesDocument_iff hmentions]
    exact cause_of_wellFormed hwell hobstacle

end Schema

namespace Resolution

open Schema

variable {scope : Scope}

/-- The value that a call is made with. -/
def BuildCall.argument : BuildCall → Value
  | register ref => ref
  | types schema => schema
  | objectType schema => schema
  | arrayType schema => schema
  | declare schema _ _ => schema

/-- The types that a call gives. -/
def Built.typeList : Built → List TypeExpr
  | target _ => []
  | types ts => ts
  | type t => [t]
  | declaration d => [d.type]

/-- The types that a call gives are well-formed if the keys in its schema are as asked. -/
theorem BuildCall.wellFormed {names : List Scalar → Bool} (hnil : names [] = true) (call : BuildCall)
    (hkeys : call.argument.keysMeet names = true) :
    Yields (call.run scope) fun result => ∀ t ∈ result.typeList, WellFormed names t := by
  have hparts (members : Members) : PartsWellFormed scope names members :=
    fun inner _ => types_wellFormed hnil inner
  cases call with
  | register ref =>
    exact Yields.bind (Yields.of_forall fun _ => trivial) fun _ _ => Yields.pure (List.forall_mem_nil _)
  | types schema => exact (types_wellFormed hnil schema hkeys).bind fun ts hts => Yields.pure hts
  | objectType schema =>
    cases schema with
    | scalar s => exact Yields.throw _ _
    | list items => exact Yields.throw _ _
    | object members =>
      have hfields (name : Text) := fieldsUnder_wellFormed hnil name (requiredNames members) hkeys
        (hparts members)
      exact (objectOf_markable members (hfields _) ((hfields _).mono fun _ hall => hall.2)).bind
        fun t ht => Yields.pure (List.forall_mem_singleton.mpr ht.1)
  | arrayType schema =>
    cases schema with
    | scalar s => exact Yields.throw _ _
    | list items => exact Yields.throw _ _
    | object members =>
      exact (arrayOf_markable members (itemTypes_wellFormed hkeys (hparts members))).bind
        fun t ht => Yields.pure (List.forall_mem_singleton.mpr ht.1)
  | declare schema name ambient =>
    refine Yields.bind (Yields.bind (types_wellFormed hnil schema hkeys) fun ts hts => ?_)
      fun d hd => Yields.pure (List.forall_mem_singleton.mpr hd)
    exact Yields.bind (Yields.of_forall fun _ => trivial) fun _ _ => Yields.pure (.unionOf hts)

/-- The types that a call gives mention the names of paths, or that of the document. -/
theorem BuildCall.mentions (call : BuildCall) :
    Yields (call.run scope) fun result => ∃ paths, Mentions scope paths result.typeList := by
  cases call with
  | register ref =>
    exact Yields.bind (Yields.of_forall fun _ => trivial) fun _ _ => Yields.pure ⟨[], .of_nil rfl⟩
  | types schema => exact (types_mentions scope schema).bind fun ts hts => Yields.pure ⟨_, hts⟩
  | objectType schema =>
    cases schema with
    | scalar s => exact Yields.throw _ _
    | list items => exact Yields.throw _ _
    | object members =>
      have hfields (name : Text) := fieldsUnder_mentions scope name (requiredNames members) members
        fun inner _ => types_mentions scope inner
      exact (objectOf_mentions members (hfields _) (hfields _)).bind fun t ht => Yields.pure ⟨_, ht⟩
  | arrayType schema =>
    cases schema with
    | scalar s => exact Yields.throw _ _
    | list items => exact Yields.throw _ _
    | object members =>
      have hitems := itemTypes_mentions scope members fun inner _ => types_mentions scope inner
      exact (arrayOf_mentions members hitems).bind fun t ht => Yields.pure ⟨_, ht⟩
  | declare schema name ambient =>
    exact (declare_mentions scope schema name ambient).bind fun d hd => Yields.pure ⟨_, hd⟩

end Resolution

namespace Api

open Faulting Resolution

/-- Nothing is asked of the names of fields. -/
def anyNames (_ : List Scalar) : Bool := true

/-- The types of a schema are well-formed, whatever names their fields have. -/
theorem build_types_wellFormed (scope : Scope) (schema : Value) (state : State) :
    Ends state (build (Schema.types scope schema)) fun ts _ => ∀ t ∈ ts, WellFormed anyNames t := by
  refine (Ends.build _).weaken ?_
  rintro ts final ⟨d, hrun, -⟩
  exact Schema.types_wellFormed rfl schema (Value.keysMeet_of_forall (fun _ => rfl) schema) _ _ _ hrun

/-- The type of a declaration built from a schema is well-formed. -/
theorem declare_wellFormed {scope : Scope} {schema name : Value} {ambient : Bool} {d d' : Discovery}
    {declaration : Declaration}
    (hrun : (Schema.declare scope schema name ambient).run d = (.ok declaration, d')) :
    WellFormed anyNames declaration.type := by
  obtain ⟨ts, middle, htypes, hrest⟩ := run_bind_ok hrun
  obtain ⟨identifier, last, -, hpure⟩ := run_bind_ok hrest
  cases hpure
  exact .unionOf
    (Schema.types_wellFormed rfl schema (Value.keysMeet_of_forall (fun _ => rfl) schema) _ _ _ htypes)

variable {setting : Setting} {operation : Operation}

/-- A reference to a declaration of an operation is well-formed. -/
theorem reference_wellFormed {parts : List Text} {t : TypeExpr}
    (h : (setting.scope operation).reference (setting.segments operation parts) = .ok t) :
    WellFormed anyNames t :=
  Schema.reference_wellFormed (List.cons_ne_nil _ _) h

/-- The record of the inputs of an operation is well-formed. -/
theorem inputType_wellFormed {inputs : List Input} {t : TypeExpr}
    (h : inputType setting operation inputs = .ok t) : WellFormed anyNames t := by
  obtain ⟨fields, hfields, hrecord⟩ := bind_eq_ok h
  cases hrecord
  clear h
  refine .object rfl ?_ fun _ hnone => by cases hnone
  induction inputs generalizing fields with
  | nil =>
    cases hfields
    exact List.forall_mem_nil _
  | cons input rest ih =>
    rw [List.mapM_cons] at hfields
    obtain ⟨field, hfield, hfields⟩ := bind_eq_ok hfields
    obtain ⟨others, hothers, hfields⟩ := bind_eq_ok hfields
    obtain ⟨type, htype, hfield⟩ := bind_eq_ok hfield
    cases hfields
    cases hfield
    exact List.forall_mem_cons.mpr ⟨reference_wellFormed htype, ih others hothers⟩

/-- The variant of a response is well-formed. -/
theorem variant_wellFormed (response : Response) (state : State) :
    Ends state (variant setting operation response) fun t _ => WellFormed anyNames t := by
  refine (Ends.lift _).bind fun statusSchema first _ => (Ends.lift _).bind fun headersSchema second _ => ?_
  refine (build_types_wellFormed _ statusSchema second).bind fun status third hstatus => ?_
  refine (build_types_wellFormed _ headersSchema third).bind fun headers fourth hheaders => ?_
  refine (Ends.lift _).bind fun body fifth hbody => Ends.pure ?_
  refine .object rfl ?_ fun _ hnone => by cases hnone
  simp only [List.forall_mem_cons]
  exact ⟨.unionOf hstatus, .unionOf hheaders, reference_wellFormed hbody.2, List.forall_mem_nil _⟩

/-- The variants of responses are well-formed. -/
theorem variants_wellFormed (responses : List Response) (state : State) :
    Ends state (variants setting operation responses) fun ts _ => ∀ t ∈ ts, WellFormed anyNames t := by
  induction responses generalizing state with
  | nil => exact Ends.pure (List.forall_mem_nil _)
  | cons response rest ih =>
    refine (Ends.lift _).bind fun included first _ => ?_
    split_ifs
    · refine (variant_wellFormed response first).bind fun t second ht => ?_
      exact (ih second).bind fun ts third hts => Ends.pure (List.forall_mem_cons.mpr ⟨ht, hts⟩)
    · exact ih first

/-- A type that is well-formed, or the union of well-formed types, no matter how many. -/
def NearlyWellFormed (t : TypeExpr) : Prop :=
  WellFormed anyNames t ∨ ∃ members, t = .union members ∧ ∀ member ∈ members, WellFormed anyNames member

/-- The output of an operation is well-formed but for the number of its variants. -/
theorem outputType_nearlyWellFormed (responses : List Response) (state : State) :
    Ends state (outputType setting operation responses) fun t _ => NearlyWellFormed t := by
  refine (variants_wellFormed responses state).bind fun ts final hts => ?_
  cases ts with
  | nil => exact Ends.pure (Or.inl (.keyword (by decide)))
  | cons t rest => exact Ends.pure (Or.inr ⟨_, rfl, hts⟩)

/-- A declaration of the walk is well-formed, unless it is an output with a single variant. -/
theorem Produced.wellFormed {entry : OperationEntry} (h : Produced setting entry) :
    WellFormed anyNames entry.declaration.type ∨
      entry.parts = [("Output" : Text)] ∧ NearlyWellFormed entry.declaration.type := by
  cases h with
  | declared _ hrun => exact Or.inl (declare_wellFormed hrun)
  | input htype => exact Or.inl (inputType_wellFormed htype)
  | output hrun => exact Or.inr ⟨rfl, outputType_nearlyWellFormed _ _ _ _ hrun⟩

/-- A union of fewer than two types does not occur in a well-formed type. -/
theorem not_occurs_of_wellFormed {members : List TypeExpr} (hfew : members.length < 2) {t : TypeExpr}
    (h : WellFormed anyNames t) : ¬Occurs (.union members) t :=
  fun hoccurs => Nat.not_le.mpr hfew (h _ hoccurs)

/-- A union of fewer than two types occurs in a nearly well-formed type at its top alone. -/
theorem eq_union_of_occurs {members : List TypeExpr} (hfew : members.length < 2) {t : TypeExpr}
    (h : NearlyWellFormed t) (hoccurs : Occurs (.union members) t) : t = .union members := by
  rcases h with h | ⟨variants, rfl, hvariants⟩
  · exact absurd hoccurs (not_occurs_of_wellFormed hfew h)
  · cases hoccurs with
    | self => rfl
    | inside hpart hinside => exact absurd hinside (not_occurs_of_wellFormed hfew (hvariants _ hpart))

/-- In the declarations of an API document, a union of fewer than two types stands only at the top of the
output of an operation. -/
theorem output_of_occurs {naming : Naming} {document base : Value} {options : Options}
    {own : List OperationEntry} {resolved : List Entry} {tree : Namespace}
    (hdeclared : declared naming document base options = .ok (own, resolved))
    (htree : Namespace.assemble naming (own.map (wholePath base) ++ resolved) = .ok tree)
    {entry : List Value × Declaration} (hentry : entry ∈ tree.entries) {members : List TypeExpr}
    (hfew : members.length < 2) (hoccurs : Occurs (.union members) entry.2.type) :
    entry.2.type = .union members ∧
      ∃ output ∈ own, output.parts = [("Output" : Text)] ∧ output.declaration = entry.2 := by
  obtain ⟨overlay, change, results, -, -, hadds, hresolves, rfl, rfl⟩ := declared_ok hdeclared
  obtain ⟨e, he, heq⟩ := Namespace.mem_entries_assemble htree hentry
  rw [heq] at hoccurs ⊢
  rcases List.mem_append.mp he with he | he
  · obtain ⟨output, houtput, rfl⟩ := List.mem_map.mp he
    rcases (hadds.entries output houtput).wellFormed with hwell | ⟨hparts, hnearly⟩
    · exact absurd hoccurs (not_occurs_of_wellFormed hfew hwell)
    · exact ⟨eq_union_of_occurs hfew hnearly hoccurs, output, houtput, hparts, rfl⟩
  · obtain ⟨result, hresult, rfl⟩ := List.mem_map.mp he
    obtain ⟨schema, hdeclares⟩ := hresolves.declares result hresult
    exact absurd hoccurs (not_occurs_of_wellFormed hfew (declare_wellFormed hdeclares.built))

/-- Everything built from a schema whose keys are texts, no two of them equal in one object, is well-formed at
every depth. It is printed at every level, unless an integer in it has too many digits or the document, whose
name is no text and is made no text, is referred to; the cause of a failure is one of the two. In the
declarations of an API document, a union of fewer than two types stands only at the top of an output. -/
theorem built_wellFormed :
    (∀ (scope : Scope) (call : BuildCall) (d d' : Discovery) (result : Built),
      call.argument.keysMeet distinctTexts = true → (call.run scope).run d = (.ok result, d') →
        (∀ t ∈ result.typeList, WellFormed distinctTexts t) ∧
          ∀ t ∈ unionOf result.typeList :: result.typeList, ∀ level,
            ((∃ text, t.print? level = .ok text) ↔ ¬t.HoldsOverlong ∧ ¬Schema.MisnamesDocument scope t) ∧
              ∀ cause, t.print? level = .error cause →
                cause = .overlongInteger ∧ t.HoldsOverlong ∨
                  cause = .unprintableName ∧ Schema.MisnamesDocument scope t) ∧
      ∀ (naming : Naming) (document base : Value) (options : Options) (tree : Namespace),
        compile naming document base options = .ok tree →
          ∃ own resolved, declared naming document base options = .ok (own, resolved) ∧
            ∀ entry ∈ tree.entries, ∀ members, Occurs (.union members) entry.2.type →
              members.length < 2 → entry.2.type = .union members ∧
                ∃ output ∈ own, output.parts = [("Output" : Text)] ∧ output.declaration = entry.2 := by
  constructor
  · intro scope call d d' result hkeys hrun
    have hwell := call.wellFormed rfl hkeys d result d' hrun
    obtain ⟨paths, hmentions⟩ := call.mentions d result d' hrun
    have hall := hmentions.union.cons hmentions
    refine ⟨hwell, fun t ht level => ?_⟩
    exact Schema.prints_iff (List.forall_mem_cons.mpr ⟨.unionOf hwell, hwell⟩ t ht)
      (fun names hnames => hall names (List.mem_flatMap.mpr ⟨t, ht, hnames⟩)) level
  · intro naming document base options tree h
    obtain ⟨own, resolved, hdeclared, hassemble⟩ := exists_declared_of_compile h
    refine ⟨own, resolved, hdeclared, fun entry hentry members hoccurs hfew => ?_⟩
    exact output_of_occurs hdeclared hassemble hentry hfew hoccurs

/-- A schema with a choice of one branch, an enumeration of null alone and an object type of two fields. -/
def collapsingSchema : Value :=
  .record [("type", .texts ["object", "null"]), ("properties", .record [
    ("only", .record [("oneOf", .list [.record [("type", .text "string")]])]),
    ("nothing", .record [("enum", .list [.null])])])]

/-- The types of a schema whose choices collapse can be printed, and so can those of an operation that has a
single response. -/
theorem built_wellFormed_collapsing :
    (∃ result d, collapsingSchema.keysMeet distinctTexts = true ∧
      ((BuildCall.types collapsingSchema).run ⟨.standard, none, none⟩).run .empty = (.ok result, d) ∧
        (∀ t ∈ result.typeList, WellFormed distinctTexts t) ∧
          ∀ t ∈ unionOf result.typeList :: result.typeList, ∀ level,
            (∃ text, t.print? level = .ok text) ∧ ¬t.HoldsOverlong) ∧
      ∃ tree own resolved, compile .standard petDocument (.text "API") .default = .ok tree ∧
        declared .standard petDocument (.text "API") .default = .ok (own, resolved) ∧
          ∀ entry ∈ tree.entries, ∀ members, Occurs (.union members) entry.2.type →
            members.length < 2 → entry.2.type = .union members ∧
              ∃ output ∈ own, output.parts = [("Output" : Text)] ∧ output.declaration = entry.2 := by
  constructor
  · have hkeys : collapsingSchema.keysMeet distinctTexts = true := by decide +kernel
    obtain ⟨result, d, hrun⟩ : ∃ result d, ((BuildCall.types collapsingSchema).run
        ⟨.standard, none, none⟩).run .empty = (.ok result, d) := exists_run_eq_ok (by decide +kernel)
    have hprintable : (((BuildCall.types collapsingSchema).run ⟨.standard, none, none⟩).run
        .empty).1.toOption.all (fun built =>
          (unionOf built.typeList :: built.typeList).all printable) = true := by decide +kernel
    rw [hrun] at hprintable
    obtain ⟨hwell, hprints⟩ := built_wellFormed.1 _ (.types collapsingSchema) _ _ _ hkeys hrun
    refine ⟨result, d, hkeys, hrun, hwell, fun t ht level => ?_⟩
    have htext := print?_of_printable (List.all_eq_true.mp hprintable t ht) level
    exact ⟨⟨_, htext⟩, ((hprints t ht level).1.mp ⟨_, htext⟩).1⟩
  · obtain ⟨tree, hcompile⟩ :
        ∃ tree, compile .standard petDocument (.text "API") .default = .ok tree :=
      exists_eq_ok (by decide +kernel)
    obtain ⟨own, resolved, hdeclared, hunions⟩ := built_wellFormed.2 _ _ _ _ _ hcompile
    exact ⟨tree, own, resolved, hcompile, hdeclared, hunions⟩

/-- A type among those that a call gives is kept from being printed. -/
theorem exists_unprinted {scope : Scope} {call : BuildCall} {cause : Malformed}
    (h : ((call.run scope).run .empty).1.toOption.any (fun built =>
      built.typeList.any fun t => t.obstacle? = some cause) = true) :
    ∃ result d, (call.run scope).run .empty = (.ok result, d) ∧
      ∃ t ∈ result.typeList, t.print? 0 = .error cause := by
  rcases hrun : (call.run scope).run .empty with ⟨fault | result, d⟩
  · rw [hrun] at h
    cases h
  · rw [hrun] at h
    obtain ⟨t, ht, hobstacle⟩ := List.any_eq_true.mp h
    exact ⟨result, d, rfl, t, ht, print?_of_obstacle? (of_decide_eq_true hobstacle) 0⟩

/-- A document that has a number as its title and refers to itself. -/
def numberedDocument : Value := .record [("title", .int 5), ("$ref", .text "#")]

/-- A schema of the least integer with too many digits. -/
def overlongSchema : Value := .record [("const", .int (Nat.pow 10 Scalar.digitLimit))]

/-- Where names that are no texts are kept, a document may be referred to by a number, and its declaration is
built but cannot be printed. Nor can the type of an integer with too many digits. -/
theorem kept_number_unprintable :
    (numberedDocument.keysMeet distinctTexts = true ∧
      ∃ result d, ((BuildCall.declare numberedDocument .null true).run
          (Schema.rootScope ⟨id, .ok⟩ numberedDocument .null)).run .empty = (.ok result, d) ∧
        ∃ t ∈ result.typeList, t.print? 0 = .error .unprintableName) ∧
      overlongSchema.keysMeet distinctTexts = true ∧
        ∃ result d, ((BuildCall.types overlongSchema).run ⟨.standard, none, none⟩).run .empty = (.ok result, d) ∧
          ∃ t ∈ result.typeList, t.print? 0 = .error .overlongInteger :=
  ⟨⟨by decide +kernel, exists_unprinted (by decide +kernel)⟩,
    by decide +kernel, exists_unprinted (by decide +kernel)⟩

end Api

end SchemaTypes
