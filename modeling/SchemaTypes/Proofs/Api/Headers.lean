import SchemaTypes.Proofs.Api.Inputs
import SchemaTypes.Proofs.Name.Identifier
import SchemaTypes.Proofs.Schema.ObjectType

/-!
# The headers of a response

The headers of a response are typed by a schema that is made for them. It has one property for each header,
named in camel case, and a list of the names that are required; a pattern stands for all other headers. The
properties and the list go by the names alone. They tell the same as the headers do, as long as no two
headers have one name in camel case.
-/

namespace SchemaTypes

namespace Members

/-- A member with a new key is added at the end. -/
theorem insert_of_new {members : Members} {key : Scalar} (v : Value)
    (h : ∀ member ∈ members, key.same member.1 = false) : members.insert key v = members ++ [(key, v)] := by
  induction members with
  | nil => rfl
  | cons member rest ih =>
    obtain ⟨hmember, hrest⟩ := List.forall_mem_cons.mp h
    rw [insert, hmember, if_neg Bool.false_ne_true, ih hrest, List.cons_append]

/-- Members with new keys are added as they are. -/
theorem insertAll_of_new {members added : Members}
    (h : (members ++ added).Pairwise fun first second => second.1.same first.1 = false) :
    members.insertAll added = members ++ added := by
  induction added generalizing members with
  | nil => exact (List.append_nil members).symm
  | cons member rest ih =>
    have hnew : ∀ first ∈ members, member.1.same first.1 = false := fun first hfirst =>
      (List.pairwise_append.mp h).2.2 first hfirst member List.mem_cons_self
    rw [List.append_cons] at h ⊢
    rw [← ih h, ← insert_of_new member.2 hnew]
    rfl

end Members

/-- A text is among several ones. -/
theorem Value.contains_texts (names : List Text) (name : Text) :
    (Value.texts names).contains (.text name) = .ok (names.contains name) := by
  rw [Value.texts, Value.contains, List.any_map, List.contains_eq_any_beq]
  rfl

namespace Api

open Faulting

/-- Several items that have results have those that a function gives for them. -/
theorem eq_map_of_mapM {ε α β : Type} {f : α → Except ε β} {g : α → β} {items : List α} {results : List β}
    (hg : ∀ item result, f item = .ok result → g item = result) (h : items.mapM f = .ok results) :
    (∀ item ∈ items, f item = .ok (g item)) ∧ results = items.map g := by
  induction items generalizing results with
  | nil =>
    cases h
    exact ⟨List.forall_mem_nil _, rfl⟩
  | cons item rest ih =>
    rw [List.mapM_cons] at h
    obtain ⟨first, hfirst, h⟩ := bind_eq_ok h
    obtain ⟨others, hothers, h⟩ := bind_eq_ok h
    cases h
    obtain ⟨hrest, rfl⟩ := ih hothers
    obtain rfl := hg item first hfirst
    exact ⟨List.forall_mem_cons.mpr ⟨hfirst, hrest⟩, rfl⟩

namespace Header

/-- The name of the field of a header, which is a text. -/
def fieldName (header : Header) : Text := (headerName header.name).toOption.getD ""

/-- The property of a header. -/
def property (header : Header) : Scalar × Value := (.text header.fieldName, header.schema)

/-- Two headers whose names are different in camel case. -/
def Apart (first second : Header) : Prop :=
  ∀ s t, first.name = .text s → second.name = .text t → Name.camelCase s ≠ Name.camelCase t

/-- The field of a header: named in camel case, typed by its schema and required as the header is. -/
def HasField (scope : Scope) (header : Header) (field : Field TypeExpr) : Prop :=
  ∃ name alternatives, header.name = .text name ∧ Schema.StandsFor scope header.schema alternatives ∧
    field = ⟨.text (Name.camelCase name), .unionOf alternatives, header.required,
      Schema.isReadOnly header.schema⟩

/-- A header whose name is a text has its camel-case form as a field. -/
theorem fieldName_of_text {header : Header} {s : Text} (h : header.name = .text s) :
    header.fieldName = Name.camelCase s := by
  rw [fieldName, h]
  rfl

/-- Only a text names a field. -/
theorem exists_text_of_headerName {header : Header} {name : Text}
    (h : headerName header.name = .ok name) : ∃ s, header.name = .text s := by
  cases hname : header.name with
  | text s => exact ⟨s, rfl⟩
  | _ =>
    rw [hname] at h
    cases h

/-- A header has its own name as a field. -/
theorem fieldName_of_headerName {header : Header} {name : Text}
    (h : headerName header.name = .ok name) : header.fieldName = name := by
  rw [fieldName, h]
  rfl

/-- No field of a header is named like the pattern, which has characters that no name in camel case has. -/
theorem fieldName_ne_headerPattern {header : Header} {s : Text} (h : header.name = .text s) :
    header.fieldName ≠ headerPattern := by
  rw [fieldName_of_text h]
  intro hpattern
  have hall := Name.isAlphanum_camelCase s
  rw [hpattern] at hall
  have hslash := hall '/' (by decide)
  exact absurd hslash (by decide)

/-- The names of the fields that some headers require. -/
def requiredFields (headers : List Header) : List Text := (headers.filter (·.required)).map fieldName

/-- Where the fields of headers are apart, a name is required if its own header is. -/
theorem contains_requiredFields {headers : List Header} (hapart : (headers.map fieldName).Nodup)
    {header : Header} (hheader : header ∈ headers) :
    (requiredFields headers).contains header.fieldName = header.required := by
  rw [Bool.eq_iff_iff, List.contains_iff_mem]
  constructor
  · intro hmem
    obtain ⟨other, hother, hname⟩ := List.mem_map.mp hmem
    obtain ⟨hother, hrequired⟩ := List.mem_filter.mp hother
    rwa [← List.inj_on_of_nodup_map hapart hother hheader hname]
  · exact fun hrequired => List.mem_map_of_mem (List.mem_filter.mpr ⟨hheader, hrequired⟩)

end Header

/-- What all other headers may be: a text or a list of texts. -/
def otherHeaders : IndexSignature TypeExpr :=
  ⟨.union [.nonNull .string, .nonNull (.array (.nonNull .string))], false, false, "pattern"⟩

/-- The members of the schema of some headers. -/
def headersMembers (headers : List Header) : Members :=
  [(.text "type", .text "object"),
    (.text "required", .texts (Header.requiredFields headers)),
    (.text "properties", .object (Members.insertAll [] (headers.map Header.property))),
    (.text "patternProperties", .record [(headerPattern, headerValue)])]

/-- Headers with a schema are named by texts, and their schema has these members. -/
theorem eq_of_headersSchema {headers : List Header} {schema : Value} (h : headersSchema headers = .ok schema) :
    (∀ header ∈ headers, ∃ s, header.name = .text s) ∧ schema = .object (headersMembers headers) := by
  obtain ⟨required, hrequired, h⟩ := bind_eq_ok h
  obtain ⟨properties, hproperties, h⟩ := bind_eq_ok h
  cases h
  obtain ⟨-, rfl⟩ := eq_map_of_mapM (fun _ _ => Header.fieldName_of_headerName) hrequired
  obtain ⟨hnamed, rfl⟩ := eq_map_of_mapM (g := Header.property) (fun header property hproperty => by
    obtain ⟨name, hname, hproperty⟩ := bind_eq_ok hproperty
    cases hproperty
    rw [Header.property, Header.fieldName_of_headerName hname]) hproperties
  refine ⟨fun header hheader => ?_, rfl⟩
  obtain ⟨name, hname, -⟩ := bind_eq_ok (hnamed header hheader)
  exact Header.exists_text_of_headerName hname

/-- The names that are required are those listed. -/
theorem requiredNames_headersMembers (headers : List Header) :
    Schema.requiredNames (headersMembers headers) = .texts (Header.requiredFields headers) := by
  change (Value.texts (Header.requiredFields headers)).orElse (.list []) = _
  cases Header.requiredFields headers with
  | nil => rfl
  | cons name rest => rfl

/-- The types of the schema of some headers are built from its properties and its pattern. -/
theorem exists_fields_of_types {scope : Scope} {headers : List Header} {alternatives : List TypeExpr}
    {d d' : Discovery}
    (h : (Schema.types scope (.object (headersMembers headers))).run d = (.ok alternatives, d')) :
    ∃ fields sources, alternatives = [.nonNull (.object fields (some (Schema.indexOf sources false)))] ∧
      List.Forall₂ (Schema.HasField scope (.texts (Header.requiredFields headers)))
        (Members.insertAll [] (headers.map Header.property)) fields ∧
      List.Forall₂ (Schema.HasField scope (.texts (Header.requiredFields headers)))
        [(.text headerPattern, headerValue)] sources := by
  have hshape : Shape.ofMembers (headersMembers headers) = .ok .typed := rfl
  rw [Schema.types, hshape] at h
  dsimp only at h
  rw [Schema.fieldsUnder_eq, Schema.fieldsUnder_eq, requiredNames_headersMembers] at h
  change (Schema.typed scope (.text "object") _ _).run d = _ at h
  rw [Schema.typed_object] at h
  obtain ⟨type, middle, hobject, h⟩ := run_bind_ok h
  cases h
  obtain ⟨fields, second, hfields, h⟩ := run_bind_ok hobject
  obtain ⟨sources, third, hsources, h⟩ := run_bind_ok h
  cases h
  exact ⟨fields, sources, rfl, Schema.forall₂_hasField hfields, Schema.forall₂_hasField hsources⟩

/-- The pattern of a schema of headers gives the index signature. -/
theorem indexOf_headerPattern {scope : Scope} {names : List Text} (hnames : headerPattern ∉ names)
    {sources : List (Field TypeExpr)}
    (h : List.Forall₂ (Schema.HasField scope (.texts names)) [(.text headerPattern, headerValue)] sources) :
    Schema.indexOf sources false = otherHeaders := by
  obtain ⟨field, rest, hfield, hrest, rfl⟩ := List.forall₂_cons_left_iff.mp h
  cases hrest
  obtain ⟨alternatives, isRequired, htypes, hcontains, rfl⟩ := hfield
  have hvalue : ((Schema.types scope headerValue).run .empty).1 =
      .ok [.union [.nonNull .string, .nonNull (.array (.nonNull .string))]] := rfl
  cases (htypes .empty).symm.trans hvalue
  rw [Value.contains_texts] at hcontains
  have hnot : isRequired = false := by
    rw [← Except.ok.inj hcontains, Bool.eq_false_iff]
    exact fun hmem => hnames (List.contains_iff_mem.mp hmem)
  rw [hnot]
  rfl

/-- Headers whose names are apart in camel case have different names as fields. -/
theorem nodup_fieldName {headers : List Header} (hnamed : ∀ header ∈ headers, ∃ s, header.name = .text s)
    (hapart : headers.Pairwise Header.Apart) : (headers.map Header.fieldName).Nodup := by
  refine List.pairwise_map.mpr (hapart.imp_of_mem fun {first second} hfirst hsecond hne => ?_)
  obtain ⟨s, hs⟩ := hnamed first hfirst
  obtain ⟨t, ht⟩ := hnamed second hsecond
  rw [Header.fieldName_of_text hs, Header.fieldName_of_text ht]
  exact hne s t hs ht

/-- The properties of headers with different names are kept one by one. -/
theorem insertAll_property {headers : List Header} (h : (headers.map Header.fieldName).Nodup) :
    Members.insertAll [] (headers.map Header.property) = headers.map Header.property := by
  refine Members.insertAll_of_new (List.pairwise_map.mpr ?_)
  exact (List.pairwise_map.mp h).imp fun hne => decide_eq_false hne.symm

/-- Headers whose names are apart in camel case are typed by an object with one field for each of them, in
order, and the index signature for all others. -/
theorem exists_fields_of_headersSchema {scope : Scope} {headers : List Header} {schema : Value}
    {alternatives : List TypeExpr} {d d' : Discovery} (hapart : headers.Pairwise Header.Apart)
    (hschema : headersSchema headers = .ok schema)
    (h : (Schema.types scope schema).run d = (.ok alternatives, d')) :
    ∃ fields, alternatives = [.nonNull (.object fields (some otherHeaders))] ∧
      List.Forall₂ (Header.HasField scope) headers fields := by
  obtain ⟨hnamed, rfl⟩ := eq_of_headersSchema hschema
  have hnodup := nodup_fieldName hnamed hapart
  obtain ⟨fields, sources, rfl, hfields, hsources⟩ := exists_fields_of_types h
  have hpattern : headerPattern ∉ Header.requiredFields headers := by
    intro hmem
    obtain ⟨header, hheader, hname⟩ := List.mem_map.mp hmem
    obtain ⟨s, hs⟩ := hnamed header (List.mem_filter.mp hheader).1
    exact Header.fieldName_ne_headerPattern hs hname
  -- No property replaces another one, so there is one for each header.
  rw [insertAll_property hnodup, List.forall₂_map_left_iff] at hfields
  refine ⟨fields, by rw [indexOf_headerPattern hpattern hsources], ?_⟩
  have hown := (List.forall₂_and_left (p := (· ∈ headers)) headers fields).mpr ⟨fun _ => id, hfields⟩
  refine hown.imp fun header field hfield => ?_
  obtain ⟨hheader, alternatives, isRequired, htypes, hcontains, rfl⟩ := hfield
  obtain ⟨s, hs⟩ := hnamed header hheader
  rw [Header.property, Value.contains_texts, Header.contains_requiredFields hnodup hheader] at hcontains
  refine ⟨s, alternatives, hs, htypes, ?_⟩
  rw [Header.property, Header.fieldName_of_text hs, ← Except.ok.inj hcontains]

/-- The headers among some members that have a schema, with references followed. -/
def headersAmong (overlay : Value) (operation : Operation) (sources : Members) : List Header :=
  sources.filterMap fun source => Header.of? source.1 (resolved overlay operation source.2).1

variable (setting : Setting) (operation : Operation)

/-- Several headers are reached, and each is returned if it has a schema. -/
theorem resolveHeaders_follow (sources : Members) (state : State) :
    Ends state (sources.mapM fun source => do
      return Header.of? source.1 (← resolveChain setting operation.place source.2).1) fun found final =>
        (final = state ∧
          found.filterMap id = headersAmong (setting.overlay.value state.scratch) operation sources) ∧
        ∀ source ∈ sources, Follows (setting.overlay.value state.scratch) operation source.2 := by
  induction sources with
  | nil => exact Ends.pure ⟨⟨rfl, rfl⟩, List.forall_mem_nil _⟩
  | cons source rest ih =>
    rw [List.mapM_cons, bind_assoc]
    refine (resolveChain_follows setting operation source.2 state).bind ?_
    rintro reached _ ⟨⟨rfl, rfl⟩, hsource⟩
    rw [pure_bind]
    refine ih.bind ?_
    rintro found _ ⟨⟨rfl, hfound⟩, hrest⟩
    refine Ends.pure ⟨⟨rfl, ?_⟩, List.forall_mem_cons.mpr ⟨hsource, hrest⟩⟩
    rw [List.filterMap_cons, hfound, headersAmong, headersAmong, List.filterMap_cons]
    rfl

/-- The headers of a response are reached, and those that have a schema are returned. -/
theorem compileHeaders_follow (headers : Value) (state : State) :
    Ends state (compileHeaders setting operation headers) fun found final =>
      (final = state ∧
        found = headersAmong (setting.overlay.value state.scratch) operation (membersOrNone headers)) ∧
      ∀ source ∈ membersOrNone headers,
        Follows (setting.overlay.value state.scratch) operation source.2 := by
  cases headers with
  | scalar s => exact Ends.pure ⟨⟨rfl, rfl⟩, List.forall_mem_nil _⟩
  | list items => exact Ends.pure ⟨⟨rfl, rfl⟩, List.forall_mem_nil _⟩
  | object members =>
    exact (resolveHeaders_follow setting operation members state).bind fun _ _ hfound => Ends.pure hfound

end Api

end SchemaTypes
