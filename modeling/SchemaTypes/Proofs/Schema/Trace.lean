import SchemaTypes.Proofs.Schema.Discovery
import SchemaTypes.Proofs.Schema.Supported

/-!
# The trace of building

Building the types of a schema goes through it in a fixed order: properties before pattern properties, items
and branches one after the other, and all of this once for each tag. On the way it visits references, and at
some point it may stop with a fault. `events` lists what there is to meet by a traversal of its own, which knows
neither a state nor results and does not stop. What building does is read off this list: it meets everything
before the first stop.

So whether building returns or fails, it leaves behind the state that it started in with the references visited
before the first stop added at the end, each under its canonical spelling and where it first occurs, unless it
was known. It returns if there is no stop.
-/

namespace SchemaTypes

/-- What building meets: a reference that it visits, or something that it stops at with a fault. -/
inductive Event where
  | visit (ref : Text)
  | stop
deriving DecidableEq

namespace Event

/-- A stop, unless a condition holds. -/
def stopUnless (condition : Bool) : List Event := if condition then [] else [stop]

/-- The references visited before the first stop. -/
def visited : List Event → List Text
  | [] => []
  | visit ref :: rest => ref :: visited rest
  | stop :: _ => []

/-- Nothing is visited after a stop. -/
theorem visited_append (first second : List Event) :
    visited (first ++ second) = visited first ++ if stop ∈ first then [] else visited second := by
  induction first with
  | nil => rfl
  | cons event rest ih =>
    cases event with
    | visit ref => simp [visited, ih]
    | stop => simp [visited]

/-- There is no reference among stops. -/
theorem visited_stopUnless (condition : Bool) : visited (stopUnless condition) = [] := by
  cases condition <;> rfl

/-- There is no stop if the condition holds. -/
theorem stop_not_mem_stopUnless {condition : Bool} : stop ∉ stopUnless condition ↔ condition = true := by
  cases condition <;> simp [stopUnless]

end Event

/-- Whether an identifier can be made from the name of the root declaration. -/
def Scope.namesRoot (scope : Scope) : Bool :=
  scope.rootName.any fun name => (scope.naming.apply name).isOk

namespace Discovery

/-- The canonical spelling of a reference. -/
def keyOf (ref : Text) : Text := Pointer.join (Pointer.split ref)

/-- The canonical spellings of some references that are not known yet, each where it first occurs. -/
def newKeys (d : Discovery) (refs : List Text) : List Text := ((refs.map keyOf).removeAll d.keys).eraseDups

/-- A state with new spellings at its end. -/
def extend (d : Discovery) (keys : List Text) : Discovery :=
  ⟨d.found ++ keys.map fun key => (key, Pointer.split key), d.pending ++ keys⟩

/-- One more reference is new unless it is known or occurred before. -/
theorem newKeys_concat (d : Discovery) (refs : List Text) (ref : Text) :
    d.newKeys (refs ++ [ref]) =
      if keyOf ref ∈ d.keys ++ d.newKeys refs then d.newKeys refs else d.newKeys refs ++ [keyOf ref] := by
  have hremove : ((refs ++ [ref]).map keyOf).removeAll d.keys =
      (refs.map keyOf).removeAll d.keys ++ if keyOf ref ∈ d.keys then [] else [keyOf ref] := by
    by_cases hknown : keyOf ref ∈ d.keys <;> simp [List.removeAll, hknown]
  have hmem : keyOf ref ∈ d.keys ++ d.newKeys refs ↔
      keyOf ref ∈ d.keys ∨ keyOf ref ∈ (refs.map keyOf).removeAll d.keys := by
    rw [List.mem_append, newKeys, List.mem_eraseDups]
  rw [newKeys, hremove, if_congr hmem rfl rfl]
  by_cases hknown : keyOf ref ∈ d.keys
  · rw [if_pos hknown, if_pos (Or.inl hknown), List.append_nil, newKeys]
  · rw [if_neg hknown, BreadthFirst.eraseDups_concat]
    simp only [hknown, false_or, newKeys]

/-- The spellings known in an extended state. -/
theorem keys_extend (d : Discovery) (keys : List Text) : (d.extend keys).keys = d.keys ++ keys := by
  simp [Discovery.keys, extend, Function.comp_def]

/-- Remembering references extends a state by those that are new. -/
theorem addAll_eq_extend (d : Discovery) (refs : List Text) :
    d.addAll (refs.map Pointer.split) = d.extend (d.newKeys refs) := by
  induction refs using List.reverseRecOn with
  | nil => simp [extend, newKeys, List.removeAll]
  | append_singleton refs ref ih =>
    rw [List.map_append, addAll_append, ih, newKeys_concat]
    change (d.extend (d.newKeys refs)).add (Pointer.split ref) = _
    rw [add_eq, keys_extend, ← keyOf]
    split_ifs with hknown
    · rfl
    · have hsplit : Pointer.split (keyOf ref) = Pointer.split ref :=
        Pointer.split_join_of_not_mem (Pointer.empty_not_mem_split ref)
      simp [extend, hsplit]

end Discovery

namespace Build

open Event Faulting

variable {α β : Type}

/-- An action that meets the given events: it visits the references before the first stop, and succeeds if there
is none. -/
structure Traces (action : Build α) (events : List Event) : Prop where
  discovery_eq : ∀ d, (action.run d).2 = d.addAll ((visited events).map Pointer.split)
  exists_ok_iff : ∀ d, (∃ a, (action.run d).1 = .ok a) ↔ stop ∉ events

namespace Traces

/-- A finished action meets nothing. -/
theorem pure (a : α) : Traces (Pure.pure a) [] :=
  ⟨fun _ => rfl, fun _ => iff_of_true ⟨a, rfl⟩ List.not_mem_nil⟩

/-- A fault is a stop. -/
theorem throw (fault : Fault) : Traces (MonadExcept.throw fault : Build α) [stop] := by
  refine ⟨fun _ => rfl, fun d => iff_of_false ?_ (by simp)⟩
  rintro ⟨a, ha⟩
  cases ha

/-- A result from elsewhere is a stop unless it is a value. -/
theorem lift {result : Except Fault α} {condition : Bool}
    (h : (∃ a, result = .ok a) ↔ condition = true) :
    Traces (liftM result : Build α) (stopUnless condition) := by
  refine ⟨fun d => ?_, fun d => ?_⟩
  · rw [run_lift, visited_stopUnless]
    rfl
  · rw [run_lift, stop_not_mem_stopUnless]
    exact h

/-- An action that remembers the path of a reference visits it. -/
theorem visit {action : Build α} {ref : Text} (result : α)
    (h : ∀ d, action.run d = (.ok result, d.add (Pointer.split ref))) : Traces action [.visit ref] := by
  refine ⟨fun d => ?_, fun d => iff_of_true ⟨result, ?_⟩ (by simp)⟩
  · rw [h]
    rfl
  · rw [h]

/-- A sequence meets what its first action meets and then what its second one does. -/
theorem bind {first : Build α} {second : α → Build β} {before after : List Event}
    (hfirst : Traces first before) (hsecond : ∀ a, Traces (second a) after) :
    Traces (first >>= second) (before ++ after) := by
  have hrun (d : Discovery) : ((first >>= second).run d).2 =
      d.addAll ((visited (before ++ after)).map Pointer.split) ∧
        ((∃ b, ((first >>= second).run d).1 = .ok b) ↔ stop ∉ before ++ after) := by
    have hdiscovery := hfirst.discovery_eq d
    have hok := hfirst.exists_ok_iff d
    rw [run_bind, visited_append, List.mem_append, not_or]
    rcases hresult : first.run d with ⟨result, middle⟩
    rw [hresult] at hdiscovery hok
    cases result with
    | error fault =>
      have hstop : stop ∈ before := by
        by_contra hnone
        obtain ⟨a, ha⟩ := hok.mpr hnone
        cases ha
      rw [if_pos hstop, List.append_nil]
      refine ⟨hdiscovery, iff_of_false ?_ fun h => h.1 hstop⟩
      rintro ⟨b, hb⟩
      cases hb
    | ok a =>
      have hnone : stop ∉ before := hok.mp ⟨a, rfl⟩
      rw [if_neg hnone, List.map_append, Discovery.addAll_append, ← hdiscovery]
      dsimp only
      refine ⟨(hsecond a).discovery_eq middle, ((hsecond a).exists_ok_iff middle).trans ?_⟩
      exact (and_iff_right hnone).symm
  exact ⟨fun d => (hrun d).1, fun d => (hrun d).2⟩

/-- Finishing with a value made from the result meets nothing more. -/
theorem map {action : Build α} {events : List Event} (h : Traces action events) (f : α → β) :
    Traces (action >>= fun a => Pure.pure (f a)) events := by
  simpa only [List.append_nil] using h.bind fun a => Traces.pure (f a)

end Traces

end Build

namespace Schema

open Build Event Faulting

/-- Whether a value can hold schemas by name: an object, or one that counts as absent. -/
def holdsSchemas : Value → Bool
  | .object _ => true
  | other => !other.isPresent

/-- Whether a value can tell if it requires a name: every one but a number or boolean that is present, and a
text if the name is none. -/
def tells (required : Value) (name : Scalar) : Bool :=
  match required with
  | .scalar s => !s.isPresent || (required.isText && (Value.scalar name).isText)
  | _ => true

/-- Whether a value can hold the branches of a combinator. -/
def holdsBranches : Value → Bool
  | .list _ => true
  | _ => false

/-- Whether a value is a list of scalars. -/
def isEnumeration : Value → Bool
  | .list items => items.all isScalar
  | _ => false

/-- What is met at a reference. One to the document itself is not visited, but the document needs a name. -/
def referenceEvents (scope : Scope) : Value → List Event
  | .scalar (.text ref) =>
    if Pointer.isLocal ref then
      if Pointer.split ref = [] then stopUnless scope.namesRoot else [visit ref]
    else [stop]
  | _ => [stop]

/-- What is met for a tag, given what is met in objects and in arrays. -/
def tagEvents (object array : List Event) (tag : Value) : List Event :=
  if isTag "object" tag then object
  else if isTag "array" tag then array
  else stopUnless (typeWords.any fun word => isTag word tag)

/-- What there is to meet in a schema, in order, beyond any stop. -/
def events (scope : Scope) : Value → List Event
  | .scalar (.bool _) => []
  | .object members =>
    match Shape.ofMembers members with
    | .ok .reference => referenceEvents scope (Members.fieldOrNull "$ref" members)
    | .ok .const => stopUnless (isScalar (Members.fieldOrNull "const" members))
    | .ok .enum => stopUnless (isEnumeration (Members.fieldOrNull "enum" members))
    | .ok .typed =>
      let object := [("properties" : Text), "patternProperties"].flatMap fun name =>
        stopUnless (holdsSchemas (Members.fieldOrNull name members)) ++
          (namedSchemas name members).attach.flatMap fun property =>
            events scope property.val.2 ++
              stopUnless (tells (Members.fieldOrNull "required" members) property.val.1)
      let array :=
        if unsatisfiable members then []
        else (itemSchemas members).attach.flatMap fun item => events scope item.val
      (tags (Members.fieldOrNull "type" members)).flatMap (tagEvents object array)
    | .ok (.combined c) =>
      stopUnless (holdsBranches (Members.fieldOrNull c.keyword members)) ++
        (branchSchemas c members).attach.flatMap fun branch => events scope branch.val
    | _ => [stop]
  | .scalar _ => [stop]
  | .list _ => [stop]
termination_by schema => sizeOf schema
decreasing_by
  · exact sizeOf_namedSchemas_lt property.property
  · exact sizeOf_itemSchemas_lt item.property
  · exact sizeOf_branchSchemas_lt branch.property

/-- The document itself can be referred to if an identifier can be made from its name. -/
theorem exists_reference_iff (scope : Scope) (name : Value) :
    (∃ type, scope.reference [name] = .ok type) ↔ (scope.naming.apply name).isOk = true := by
  rw [Scope.reference, Naming.applyAll]
  cases scope.naming.apply name with
  | error cause => exact iff_of_false (by rintro ⟨type, ⟨⟩⟩) Bool.false_ne_true
  | ok identifier => exact iff_of_true ⟨_, rfl⟩ rfl

/-- A reference is visited and named, or it is refused. -/
theorem reference_traces (scope : Scope) (ref : Value) :
    Traces (do
      let target ← scope.register ref
      return [← scope.reference target.segments]) (referenceEvents scope ref) := by
  have hrefused {fault : Fault} (h : scope.target ref = .error fault) : Traces (do
      let target ← scope.register ref
      return [← scope.reference target.segments]) [stop] := by
    rw [Scope.register, h]
    exact Traces.throw fault
  rcases ref with s | items | members
  · cases s with
    | text ref =>
      rw [referenceEvents]
      split_ifs with hlocal hroot
      · have htarget : scope.target (.text ref) = scope.rootTarget (.text ref) := by
          simp only [Scope.target, hlocal, hroot, if_true]
        rw [Scope.namesRoot]
        cases hname : scope.rootName with
        | none => exact hrefused (htarget.trans (by rw [Scope.rootTarget, hname]))
        | some name =>
          have hregister : scope.register (.text ref) = pure (.root name) := by
            rw [Scope.register, htarget, Scope.rootTarget, hname]
            rfl
          rw [hregister, pure_bind]
          exact (Traces.lift (exists_reference_iff scope name)).map _
      · have htarget : scope.target (.text ref) = .ok (.path (Pointer.split ref)) := by
          simp only [Scope.target, hlocal, if_true]
        have hnames := scope.naming.applyAll_texts (Pointer.split ref)
        refine Traces.visit [.reference (((Pointer.split ref).map scope.naming.ofText).map .text)] fun d => ?_
        rw [Scope.register, htarget, run_bind]
        change (liftM (scope.reference ((Pointer.split ref).map .text)) >>= fun type => pure [type] :
          Build (List TypeExpr)).run _ = _
        rw [Scope.reference, hnames]
        rfl
      · have htarget : scope.target (.text ref) =
            .error (scope.refused (.text ref) "external references are not supported") := by
          simp only [Scope.target, if_neg hlocal]
        exact hrefused htarget
    | _ => exact hrefused rfl
  · exact hrefused rfl
  · exact hrefused rfl

/-- The type of a tag other than `null` meets what objects or arrays do, or it stops at an unknown word. -/
theorem tagType_traces (scope : Scope) {object array : Build TypeExpr} {objectEvents arrayEvents : List Event}
    (hobject : Traces object objectEvents) (harray : Traces array arrayEvents) {tag : Value}
    (hnull : isTag "null" tag = false) :
    Traces (tagType scope object array tag) (tagEvents objectEvents arrayEvents tag) := by
  rw [tagType, tagEvents]
  split_ifs with hobjectTag harrayTag
  · exact hobject
  · exact harray
  · have hsupported : (∃ t, keywordOf? tag = some t) ↔ TagSupported True True tag :=
      exists_keywordOf?_iff hnull (Bool.eq_false_iff.mpr hobjectTag) (Bool.eq_false_iff.mpr harrayTag)
    have hwords : (∃ t, keywordOf? tag = some t) ↔ typeWords.any (fun word => isTag word tag) = true := by
      simp only [hsupported, TagSupported, NamesType, List.any_eq_true, isTag_iff, implies_true, and_true]
    cases hkeyword : keywordOf? tag with
    | some type =>
      rw [hwords.mp ⟨type, hkeyword⟩]
      exact Traces.pure type
    | none =>
      rw [Bool.eq_false_iff.mpr (mt hwords.mpr (by simp [hkeyword]))]
      exact Traces.throw _

/-- The types of tags meet what each of them does, one after the other. -/
theorem tagTypes_traces (scope : Scope) {object array : Build TypeExpr} {objectEvents arrayEvents : List Event}
    (hobject : Traces object objectEvents) (harray : Traces array arrayEvents) (named : List Value)
    (hnull : ∀ tag ∈ named, isTag "null" tag = false) :
    Traces (tagTypes scope object array named) (named.flatMap (tagEvents objectEvents arrayEvents)) := by
  induction named with
  | nil => exact Traces.pure []
  | cons tag rest ih =>
    obtain ⟨htag, hrest⟩ := List.forall_mem_cons.mp hnull
    rw [tagTypes_cons, List.flatMap_cons]
    exact (tagType_traces scope hobject harray htag).bind fun type => (ih hrest).map fun types => type :: types

/-- Nothing is met for the tag `null`. -/
theorem flatMap_tagEvents_filter (object array : List Event) (named : List Value) :
    (named.filter fun tag => !isTag "null" tag).flatMap (tagEvents object array) =
      named.flatMap (tagEvents object array) := by
  induction named with
  | nil => rfl
  | cons tag rest ih =>
    rw [List.flatMap_cons, ← ih]
    by_cases hnull : isTag "null" tag
    · have htag : tag = .text "null" := (isTag_iff "null" tag).mp hnull
      rw [List.filter_cons_of_neg (by simp [hnull]), htag]
      rfl
    · rw [List.filter_cons_of_pos (by simpa using hnull), List.flatMap_cons]

/-- The types of a `type` keyword meet what its tags do. -/
theorem typed_traces (scope : Scope) (keyword : Value) {object array : Build TypeExpr}
    {objectEvents arrayEvents : List Event} (hobject : Traces object objectEvents)
    (harray : Traces array arrayEvents) :
    Traces (typed scope keyword object array) ((tags keyword).flatMap (tagEvents objectEvents arrayEvents)) := by
  rw [← flatMap_tagEvents_filter, typed]
  cases hnamed : (tags keyword).filter fun tag => !isTag "null" tag with
  | nil => exact Traces.pure _
  | cons tag rest =>
    refine (tagTypes_traces scope hobject harray (tag :: rest) fun t ht => ?_).map _
    rw [← hnamed] at ht
    simpa using (List.mem_filter.mp ht).2

/-- It can be told of the names that a value answers for whether they are required. -/
theorem tells_iff (required : Value) (name : Scalar) : tells required name = true ↔ AnswersFor required name := by
  cases required with
  | scalar s =>
    cases s <;> cases name <;> simp [tells, AnswersFor, Value.isText, Value.isPresent]
  | _ => simp [tells, AnswersFor]

/-- Properties meet what is in each of them, and then whether it can be told if it is required. -/
theorem fieldsOf_traces {scope : Scope} (members : Members) (properties : List (Scalar × Value))
    (h : ∀ property ∈ properties, Traces (types scope property.2) (events scope property.2)) :
    Traces (fieldsOf scope (requiredNames members) properties)
      (properties.flatMap fun property => events scope property.2 ++
        stopUnless (tells (members.fieldOrNull "required") property.1)) := by
  induction properties with
  | nil =>
    rw [fieldsOf]
    exact Traces.pure []
  | cons property rest ih =>
    obtain ⟨name, schema⟩ := property
    obtain ⟨hfirst, hrest⟩ := List.forall_mem_cons.mp h
    rw [fieldsOf, List.flatMap_cons, List.append_assoc]
    refine hfirst.bind fun alternatives => Traces.bind (Traces.lift ?_) fun isRequired => (ih hrest).map _
    rw [exists_required_iff, tells_iff]

/-- The types of several schemas meet what is in each of them. -/
theorem allTypes_traces {scope : Scope} (schemas : List Value)
    (h : ∀ schema ∈ schemas, Traces (types scope schema) (events scope schema)) :
    Traces (allTypes scope schemas) (schemas.flatMap (events scope)) := by
  induction schemas with
  | nil =>
    rw [allTypes]
    exact Traces.pure []
  | cons schema rest ih =>
    obtain ⟨hfirst, hrest⟩ := List.forall_mem_cons.mp h
    rw [allTypes, List.flatMap_cons]
    exact hfirst.bind fun first => (ih hrest).map _

/-- Branches meet what is in each of them. -/
theorem branchTypes_traces {scope : Scope} (schemas : List Value)
    (h : ∀ schema ∈ schemas, Traces (types scope schema) (events scope schema)) :
    Traces (branchTypes scope schemas) (schemas.flatMap (events scope)) := by
  induction schemas with
  | nil =>
    rw [branchTypes]
    exact Traces.pure []
  | cons schema rest ih =>
    obtain ⟨hfirst, hrest⟩ := List.forall_mem_cons.mp h
    rw [branchTypes, List.flatMap_cons]
    exact hfirst.bind fun alternatives => (ih hrest).map _

/-- What is met in the schemas that a member holds by name. -/
def namedEvents (scope : Scope) (name : Text) (members : Members) : List Event :=
  stopUnless (holdsSchemas (members.fieldOrNull name)) ++
    (namedSchemas name members).flatMap fun property =>
      events scope property.2 ++ stopUnless (tells (members.fieldOrNull "required") property.1)

section Inner

/-! Where every inner schema meets its events, so do properties, items and branches. -/

variable {scope : Scope} {members : Members}
  (ih : ∀ schema, sizeOf schema < sizeOf (Value.object members) →
    Traces (types scope schema) (events scope schema))

include ih

/-- The properties under a name meet what is in the schemas that the member holds. -/
theorem fieldsUnder_traces (name : Text) :
    Traces (fieldsUnder scope name (requiredNames members) members) (namedEvents scope name members) := by
  rw [fieldsUnder_eq, namedEvents, namedSchemas, Members.fieldOrNull]
  cases hfield : members.field? name with
  | none => exact Traces.pure []
  | some v =>
    cases v with
    | object properties =>
      exact fieldsOf_traces members properties fun property hproperty =>
        ih property.2 (Value.sizeOf_property_lt hfield hproperty)
    | _ =>
      rw [fieldsHeld]
      · split_ifs with hpresent
        · simp only [Option.getD_some, holdsSchemas, hpresent]
          exact Traces.throw _
        · simp only [Option.getD_some, holdsSchemas, hpresent]
          exact Traces.pure []
      · rintro _ ⟨⟩

/-- The items of an array meet what is in each schema for them. -/
theorem itemTypes_traces :
    Traces (itemTypes scope members) ((itemSchemas members).flatMap (events scope)) := by
  rw [itemTypes_eq, itemSchemas]
  cases hfield : members.field? "items" with
  | none => exact Traces.pure _
  | some v =>
    cases v with
    | list schemas =>
      exact allTypes_traces schemas fun schema hschema => ih schema (Value.sizeOf_item_lt hfield hschema)
    | _ =>
      rw [List.flatMap_singleton]
      exact ih _ (Value.sizeOf_field?_lt hfield)

/-- The branches of a combinator meet what is in each of them, if they are a list. -/
theorem branchesUnder_traces (c : Combinator) (otherwise : Fault) :
    Traces (branchesUnder scope c otherwise members)
      (stopUnless (holdsBranches (members.fieldOrNull c.keyword)) ++
        (branchSchemas c members).flatMap (events scope)) := by
  rw [branchesUnder_eq, branchSchemas, Members.fieldOrNull]
  cases hfield : members.field? c.keyword with
  | none => exact Traces.throw otherwise
  | some v =>
    cases v with
    | list schemas =>
      exact branchTypes_traces schemas fun schema hschema => ih schema (Value.sizeOf_item_lt hfield hschema)
    | _ => exact Traces.throw otherwise

end Inner

/-- Nothing is met in a member that counts as absent. -/
theorem namedEvents_of_absent (scope : Scope) {name : Text} {members : Members}
    (h : (members.fieldOrNull name).isPresent = false) : namedEvents scope name members = [] := by
  obtain ⟨-, hnone⟩ := holdsProperties_of_absent h
  have hholds : holdsSchemas (members.fieldOrNull name) = true := by
    cases hvalue : members.fieldOrNull name with
    | object schemas => rfl
    | _ =>
      rw [hvalue] at h
      simp [holdsSchemas, h]
  rw [namedEvents, hnone, hholds]
  rfl

/-- An object type meets what its properties and then its pattern properties do. -/
theorem objectOf_traces (members : Members) {properties patterns : Build (List (Field TypeExpr))}
    {propertyEvents patternEvents : List Event} (hproperties : Traces properties propertyEvents)
    (hpatterns : Traces patterns patternEvents)
    (habsent : (members.fieldOrNull "patternProperties").isPresent = false → patternEvents = []) :
    Traces (objectOf members properties patterns) (propertyEvents ++ patternEvents) := by
  rw [objectOf]
  refine hproperties.bind fun fields => ?_
  dsimp only
  split_ifs with hopen
  · exact hpatterns.map _
  · rw [habsent (by simp_all)]
    exact Traces.pure _

/-- An array type meets what its items do, unless no length satisfies its bounds. -/
theorem arrayOf_traces (members : Members) {items : Build (List TypeExpr)} {itemEvents : List Event}
    (hitems : Traces items itemEvents) :
    Traces (arrayOf members items) (if unsatisfiable members then [] else itemEvents) := by
  rw [arrayOf]
  split_ifs with hbounds
  · exact Traces.pure _
  · rw [← List.append_nil itemEvents]
    refine hitems.bind fun types => ?_
    cases types <;> exact Traces.pure _

/-- A literal type can be made of a scalar. -/
theorem exists_literal_iff (scope : Scope) (value : Value) :
    (∃ type, literal scope value = .ok type) ↔ isScalar value = true := by
  cases value <;> simp [literal, isScalar]

/-- The types of an enumeration can be made of a list of scalars. -/
theorem exists_enumeration_iff (scope : Scope) (values : Value) :
    (∃ types, enumeration scope values = .ok types) ↔ isEnumeration values = true := by
  cases values with
  | list items =>
    rw [enumeration, isEnumeration]
    split_ifs with hall <;> simp [hall]
  | _ => simp [enumeration, isEnumeration]

/-- Membership is forgotten once a list has been gone through. -/
theorem flatMap_attach_val {α β : Type} (items : List α) (f : α → List β) :
    (items.attach.flatMap fun item => f item.val) = items.flatMap f := by
  conv_rhs => rw [← List.attach_map_subtype_val items, List.flatMap_map]

/-- What there is to meet in an object, by the keyword that it is read by. -/
theorem events_object (scope : Scope) (members : Members) :
    events scope (.object members) =
      match Shape.ofMembers members with
      | .ok .reference => referenceEvents scope (members.fieldOrNull "$ref")
      | .ok .const => stopUnless (isScalar (members.fieldOrNull "const"))
      | .ok .enum => stopUnless (isEnumeration (members.fieldOrNull "enum"))
      | .ok .typed => (tags (members.fieldOrNull "type")).flatMap (tagEvents
          (namedEvents scope "properties" members ++ namedEvents scope "patternProperties" members)
          (if unsatisfiable members then [] else (itemSchemas members).flatMap (events scope)))
      | .ok (.combined c) => stopUnless (holdsBranches (members.fieldOrNull c.keyword)) ++
          (branchSchemas c members).flatMap (events scope)
      | _ => [stop] := by
  have hnamed (name : Text) := flatMap_attach_val (namedSchemas name members) fun property =>
    events scope property.2 ++ stopUnless (tells (members.fieldOrNull "required") property.1)
  rw [events]
  simp only [hnamed, flatMap_attach_val, namedEvents, List.flatMap_cons, List.flatMap_nil, List.append_nil]

/-- Building the types of a schema meets what there is to meet in it. -/
theorem types_traces (scope : Scope) (schema : Value) : Traces (types scope schema) (events scope schema) := by
  rcases schema with s | items | members
  · cases s with
    | bool b =>
      simp only [types, events]
      exact Traces.pure _
    | _ =>
      simp only [types, events]
      exact Traces.throw _
  · simp only [types, events]
    exact Traces.throw _
  · have ih (inner : Value) (hinner : sizeOf inner < sizeOf (Value.object members)) :=
      types_traces scope inner
    rw [types, events_object]
    cases Shape.ofMembers members with
    | error cause => exact Traces.throw _
    | ok shape =>
      cases shape with
      | boolean => exact Traces.throw _
      | reference => exact reference_traces scope _
      | const => exact (Traces.lift (exists_literal_iff scope _)).map _
      | enum => exact Traces.lift (exists_enumeration_iff scope _)
      | typed =>
        exact typed_traces scope _
          (objectOf_traces members (fieldsUnder_traces ih _) (fieldsUnder_traces ih _)
            (namedEvents_of_absent scope))
          (arrayOf_traces members (itemTypes_traces ih))
      | combined c => exact (branchesUnder_traces ih c _).map _
termination_by sizeOf schema
decreasing_by exact hinner

/-- Whether it returns or fails, building the types of a schema leaves behind the state that it started in, with
the references visited before the first stop added at the end of what is found and of what is pending: each
under its canonical spelling, where it first occurs, and only if it was not known. Building returns if there is
no stop. -/
theorem types_leave_trace (scope : Scope) (schema : Value) (d : Discovery) :
    let met := events scope schema
    let added := (((visited met).map fun ref => Pointer.join (Pointer.split ref)).removeAll d.keys).eraseDups
    ((types scope schema).run d).2.found = d.found ++ added.map (fun key => (key, Pointer.split key)) ∧
      ((types scope schema).run d).2.pending = d.pending ++ added ∧
      ((∃ alternatives, ((types scope schema).run d).1 = .ok alternatives) ↔ stop ∉ met) := by
  have htraces := types_traces scope schema
  have hstate : ((types scope schema).run d).2 = d.extend (d.newKeys (visited (events scope schema))) :=
    (htraces.discovery_eq d).trans (d.addAll_eq_extend _)
  rw [hstate]
  exact ⟨rfl, rfl, htraces.exists_ok_iff d⟩

end Schema

end SchemaTypes
