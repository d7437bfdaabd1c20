import Mathlib.Data.List.Induction
import Mathlib.Tactic.SplitIfs
import SchemaTypes.Api.Overlay
import SchemaTypes.Proofs.Document.Same

/-!
# Schemas in the scratch area

The scratch area is a tree of objects, and putting a schema aside writes it at a path of the tree. A
schema that was written is found there until another one is written at the same path: paths that do
not continue one another do not disturb each other. So what a path holds after many schemas were
written is the last of them that was written at it.

The overlay has the scratch area among its component schemas, where references find it.
-/

namespace SchemaTypes

namespace Members

/-- A member with a name is the one for this text as a key. -/
theorem field?_eq_get? (name : Text) (members : Members) :
    members.field? name = members.get? (.text name) := by
  induction members with
  | nil => rfl
  | cons member rest ih =>
    obtain ⟨k, v⟩ := member
    have hsame : k.isText name = (Scalar.text name).same k := by
      cases k <;> simp [Scalar.isText, Scalar.same, Scalar.extended?, eq_comm]
    rw [field?, get?, ih, hsame]

/-- Setting a member changes this member and no other one. -/
theorem field?_insert (members : Members) (name other : Text) (v : Value) :
    (members.insert (.text name) v).field? other =
      if other = name then some v else members.field? other := by
  induction members with
  | nil => simp [insert, field?, Scalar.isText, eq_comm]
  | cons member rest ih =>
    obtain ⟨k, w⟩ := member
    rw [insert]
    by_cases hkey : (Scalar.text name).same k = true
    · have hk : k = .text name := by
        cases k <;> simp_all [Scalar.same, Scalar.extended?]
      by_cases hother : other = name
      · simp [hk, hother, field?, Scalar.isText, Scalar.same]
      · simp [hk, hother, Ne.symm hother, field?, Scalar.isText, Scalar.same]
    · rw [if_neg hkey, field?, field?, ih]
      by_cases hother : other = name
      · have hk : ¬k.isText name = true := by
          intro hk
          cases k <;> simp_all [Scalar.isText, Scalar.same]
        rw [hother, if_pos rfl, if_neg hk, if_pos rfl]
      · rw [if_neg hother, if_neg hother]

/-- Of two values set for a name the second one stays. -/
theorem insert_insert (members : Members) (name : Text) (v w : Value) :
    (members.insert (.text name) v).insert (.text name) w = members.insert (.text name) w := by
  induction members with
  | nil => simp [insert, Scalar.same]
  | cons member rest ih =>
    obtain ⟨k, u⟩ := member
    by_cases hkey : (Scalar.text name).same k = true <;> simp [insert, hkey, ih]

/-- The object under a name, which is empty if there is none. -/
def inner (name : Text) (members : Members) : Members :=
  match members.field? name with
  | some (.object members) => members
  | _ => []

/-- Setting an object changes the object under its name and no other one. -/
theorem inner_insert (members object : Members) (name other : Text) :
    (members.insert (.text name) (.object object)).inner other =
      if other = name then object else members.inner other := by
  rw [inner, field?_insert]
  by_cases hother : other = name
  · rw [if_pos hother, if_pos hother]
  · rw [if_neg hother, if_neg hother, inner]

end Members

namespace Api

namespace Scratch

/-- Put a value at a path of names. Objects on the way are made where there are none. -/
def put : List Text → Value → Members → Members
  | [], _, members => members
  | [name], v, members => members.insert (.text name) v
  | name :: rest, v, members => updateObject name (put rest v) members

/-- The value at a path of names. -/
def at? : List Text → Members → Option Value
  | [], _ => none
  | [name], members => members.field? name
  | name :: rest, members => at? rest (members.inner name)

/-- Put several values at their paths, one after the other. -/
def putAll (targets : List (List Text × Value)) (members : Members) : Members :=
  targets.foldl (fun all target => put target.1 target.2 all) members

/-- The same values at paths that begin with one more name. -/
def nest (name : Text) (targets : List (List Text × Value)) : List (List Text × Value) :=
  targets.map fun target => (name :: target.1, target.2)

/-- Schemas at numbered names. -/
def numbered (stem : Text) (schemas : List Value) : List (List Text × Value) :=
  schemas.zipIdx.map fun (schema, i) => ([stem ++ toString i], schema)

/-- Changing an object sets the changed one. -/
theorem updateObject_eq (name : Text) (change : Members → Members) (members : Members) :
    updateObject name change members =
      members.insert (.text name) (.object (change (members.inner name))) := by
  rw [updateObject.eq_def, Members.inner.eq_def]
  cases members.field? name with
  | none => rfl
  | some v => cases v <;> rfl

/-- Two changes of an object are one change. -/
theorem updateObject_updateObject (name : Text) (first second : Members → Members)
    (members : Members) :
    updateObject name second (updateObject name first members) =
      updateObject name (second ∘ first) members := by
  simp only [updateObject_eq, Members.inner_insert, if_true, Members.insert_insert,
    Function.comp_apply]

/-- A path of several names is put below its first name. -/
theorem put_cons (name : Text) {rest : List Text} (hrest : rest ≠ []) (v : Value)
    (members : Members) : put (name :: rest) v members = updateObject name (put rest v) members := by
  obtain ⟨second, others, rfl⟩ := List.exists_cons_of_ne_nil hrest
  rw [put]
  exact nofun

/-- A path of several names is looked up below its first name. -/
theorem at?_cons (name : Text) {rest : List Text} (hrest : rest ≠ []) (members : Members) :
    at? (name :: rest) members = at? rest (members.inner name) := by
  obtain ⟨second, others, rfl⟩ := List.exists_cons_of_ne_nil hrest
  rw [at?]
  exact nofun

/-- There is nothing in no object. -/
theorem at?_nil (path : List Text) : at? path [] = none := by
  induction path with
  | nil => rfl
  | cons name rest ih =>
    cases rest with
    | nil => rfl
    | cons second others => exact (at?_cons name (by simp) []).trans ih

/-- Where something is found below a name, there is an object under this name. -/
theorem field?_of_at?_inner {name : Text} {path : List Text} {members : Members} {v : Value}
    (h : at? path (members.inner name) = some v) :
    members.field? name = some (.object (members.inner name)) := by
  rw [Members.inner.eq_def] at h ⊢
  split at h
  · assumption
  · rw [at?_nil] at h
    cases h

/-- A value that was put at a path is found there. -/
theorem at?_put {path : List Text} (hpath : path ≠ []) (v : Value) (members : Members) :
    at? path (put path v members) = some v := by
  induction path generalizing members with
  | nil => exact absurd rfl hpath
  | cons name rest ih =>
    cases rest with
    | nil => rw [put, at?, Members.field?_insert, if_pos rfl]
    | cons second others =>
      have hrest : second :: others ≠ [] := by simp
      rw [put_cons name hrest, at?_cons name hrest, updateObject_eq, Members.inner_insert, if_pos rfl]
      exact ih hrest _

/-- Two paths of which neither continues the other. -/
def Apart (path other : List Text) : Prop := ¬path <+: other ∧ ¬other <+: path

/-- Different paths of one length are apart. -/
theorem apart_of_length {path other : List Text} (hlength : path.length = other.length)
    (hne : path ≠ other) : Apart path other :=
  ⟨fun h => hne (h.eq_of_length hlength), fun h => hne (h.eq_of_length hlength.symm).symm⟩

/-- Putting a value at a path leaves alone what is found at paths that are apart from it. -/
theorem at?_put_of_apart {path other : List Text} (h : Apart path other) (v : Value)
    (members : Members) : at? other (put path v members) = at? other members := by
  induction path generalizing other members with
  | nil => exact absurd List.nil_prefix h.1
  | cons name rest ih =>
    cases other with
    | nil => exact absurd List.nil_prefix h.2
    | cons first others =>
      by_cases hname : first = name
      · subst hname
        have happart : Apart rest others := by simpa [Apart, List.cons_prefix_cons] using h
        -- Both paths go on, for the empty path is continued by every other one.
        have hrest : rest ≠ [] := fun hnil => happart.1 (hnil ▸ List.nil_prefix)
        have hothers : others ≠ [] := fun hnil => happart.2 (hnil ▸ List.nil_prefix)
        rw [put_cons first hrest, at?_cons first hothers, at?_cons first hothers, updateObject_eq,
          Members.inner_insert, if_pos rfl]
        exact ih happart _
      · have hput : ∃ w, put (name :: rest) v members = members.insert (.text name) w := by
          cases rest with
          | nil => exact ⟨v, rfl⟩
          | cons second names => exact ⟨_, (put_cons name (by simp) v members).trans (updateObject_eq ..)⟩
        obtain ⟨w, hw⟩ := hput
        have hfield : (members.insert (.text name) w).field? first = members.field? first := by
          rw [Members.field?_insert, if_neg hname]
        rw [hw]
        cases others with
        | nil => exact hfield
        | cons second names =>
          rw [at?_cons first (by simp), at?_cons first (by simp), Members.inner, Members.inner, hfield]

/-- Values are put one after the other. -/
theorem putAll_append (first second : List (List Text × Value)) (members : Members) :
    putAll (first ++ second) members = putAll second (putAll first members) := List.foldl_append

/-- What is found at the path of one of several values is the last of them that was put there, as long
as all paths are equal or apart. -/
theorem exists_at?_putAll {targets : List (List Text × Value)}
    (hpaths : ∀ target ∈ targets, target.1 ≠ [])
    (hapart : ∀ target ∈ targets, ∀ other ∈ targets, target.1 = other.1 ∨ Apart target.1 other.1)
    (members : Members) {target : List Text × Value} (htarget : target ∈ targets) :
    ∃ last ∈ targets, last.1 = target.1 ∧ at? target.1 (putAll targets members) = some last.2 := by
  induction targets using List.reverseRecOn generalizing target with
  | nil => cases htarget
  | append_singleton before final ih =>
    have hfinal : final ∈ before ++ [final] := by simp
    have hput : putAll (before ++ [final]) members = put final.1 final.2 (putAll before members) :=
      putAll_append before [final] members
    rw [hput]
    rcases hapart final hfinal target htarget with heq | happart
    · refine ⟨final, hfinal, heq, ?_⟩
      rw [← heq, at?_put (hpaths final hfinal)]
    · have hne : target ≠ final := by
        rintro rfl
        exact happart.1 List.prefix_rfl
      have hbefore : target ∈ before := by
        rw [List.mem_append, List.mem_singleton] at htarget
        exact htarget.resolve_right hne
      obtain ⟨last, hlast, heq, hfound⟩ := ih
        (fun other hother => hpaths other (List.mem_append_left _ hother))
        (fun first hfirst other hother => hapart first (List.mem_append_left _ hfirst) other
          (List.mem_append_left _ hother)) hbefore
      refine ⟨last, List.mem_append_left _ hlast, heq, ?_⟩
      rw [at?_put_of_apart happart, hfound]

/-- Putting values below a name changes the object under this name. -/
theorem putAll_nest (name : Text) {targets : List (List Text × Value)} (hne : targets ≠ [])
    (hpaths : ∀ target ∈ targets, target.1 ≠ []) (members : Members) :
    putAll (nest name targets) members = updateObject name (putAll targets) members := by
  induction targets generalizing members with
  | nil => exact absurd rfl hne
  | cons target rest ih =>
    obtain ⟨htarget, hrest⟩ := List.forall_mem_cons.mp hpaths
    change putAll (nest name rest) (put (name :: target.1) target.2 members) = _
    rw [put_cons name htarget]
    by_cases hnil : rest = []
    · rw [hnil]
      rfl
    · rw [ih hnil hrest, updateObject_updateObject]
      rfl

/-- Adding schemas under numbered names puts them there. -/
theorem addNumbered_eq (stem : Text) (schemas : List Value) (members : Members) :
    addNumbered stem schemas members = putAll (numbered stem schemas) members := by
  rw [addNumbered, Members.insertAll, putAll, numbered, List.foldl_map, List.foldl_map]
  rfl

/-- The paths below a name are not empty. -/
theorem ne_nil_of_mem_nest {name : Text} {targets : List (List Text × Value)}
    {target : List Text × Value} (h : target ∈ nest name targets) : target.1 ≠ [] := by
  obtain ⟨inner, -, rfl⟩ := List.mem_map.mp h
  exact List.cons_ne_nil _ _

/-- Numbered names are not empty paths. -/
theorem ne_nil_of_mem_numbered {stem : Text} {schemas : List Value} {target : List Text × Value}
    (h : target ∈ numbered stem schemas) : target.1 ≠ [] := by
  obtain ⟨indexed, -, rfl⟩ := List.mem_map.mp h
  exact List.cons_ne_nil _ _

/-- Several schemas have several numbered names. -/
theorem numbered_ne_nil (stem : Text) {schemas : List Value} (h : schemas ≠ []) :
    numbered stem schemas ≠ [] := by
  obtain ⟨first, rest, rfl⟩ := List.exists_cons_of_ne_nil h
  exact List.cons_ne_nil _ _

/-- Below a name there is as much as before. -/
theorem nest_ne_nil (name : Text) {targets : List (List Text × Value)} (h : targets ≠ []) :
    nest name targets ≠ [] := by
  obtain ⟨first, rest, rfl⟩ := List.exists_cons_of_ne_nil h
  exact List.cons_ne_nil _ _

/-- Where the schemas of a request body are put. -/
def bodyTargets (operation : Text) (schemas : List Value) : List (List Text × Value) :=
  nest requestBodiesKey (nest operation (numbered "Body" schemas))

/-- Where the schemas of a response are put. -/
def responseTargets (operation status : Text) (schemas : List Value) :
    List (List Text × Value) :=
  nest responsesKey (nest operation (nest ("Response" ++ status) (numbered "Schema" schemas)))

/-- Where the schema of a shared parameter is put. -/
def parameterTargets (key : Text) (schema : Value) : List (List Text × Value) :=
  nest parametersKey [([key], schema)]

/-- A request body that is put aside is put at its paths. -/
theorem members_addBody (s : Scratch) (operation : Text) {schemas : List Value}
    (h : schemas ≠ []) :
    (s.addBody operation schemas).members = putAll (bodyTargets operation schemas) s.members := by
  have hnumbered := numbered_ne_nil "Body" h
  have hchange : addNumbered "Body" schemas = putAll (numbered "Body" schemas) :=
    funext (addNumbered_eq "Body" schemas)
  rw [bodyTargets, putAll_nest _ (nest_ne_nil operation hnumbered) fun _ => ne_nil_of_mem_nest,
    funext (putAll_nest operation hnumbered fun _ => ne_nil_of_mem_numbered), ← hchange]
  rw [updateObject_eq requestBodiesKey]
  simp [members, addBody, Members.inner, Members.field?, Members.insert, Scalar.isText, Scalar.same]

/-- A response that is put aside is put at its paths. -/
theorem members_addResponse (s : Scratch) (operation status : Text) {schemas : List Value}
    (h : schemas ≠ []) :
    (s.addResponse operation status schemas).members =
      putAll (responseTargets operation status schemas) s.members := by
  have hnumbered := numbered_ne_nil "Schema" h
  have hnested := nest_ne_nil ("Response" ++ status) hnumbered
  have hchange : addNumbered "Schema" schemas = putAll (numbered "Schema" schemas) :=
    funext (addNumbered_eq "Schema" schemas)
  rw [responseTargets, putAll_nest _ (nest_ne_nil operation hnested) fun _ => ne_nil_of_mem_nest,
    funext (putAll_nest operation hnested fun _ => ne_nil_of_mem_nest),
    funext (putAll_nest ("Response" ++ status) hnumbered fun _ => ne_nil_of_mem_numbered), ← hchange]
  rw [updateObject_eq responsesKey]
  simp [members, addResponse, Members.inner, Members.field?, Members.insert, Scalar.isText, Scalar.same,
    requestBodiesKey, responsesKey]

/-- A shared parameter that is put aside is put at its path. -/
theorem members_addParameter (s : Scratch) (key : Text) (schema : Value) :
    (s.addParameter key schema).members = putAll (parameterTargets key schema) s.members := by
  rw [parameterTargets, putAll_nest _ (List.cons_ne_nil _ _) (by simp)]
  simp [members, addParameter, updateObject_eq, putAll, put, Members.inner, Members.field?,
    Members.insert, Scalar.isText, Scalar.same, requestBodiesKey, responsesKey, parametersKey]

end Scratch

open Scratch

/-- What is found at a path of names is found by following it. -/
theorem follow_of_at? {path : List Text} {members : Members} {v : Value}
    (h : at? path members = some v) :
    Pointer.follow (.object members) (path.map .text) = .ok (some v) := by
  induction path generalizing members with
  | nil => cases h
  | cons name rest ih =>
    cases rest with
    | nil =>
      have hget : members.get? (.text name) = some v := (Members.field?_eq_get? name members).symm.trans h
      simp [Pointer.follow, Pointer.step, hget, bind, Except.bind]
    | cons second others =>
      rw [at?_cons name (by simp)] at h
      have hget : members.get? (.text name) = some (.object (members.inner name)) :=
        (Members.field?_eq_get? name members).symm.trans (field?_of_at?_inner h)
      have hrest := ih h
      rw [List.map_cons, Pointer.follow]
      simpa [Pointer.step, hget, bind, Except.bind] using hrest

namespace Overlay

/-- The component schemas of the overlay have the parts of the scratch area. -/
theorem field?_schemas (o : Overlay) (scratch : Scratch) {name : Text} {v : Value}
    (h : scratch.members.field? name = some v) :
    (o.schemas.insertAll scratch.members).field? name = some v := by
  simp only [Scratch.members, Members.field?, Scalar.isText, decide_eq_true_eq] at h
  simp only [Scratch.members, Members.insertAll, List.foldl_cons, List.foldl_nil,
    Members.field?_insert]
  split_ifs at h with hbodies hresponses hparameters
  · rw [if_neg, if_neg, if_pos hbodies.symm, h]
    · rintro rfl
      exact absurd hbodies (by decide)
    · rintro rfl
      exact absurd hbodies (by decide)
  · rw [if_neg, if_pos hresponses.symm, h]
    rintro rfl
    exact absurd hresponses (by decide)
  · rw [if_pos hparameters.symm, h]

/-- What is found in the scratch area below one of its parts is found in the overlay. -/
theorem find?_value (o : Overlay) (scratch : Scratch) {path : List Text} (hlength : 2 ≤ path.length)
    {v : Value} (h : at? path scratch.members = some v) :
    Pointer.find? (o.value scratch) ("components" :: "schemas" :: path) = .ok (some v) := by
  refine follow_of_at? ?_
  obtain ⟨name, rest, rfl⟩ := List.exists_cons_of_length_pos (Nat.lt_of_lt_of_le Nat.zero_lt_two hlength)
  have hrest : rest ≠ [] := by
    rintro rfl
    simp at hlength
  rw [at?_cons name hrest] at h
  have hinner : (o.schemas.insertAll scratch.members).inner name = scratch.members.inner name := by
    rw [Members.inner.eq_def, o.field?_schemas scratch (field?_of_at?_inner h)]
  rw [at?_cons _ (by simp), at?_cons _ (by simp), Members.inner_insert, if_pos rfl,
    Members.inner_insert, if_pos rfl, at?_cons name hrest, hinner, h]

end Overlay

end Api

end SchemaTypes
