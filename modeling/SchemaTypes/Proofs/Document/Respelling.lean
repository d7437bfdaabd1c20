import Mathlib.Data.List.Forall2
import SchemaTypes.Pointer
import SchemaTypes.Proofs.Document.Value
import SchemaTypes.Schema.Resolution

/-!
# Respelling references

One path has many spellings as a reference. A document is respelled by writing some of the references in
it differently: texts under `$ref`, at any depth, are replaced by other spellings of the same path, and all
else stays as it is. Wherever a pointer leads in one document it leads to the counterpart in the other, which
may be one of the replaced texts itself.
-/

namespace SchemaTypes

namespace Value

/-- Whether two values are texts that spell the same reference. -/
def spelledAlike : Value → Value → Bool
  | scalar (.text ref), scalar (.text other) =>
    Pointer.split ref = Pointer.split other && Pointer.isLocal ref = Pointer.isLocal other
  | _, _ => false

mutual

/-- Whether a value becomes another one by spelling references in it differently. -/
def respells : Value → Value → Bool
  | scalar s, scalar t => s = t
  | list items, list others => itemsRespell items others
  | object members, object others => membersRespell members others
  | _, _ => false

/-- Whether the items of a list become those of another one in this way. -/
def itemsRespell : List Value → List Value → Bool
  | [], [] => true
  | v :: rest, w :: others => respells v w && itemsRespell rest others
  | _, _ => false

/-- Whether the members of an object become those of another one in this way. -/
def membersRespell : List (Scalar × Value) → List (Scalar × Value) → Bool
  | [], [] => true
  | (k, v) :: rest, (l, w) :: others =>
    k = l && (respells v w || k = .text "$ref" && spelledAlike v w) && membersRespell rest others
  | _, _ => false

end

/-- Items that are counterparts. -/
abbrev ItemsAkin : List Value → List Value → Prop :=
  List.Forall₂ fun v w => v.respells w = true

/-- Members that are counterparts. Only under `$ref` they may be two spellings of one reference. -/
abbrev MembersAkin : Members → Members → Prop :=
  List.Forall₂ fun member other => member.1 = other.1 ∧
    (member.2.respells other.2 = true ∨
      member.1 = .text "$ref" ∧ member.2.spelledAlike other.2 = true)

/-- How a respelled value looks like the value itself. -/
inductive Respelled : Value → Value → Prop where
  | scalar (s : Scalar) : Respelled (scalar s) (scalar s)
  | list {items others : List Value} : ItemsAkin items others → Respelled (list items) (list others)
  | object {members others : Members} :
      MembersAkin members others → Respelled (object members) (object others)

/-- Counterparts in a document and in the respelled one: values that are respelled, or two spellings of one
reference. -/
inductive Akin : Value → Value → Prop where
  | scalar (s : Scalar) : Akin (scalar s) (scalar s)
  | spelled {ref other : Text} : Pointer.split ref = Pointer.split other →
      Pointer.isLocal ref = Pointer.isLocal other → Akin (.text ref) (.text other)
  | list {items others : List Value} : ItemsAkin items others → Akin (list items) (list others)
  | object {members others : Members} : MembersAkin members others → Akin (object members) (object others)

/-- The items of a respelled list are counterparts. -/
theorem itemsAkin_of_respell {items others : List Value} (h : itemsRespell items others = true) :
    ItemsAkin items others := by
  induction items generalizing others with
  | nil =>
    cases others with
    | nil => exact .nil
    | cons w others => cases h
  | cons v rest ih =>
    cases others with
    | nil => cases h
    | cons w others =>
      rw [itemsRespell, Bool.and_eq_true] at h
      exact .cons h.1 (ih h.2)

/-- The members of a respelled object are counterparts. -/
theorem membersAkin_of_respell {members others : Members} (h : membersRespell members others = true) :
    MembersAkin members others := by
  induction members generalizing others with
  | nil =>
    cases others with
    | nil => exact .nil
    | cons other others => cases h
  | cons member rest ih =>
    cases others with
    | nil => cases h
    | cons other others =>
      simp only [membersRespell, Bool.and_eq_true, Bool.or_eq_true, decide_eq_true_eq] at h
      exact .cons h.1 (ih h.2)

/-- A respelled value looks like the value itself. -/
theorem respelled_of_respells {v w : Value} (h : v.respells w = true) : v.Respelled w := by
  rw [respells.eq_def] at h
  split at h
  · cases of_decide_eq_true h
    exact .scalar _
  · exact .list (itemsAkin_of_respell h)
  · exact .object (membersAkin_of_respell h)
  · cases h

/-- Respelled values are counterparts. -/
theorem akin_of_respells {v w : Value} (h : v.respells w = true) : v.Akin w := by
  cases respelled_of_respells h with
  | scalar s => exact .scalar s
  | list hitems => exact .list hitems
  | object hmembers => exact .object hmembers

/-- Members that are counterparts have values that are. -/
theorem akin_of_member {k : Scalar} {v w : Value}
    (h : v.respells w = true ∨ k = .text "$ref" ∧ v.spelledAlike w = true) : v.Akin w := by
  rcases h with hrespells | ⟨-, hspelled⟩
  · exact akin_of_respells hrespells
  · rw [spelledAlike.eq_def] at hspelled
    split at hspelled
    · simp only [Bool.and_eq_true, decide_eq_true_eq] at hspelled
      exact .spelled hspelled.1 hspelled.2
    · cases hspelled

/-- Every value is respelled if nothing is replaced. -/
theorem respells_self (v : Value) : v.respells v = true := by
  induction v using induction_parts with
  | scalar s => simp [respells]
  | list items ih =>
    rw [respells]
    induction items with
    | nil => rfl
    | cons v rest ih' =>
      rw [itemsRespell, ih v List.mem_cons_self, ih' fun w hw => ih w (List.mem_cons_of_mem _ hw)]
      rfl
  | object members ih =>
    rw [respells]
    induction members with
    | nil => rfl
    | cons member rest ih' =>
      simp [membersRespell, ih member.1 member.2 List.mem_cons_self,
        ih' fun k w hw => ih k w (List.mem_cons_of_mem _ hw)]

/-- Respelled values count as present alike. -/
theorem isPresent_of_respells {v w : Value} (h : v.respells w = true) : v.isPresent = w.isPresent := by
  cases respelled_of_respells h with
  | scalar s => rfl
  | list hitems => cases hitems <;> rfl
  | object hmembers => cases hmembers <;> rfl

/-- A value that is present counts. -/
theorem orElse_of_isPresent {v : Value} (h : v.isPresent = true) (other : Value) : v.orElse other = v :=
  if_pos h

/-- The value that counts of two is respelled if both are. -/
theorem orElse_respells {v w other other' : Value} (h : v.respells w = true)
    (hother : other.respells other' = true) : (v.orElse other).respells (w.orElse other') = true := by
  rw [orElse, orElse, isPresent_of_respells h]
  split_ifs
  · exact h
  · exact hother

/-- Counterparts are null alike. -/
theorem Akin.isNull_eq {v w : Value} (h : v.Akin w) : v.isNull = w.isNull := by
  cases h <;> rfl

end Value

namespace Members

open Value

variable {members others : Members}

/-- Members of a name are counterparts, and respelled ones under most names. -/
theorem field?_akin (h : MembersAkin members others) (name : Text) :
    (members.field? name = none ∧ others.field? name = none) ∨
      ∃ v w, members.field? name = some v ∧ others.field? name = some w ∧ v.Akin w ∧
        (name ≠ "$ref" → v.respells w = true) := by
  induction h with
  | nil => exact Or.inl ⟨rfl, rfl⟩
  | @cons member other rest others hmember _ ih =>
    obtain ⟨k, v⟩ := member
    obtain ⟨l, w⟩ := other
    obtain ⟨rfl, hvalue⟩ : k = l ∧ (v.respells w = true ∨ k = .text "$ref" ∧ v.spelledAlike w = true) :=
      hmember
    rw [field?, field?]
    by_cases hk : k.isText name
    · rw [if_pos hk, if_pos hk]
      refine Or.inr ⟨v, w, rfl, rfl, ?_⟩
      refine ⟨akin_of_member hvalue, fun hname => hvalue.resolve_right ?_⟩
      rintro ⟨rfl, -⟩
      exact hname (of_decide_eq_true hk).symm
    · rw [if_neg hk, if_neg hk]
      exact ih

/-- Members of a key are counterparts. -/
theorem get?_akin (h : MembersAkin members others) (key : Scalar) :
    Option.Rel Akin (members.get? key) (others.get? key) := by
  induction h with
  | nil => exact .none
  | @cons member other rest others hmember _ ih =>
    obtain ⟨k, v⟩ := member
    obtain ⟨l, w⟩ := other
    obtain ⟨rfl, hvalue⟩ : k = l ∧ (v.respells w = true ∨ k = .text "$ref" ∧ v.spelledAlike w = true) :=
      hmember
    rw [get?, get?]
    by_cases hk : key.same k
    · rw [if_pos hk, if_pos hk]
      exact .some (akin_of_member hvalue)
    · rw [if_neg hk, if_neg hk]
      exact ih

/-- The same names are there. -/
theorem has_of_akin (h : MembersAkin members others) (name : Text) :
    members.has name = others.has name := by
  rw [has, has]
  rcases field?_akin h name with ⟨hnone, hnone'⟩ | ⟨v, w, hv, hw, -⟩
  · rw [hnone, hnone']
  · rw [hv, hw]
    rfl

/-- The value of a member, or null, has its counterpart, which is respelled under most names. -/
theorem fieldOrNull_akin (h : MembersAkin members others) (name : Text) :
    (members.fieldOrNull name).Akin (others.fieldOrNull name) ∧
      (name ≠ "$ref" → (members.fieldOrNull name).respells (others.fieldOrNull name) = true) := by
  rw [fieldOrNull, fieldOrNull]
  rcases field?_akin h name with ⟨hnone, hnone'⟩ | ⟨v, w, hv, hw, hakin⟩
  · rw [hnone, hnone']
    exact ⟨.scalar .null, fun _ => rfl⟩
  · rw [hv, hw]
    exact hakin

end Members

namespace Pointer

open Value

/-- What a pointer leads to in a document and in the respelled one. -/
inductive Found : Except Malformed (Option Value) → Except Malformed (Option Value) → Prop where
  | ok {part other : Option Value} : Option.Rel Akin part other → Found (.ok part) (.ok other)
  | error (cause : Malformed) : Found (.error cause) (.error cause)

/-- Items at one position are counterparts. -/
theorem getElem?_akin {items others : List Value} (h : ItemsAkin items others) (n : Nat) :
    Option.Rel Akin items[n]? others[n]? := by
  induction h generalizing n with
  | nil => exact .none
  | cons hitem _ ih =>
    cases n with
    | zero => exact .some (akin_of_respells hitem)
    | succ n => exact ih n

/-- One segment leads from counterparts to counterparts. -/
theorem step_found {v w : Value} (h : v.Akin w) (segment : Value) :
    Found (step v segment) (step w segment) := by
  cases h with
  | scalar s => exact .ok .none
  | spelled _ _ => exact .ok .none
  | object hmembers =>
    cases segment with
    | scalar key => exact .ok (Members.get?_akin hmembers key)
    | list items => exact .error _
    | object inner => exact .error _
  | list hitems =>
    rcases segment with (_ | _ | _ | _ | s) | _ | _
    case scalar.text =>
      rw [step, step]
      cases numeral? s with
      | error cause => exact .error cause
      | ok n =>
        cases n with
        | none => exact .ok .none
        | some n => exact .ok (getElem?_akin hitems n)
    all_goals exact .error _

/-- A pointer leads from counterparts to counterparts. -/
theorem follow_found {v w : Value} (h : v.Akin w) (path : List Value) :
    Found (follow v path) (follow w path) := by
  induction path generalizing v w with
  | nil => exact .ok (.some h)
  | cons segment rest ih =>
    have hstep := step_found h segment
    rw [follow, follow]
    generalize step v segment = part, step w segment = other at hstep ⊢
    cases hstep with
    | error cause => exact .error cause
    | ok hpart =>
      cases hpart with
      | none => exact .ok .none
      | some hakin => exact ih hakin

/-- What a path addresses has its counterpart, unless it is null. -/
theorem target?_found {document other : Value} (h : document.Akin other) (path : List Text) :
    Found (target? document path) (target? other path) := by
  have hfollow := follow_found h (path.map .text)
  rw [target?, target?, find?, find?]
  generalize follow document (path.map .text) = part, follow other (path.map .text) = part' at hfollow ⊢
  cases hfollow with
  | error cause => exact .error cause
  | ok hpart =>
    refine .ok ?_
    cases hpart with
    | none => exact .none
    | @some v w hakin =>
      rw [Option.filter_some, Option.filter_some, hakin.isNull_eq]
      split_ifs
      · exact .some hakin
      · exact .none

end Pointer

end SchemaTypes
