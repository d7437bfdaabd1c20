import SchemaTypes.Proofs.Document.Value
import SchemaTypes.Proofs.Number.Order

/-!
# When values are the same

Values are compared part by part, the members of an object by their keys. A value of which an object
has two members for one key differs from itself, for the second of them is compared with the first.
Documents have no such object, and without one every value is the same as itself.

A text is the same as that text alone. Scalars that are the same as a third one are the same.
-/

namespace SchemaTypes

/-- Every number stands at its own place. -/
theorem Extended.order_self (x : Extended) : x.order x = .eq := by
  cases x with
  | below => rfl
  | above => rfl
  | scaled a e => simp [order, compareScaled]

/-- Every scalar is the same key as itself. -/
theorem Scalar.same_self (s : Scalar) : s.same s = true := by
  cases s with
  | null => rfl
  | text s => simp [same]
  | bool b => simp [same, extended?, Extended.order_self]
  | int n => simp [same, extended?, Extended.order_self]
  | float x =>
    cases x with
    | nan => rfl
    | infinite negative => cases negative <;> simp [same, extended?, Double.extended?, Extended.order_self]
    | finite negative m e => simp [same, extended?, Double.extended?, Extended.order_self]

/-- The key of a text is no other scalar. -/
theorem Scalar.same_text_iff (s : Scalar) (t : Text) : s.same (text t) = true ↔ s = text t := by
  cases s <;> simp [same, extended?]

/-- Scalars are the same key if they are equal or stand at the same place. -/
theorem Scalar.same_iff (a b : Scalar) :
    a.same b = true ↔
      a = b ∨ ∃ x y, a.extended? = some x ∧ b.extended? = some y ∧ x.order y = .eq := by
  constructor
  · intro h
    by_cases heq : a = b
    · exact Or.inl heq
    · right
      rw [same.eq_def] at h
      split at h
      · exact absurd rfl heq
      · exact absurd (congrArg text (of_decide_eq_true h)) heq
      · exact absurd rfl heq
      · split at h
        · rename_i x y hx hy
          exact ⟨x, y, hx, hy, of_decide_eq_true h⟩
        · cases h
  · rintro (rfl | ⟨x, y, hx, hy, horder⟩)
    · exact same_self a
    · rw [same.eq_def]
      split
      · rfl
      · cases hx
      · rfl
      · simp [hx, hy, horder]

/-- Being the same key is transitive. -/
theorem Scalar.same_trans {a b c : Scalar} (hab : a.same b = true) (hbc : b.same c = true) :
    a.same c = true := by
  rw [same_iff] at hab hbc ⊢
  rcases hab with rfl | ⟨x, y, hx, hy, hxy⟩
  · exact hbc
  · rcases hbc with rfl | ⟨y', z, hy', hz, hyz⟩
    · exact Or.inr ⟨x, y, hx, hy, hxy⟩
    · cases hy.symm.trans hy'
      exact Or.inr ⟨x, z, hx, hz, Extended.order_eq_trans hxy hyz⟩

/-- Where there is a member for a key, there is one for every key that is the same. -/
theorem Members.exists_get?_of_same {members : Members} {key other : Scalar} {v : Value}
    (hsame : other.same key = true) (h : members.get? key = some v) :
    ∃ w, members.get? other = some w := by
  induction members with
  | nil => cases h
  | cons member rest ih =>
    obtain ⟨k, w⟩ := member
    rw [get?] at h ⊢
    by_cases hother : other.same k = true
    · exact ⟨w, if_pos hother⟩
    · have hkey : ¬key.same k = true := fun hkey => hother (Scalar.same_trans hsame hkey)
      rw [if_neg hkey] at h
      rw [if_neg hother]
      exact ih h

namespace Value

/-- Lists of texts are equal as values only if they are. -/
theorem map_text_inj {path other : List Text} : path.map text = other.map text ↔ path = other :=
  List.map_inj_right fun _ _ h => Scalar.text.inj (scalar.inj h)

/-- A text is the same as no other value. -/
theorem same_text_iff (v : Value) (t : Text) : v.same (text t) = true ↔ v = text t := by
  cases v with
  | scalar s => simpa [same] using Scalar.same_text_iff s t
  | list items => simp [same]
  | object members => simp [same]

/-- It can be decided whether a value is a given text. -/
instance decidableEqText (v : Value) (s : Text) : Decidable (v = .text s) :=
  decidable_of_iff _ (v.same_text_iff s)

/-- Texts are the same if they are equal. -/
theorem text_same_text (s t : Text) : (text s).same (text t) = decide (s = t) := by
  simp [same, Scalar.same]

mutual

/-- Whether all numbers of a value are numbers indeed and no object of it has two members for the
same key, as in every document that can be written. -/
def isDocument : Value → Bool
  | scalar s => s ≠ .float .nan
  | list items => areDocuments items
  | object members => areMembers members

/-- Whether this holds of every item of a list. -/
def areDocuments : List Value → Bool
  | [] => true
  | v :: rest => isDocument v && areDocuments rest

/-- Whether this holds of every member, and none has the key of a later one. -/
def areMembers : List (Scalar × Value) → Bool
  | [] => true
  | (k, v) :: rest => isDocument v && rest.all (fun member => !member.1.same k) && areMembers rest

end

/-- The items of a list that is part of a document are parts of it. -/
theorem isDocument_of_mem_items {items : List Value} (h : areDocuments items = true) {v : Value}
    (hv : v ∈ items) : v.isDocument = true := by
  induction items with
  | nil => cases hv
  | cons item rest ih =>
    simp only [areDocuments, Bool.and_eq_true] at h
    cases hv with
    | head => exact h.1
    | tail _ hrest => exact ih h.2 hrest

/-- The members of an object that is part of a document are parts of it. -/
theorem isDocument_of_mem_members {members : Members} (h : areMembers members = true) {k : Scalar}
    {v : Value} (hmem : (k, v) ∈ members) : v.isDocument = true := by
  induction members with
  | nil => cases hmem
  | cons member rest ih =>
    simp only [areMembers, Bool.and_eq_true] at h
    cases hmem with
    | head => exact h.1.1
    | tail _ hrest => exact ih h.2 hrest

/-- A member of a document is found by its key. -/
theorem get?_of_mem {members : Members} (h : areMembers members = true) {k : Scalar} {v : Value}
    (hmem : (k, v) ∈ members) : members.get? k = some v := by
  induction members with
  | nil => cases hmem
  | cons member rest ih =>
    obtain ⟨first, w⟩ := member
    simp only [areMembers, Bool.and_eq_true, List.all_eq_true] at h
    cases hmem with
    | head => rw [Members.get?, if_pos (Scalar.same_self k)]
    | tail _ hrest =>
      have hother : k.same first = false := by simpa using h.1.2 (k, v) hrest
      rw [Members.get?, hother, if_neg Bool.false_ne_true, ih h.2 hrest]

/-- Items that are the same as themselves make a list that is. -/
theorem sameItems_self {items : List Value} (h : ∀ v ∈ items, v.same v = true) :
    sameItems items items = true := by
  induction items with
  | nil => simp [sameItems]
  | cons v rest ih =>
    rw [sameItems, h v List.mem_cons_self, ih fun w hw => h w (List.mem_cons_of_mem _ hw), Bool.and_self]

/-- Members whose counterparts are their own values are the same as their counterparts. -/
theorem sameMembers_of_get? {members others : Members}
    (h : ∀ k v, (k, v) ∈ members → others.get? k = some v ∧ v.same v = true) :
    sameMembers members others = true := by
  induction members with
  | nil => simp [sameMembers]
  | cons member rest ih =>
    obtain ⟨k, v⟩ := member
    obtain ⟨hget, hsame⟩ := h k v List.mem_cons_self
    rw [sameMembers, hget, ih fun key w hw => h key w (List.mem_cons_of_mem _ hw)]
    simpa using hsame

/-- Every value of a document is the same as itself. -/
theorem same_self {v : Value} (h : v.isDocument = true) : v.same v = true := by
  induction v using induction_parts with
  | scalar s => simpa only [same] using Scalar.same_self s
  | list items ih =>
    rw [isDocument] at h
    rw [same]
    exact sameItems_self fun w hw => ih w hw (isDocument_of_mem_items h hw)
  | object members ih =>
    rw [isDocument] at h
    rw [same, decide_eq_true rfl, Bool.true_and]
    exact sameMembers_of_get? fun k w hw =>
      ⟨get?_of_mem h hw, ih k w hw (isDocument_of_mem_members h hw)⟩

end Value

end SchemaTypes
