import Mathlib.Data.List.Nodup
import SchemaTypes.Proofs.Api.Closed
import SchemaTypes.Proofs.Api.EmissionWalk

/-!
# Operation ids

An id that is asked for again gets a number from two on behind an underscore. The numbers keep apart
the operations that ask for one and the same id. Numbered ids are not remembered though: one of them
may also be asked for as it is, before or after it was made up.

Ids given out one after the other are all different if no id that is asked for is one of the numbered
ids made up for the repeated ones, and only then. The walk compiles the operations of a document under
the ids given out for what they ask for, so this decides whether two operations share an id.
-/

namespace SchemaTypes.Api

open Faulting

/-- The id for a text that was asked for some number of times before. -/
def numberedId (id : Text) (earlier : Nat) : Text :=
  if earlier = 0 then id else id ++ "_" ++ toString (earlier + 1)

/-- Counts that tell how often each text was asked for. -/
def Counts (asked : List Text) (counts : List (Text × Nat)) : Prop :=
  ∀ id, counts.lookup id = if id ∈ asked then some (asked.count id) else none

/-- Each text asked for, with the number of times it was asked for before. -/
def occurrences : List Text → List Text → List (Text × Nat)
  | _, [] => []
  | asked, id :: rest => (id, asked.count id) :: occurrences (id :: asked) rest

/-- Giving out an id raises the count of its text by one. -/
theorem lookup_uniqueId (id other : Text) (counts : List (Text × Nat)) :
    (uniqueId id counts).2.lookup other =
      if other = id then some ((counts.lookup id).getD 0 + 1) else counts.lookup other := by
  induction counts with
  | nil => by_cases heq : other = id <;> simp [uniqueId, List.lookup_cons, heq, beq_false_of_ne]
  | cons entry rest ih =>
    obtain ⟨key, count⟩ := entry
    by_cases hkey : key = id
    · subst hkey
      by_cases heq : other = key <;> simp [uniqueId, List.lookup_cons, heq, beq_false_of_ne]
    · have hid : (id == key) = false := beq_false_of_ne (Ne.symm hkey)
      by_cases heq : other = key
      · simp [uniqueId, hkey, heq]
      · simp [uniqueId, List.lookup_cons, hkey, hid, beq_false_of_ne heq, ih]

/-- At the start nothing was asked for. -/
theorem counts_nil : Counts [] [] := fun _ => rfl

namespace Counts

variable {asked : List Text} {counts : List (Text × Nat)}

/-- A text gets the number of times that it was asked for. -/
theorem uniqueId_fst (h : Counts asked counts) (id : Text) :
    (uniqueId id counts).1 = numberedId id (asked.count id) := by
  rw [Api.uniqueId_fst, h id, numberedId]
  by_cases hmem : id ∈ asked
  · rw [if_pos hmem, if_neg (Nat.ne_of_gt (List.count_pos_iff.mpr hmem))]
  · rw [if_neg hmem, if_pos (List.count_eq_zero.mpr hmem)]

/-- Giving out an id counts its text as asked for. -/
theorem uniqueId_snd (h : Counts asked counts) (id : Text) :
    Counts (id :: asked) (uniqueId id counts).2 := by
  intro other
  rw [lookup_uniqueId, h id, h other]
  by_cases heq : other = id
  · subst heq
    by_cases hmem : other ∈ asked
    · simp [hmem]
    · simp [hmem, List.count_eq_zero.mpr hmem]
  · simp [heq, List.count_cons_of_ne (Ne.symm heq)]

/-- The ids given out are the texts, numbered by their occurrences. -/
theorem giveIds_fst (h : Counts asked counts) (ids : List Text) :
    (giveIds ids counts).1 = (occurrences asked ids).map fun o => numberedId o.1 o.2 := by
  induction ids generalizing asked counts with
  | nil => rfl
  | cons id rest ih =>
    rw [occurrences, List.map_cons, ← h.uniqueId_fst, ← ih (h.uniqueId_snd id)]
    rfl

end Counts

/-- The occurrences of a text are numbered from the count at the start on. -/
theorem mem_occurrences {asked ids : List Text} {id : Text} {n : Nat} :
    (id, n) ∈ occurrences asked ids ↔
      asked.count id ≤ n ∧ n < asked.count id + ids.count id := by
  induction ids generalizing asked with
  | nil =>
    simp only [occurrences, List.not_mem_nil, List.count_nil, false_iff]
    omega
  | cons first rest ih =>
    rw [occurrences, List.mem_cons, ih, Prod.mk.injEq]
    by_cases heq : id = first
    · subst heq
      rw [List.count_cons_self, List.count_cons_self]
      simp only [true_and]
      omega
    · rw [List.count_cons_of_ne (Ne.symm heq), List.count_cons_of_ne (Ne.symm heq)]
      simp [heq]

/-- No two occurrences of a text have the same number. -/
theorem nodup_occurrences (asked ids : List Text) : (occurrences asked ids).Nodup := by
  induction ids generalizing asked with
  | nil => exact List.nodup_nil
  | cons id rest ih =>
    rw [occurrences, List.nodup_cons, mem_occurrences, List.count_cons_self]
    exact ⟨by omega, ih (id :: asked)⟩

/-- Lists are divided at the last occurrence of an item in one way only. -/
theorem append_cons_inj_of_not_mem {α : Type} {a : α} {front other back tail : List α}
    (hback : a ∉ back) (htail : a ∉ tail) (h : front ++ a :: back = other ++ a :: tail) :
    front = other ∧ back = tail := by
  rcases List.append_eq_append_iff.mp h with ⟨between, rfl, hrest⟩ | ⟨between, rfl, hrest⟩
  · cases between with
    | nil => exact ⟨(List.append_nil _).symm, (List.cons.inj hrest).2⟩
    | cons b others =>
      refine absurd ?_ hback
      rw [(List.cons.inj hrest).2]
      exact List.mem_append_right _ List.mem_cons_self
  · cases between with
    | nil => exact ⟨List.append_nil _, (List.cons.inj hrest).2.symm⟩
    | cons b others =>
      refine absurd ?_ htail
      rw [(List.cons.inj hrest).2]
      exact List.mem_append_right _ List.mem_cons_self

/-- The numeral of a number holds no underscore. -/
theorem underscore_not_mem_numeral (n : Nat) : ('_' : CodePoint) ∉ (Text.ofString (toString n)).toList := by
  intro h
  obtain ⟨c, hc, heq⟩ := List.mem_map.mp h
  have hdigit : c.isDigit = true :=
    Nat.isDigit_of_mem_toDigits (by decide) (by decide) (Nat.toList_repr ▸ hc)
  rw [CodePoint.scalar.inj heq] at hdigit
  exact absurd hdigit (by decide)

/-- A numbered id determines its text and its number. -/
theorem append_number_inj {id other : Text} {m n : Nat}
    (h : id ++ "_" ++ toString m = other ++ "_" ++ toString n) : id = other ∧ m = n := by
  rw [Text.append_assoc, Text.append_assoc] at h
  obtain ⟨hid, hnumber⟩ := append_cons_inj_of_not_mem (underscore_not_mem_numeral m)
    (underscore_not_mem_numeral n) (Text.toList_inj.mpr h)
  exact ⟨Text.toList_inj.mp hid, toString_inj (Text.toList_inj.mp hnumber)⟩

/-- No text that is asked for is one of the numbered ids made up for the repeated ones. -/
def NumbersUnclaimed (ids : List Text) : Prop :=
  ∀ id ∈ ids, ∀ n, 2 ≤ n → n ≤ ids.count id → id ++ "_" ++ toString n ∉ ids

/-- Ids given out one after the other are all different if and only if no numbered id among them is
asked for as it is. -/
theorem nodup_giveIds_iff (ids : List Text) :
    (giveIds ids []).1.Nodup ↔ NumbersUnclaimed ids := by
  rw [counts_nil.giveIds_fst, List.nodup_map_iff_inj_on (nodup_occurrences [] ids)]
  have hmem (id : Text) (n : Nat) : (id, n) ∈ occurrences [] ids ↔ n < ids.count id := by
    simp [mem_occurrences]
  constructor
  · intro hinj id _ n htwo hcount hasked
    -- The numbered id would be given out twice: for its text and to the one that asks for it.
    have hfirst := (hmem (id ++ "_" ++ toString n) 0).mpr (List.count_pos_iff.mpr hasked)
    have hother := (hmem id (n - 1)).mpr (by omega)
    have heq : numberedId (id ++ "_" ++ toString n) 0 = numberedId id (n - 1) := by
      rw [numberedId, numberedId, if_pos rfl, if_neg (by omega), Nat.sub_add_cancel (by omega)]
    have hzero := congrArg Prod.snd (hinj _ hfirst _ hother heq)
    dsimp only at hzero
    omega
  · rintro hfree ⟨id, m⟩ hid ⟨other, n⟩ hother heq
    rw [hmem] at hid hother
    dsimp only [numberedId] at heq
    have hin {text : Text} {k : Nat} (h : k < ids.count text) : text ∈ ids :=
      List.count_pos_iff.mp (by omega)
    split_ifs at heq with hm hn hn
    · rw [heq, hm, hn]
    · exact absurd (heq ▸ hin hid) (hfree other (hin hother) (n + 1) (by omega) (by omega))
    · exact absurd (heq ▸ hin hother) (hfree id (hin hid) (m + 1) (by omega) (by omega))
    · obtain ⟨hsame, hnumber⟩ := append_number_inj heq
      rw [hsame, Nat.succ_inj.mp hnumber]

/-- The walk compiles the operations of a document under the ids given out for what they ask for. -/
theorem inputOperations_of_walk {setting : Setting} {state : State}
    (h : (walk setting).run .initial = .ok ((), state)) :
    inputOperations state.entries = (giveIds (requestedIds setting.overlay.document) []).1 := by
  obtain ⟨added, hadded, hinputs, -⟩ := (walk_emits setting .initial () state h).entries
  rw [hadded]
  exact hinputs

/-- Ids given out one after the other are all different if and only if no numbered id among them is
asked for as it is. Accordingly no two operations of a document that ask for these ids are compiled under
the same one. -/
theorem operationIds_distinct_iff (ids : List Text) :
    ((giveIds ids []).1.Nodup ↔ NumbersUnclaimed ids) ∧
      ∀ (setting : Setting) (state : State), requestedIds setting.overlay.document = ids →
        (walk setting).run .initial = .ok ((), state) →
          inputOperations state.entries = (giveIds ids []).1 ∧
            ((inputOperations state.entries).Nodup ↔ NumbersUnclaimed ids) := by
  refine ⟨nodup_giveIds_iff ids, fun setting state hids hwalk => ?_⟩
  have hinputs := inputOperations_of_walk hwalk
  rw [hids] at hinputs
  exact ⟨hinputs, hinputs ▸ nodup_giveIds_iff ids⟩

/-- A document with one operation for each of the given ids, which asks for it. -/
def askingDocument (ids : List Text) : Members :=
  [(.text "paths", .record (ids.zipIdx.map fun (id, i) =>
    ("/" ++ toString i, .record [("get", .record [("operationId", .text id)])])))]

/-- The setting of such a document. -/
def askingSetting (ids : List Text) : Setting :=
  ⟨⟨askingDocument ids, [], []⟩, .standard, .text "API", .default⟩

/-- Operations that ask for one id several times are compiled under different ids. -/
theorem operationIds_distinct_iff_repeated :
    ∃ state, (walk (askingSetting ["a", "b", "a", "a"])).run .initial = .ok ((), state) ∧
      inputOperations state.entries = [("a" : Text), "b", "a_2", "a_3"] ∧
      NumbersUnclaimed ["a", "b", "a", "a"] := by
  obtain ⟨⟨⟨⟩, state⟩, hwalk⟩ := exists_eq_ok
    (show ((walk (askingSetting ["a", "b", "a", "a"])).run .initial).toOption.isSome = true by
      decide +kernel)
  obtain ⟨hiff, hrun⟩ := operationIds_distinct_iff ["a", "b", "a", "a"]
  have hids : requestedIds (askingSetting ["a", "b", "a", "a"]).overlay.document =
      ["a", "b", "a", "a"] := by decide +kernel
  exact ⟨state, hwalk, (hrun _ state hids hwalk).1.trans (by decide +kernel),
    hiff.mp (by decide +kernel)⟩

/-- An operation that asks for a numbered id shares it with the one it was made up for. -/
theorem operationIds_shared :
    ∃ state, (walk (askingSetting ["a", "a_2", "a"])).run .initial = .ok ((), state) ∧
      inputOperations state.entries = [("a" : Text), "a_2", "a_2"] ∧
      ¬(inputOperations state.entries).Nodup := by
  obtain ⟨⟨⟨⟩, state⟩, hwalk⟩ := exists_eq_ok
    (show ((walk (askingSetting ["a", "a_2", "a"])).run .initial).toOption.isSome = true by
      decide +kernel)
  have hinputs : inputOperations state.entries = [("a" : Text), "a_2", "a_2"] :=
    (inputOperations_of_walk hwalk).trans (by decide +kernel)
  exact ⟨state, hwalk, hinputs, hinputs ▸ by decide⟩

end SchemaTypes.Api
