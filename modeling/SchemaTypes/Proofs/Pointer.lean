import Mathlib.Tactic.SplitIfs
import SchemaTypes.Pointer
import SchemaTypes.Proofs.Text.Join

/-!
# Canonical references

Splitting undoes joining but for empty segments, which a reference cannot write. The paths that
references address have no empty segments, so the canonical spelling of such a path determines
the path: two of them have the same spelling only if they are the same.
-/

namespace SchemaTypes.Pointer

/-- Reading the escapes of a segment undoes writing them. -/
theorem unescape_escape (segment : List CodePoint) : unescape (escape segment) = segment := by
  induction segment with
  | nil => rfl
  | cons c rest ih =>
    rw [escape]
    split_ifs with htilde hslash
    · rw [unescape, ih, htilde]
    · rw [unescape, ih, hslash]
    · rw [unescape, ih]
      · intro _ hc
        exact absurd hc htilde
      · intro _ hc
        exact absurd hc htilde

/-- A segment with escapes holds no slash. -/
theorem slash_not_mem_escape (segment : List CodePoint) : ('/' : CodePoint) ∉ escape segment := by
  induction segment with
  | nil => exact List.not_mem_nil
  | cons c rest ih =>
    rw [escape]
    split_ifs with htilde hslash
    · simp [ih]
    · simp [ih]
    · simp [ih, Ne.symm hslash]

/-- Only the empty segment is written as nothing. -/
theorem escape_isEmpty (segment : List CodePoint) : (escape segment).isEmpty = segment.isEmpty := by
  cases segment with
  | nil => rfl
  | cons c rest =>
    rw [escape]
    split_ifs <;> rfl

/-- Only nothing is read as the empty segment. -/
theorem unescape_eq_nil {piece : List CodePoint} : unescape piece = [] ↔ piece = [] := by
  fun_cases unescape piece <;> simp_all

/-- The characters of a canonical reference after its anchor. -/
theorem dropAnchor_join (path : List Text) :
    dropAnchor (join path).toList =
      ('/' : CodePoint) :: (Text.joinWith (Text.singleton '/')
        (path.map fun segment => Text.ofList (escape segment.toList))).toList := by
  rw [join, Text.toList_append]
  rfl

/-- The pieces of a canonical reference are the written segments of its path. -/
theorem splitAt_join (first : Text) (rest : List Text) :
    Text.splitAt '/' (dropAnchor (join (first :: rest)).toList) =
      [] :: (first :: rest).map fun segment => escape segment.toList := by
  rw [dropAnchor_join, Text.splitAt, if_pos rfl, Text.splitAt_joinWith (by simp)]
  · rw [List.map_map]
    refine congrArg (List.cons []) (List.map_congr_left fun segment _ => ?_)
    exact Text.toList_ofList _
  · intro s hs
    obtain ⟨segment, -, rfl⟩ := List.mem_map.mp hs
    rw [Text.toList_ofList]
    exact slash_not_mem_escape segment.toList

/-- The segments of the canonical spelling of a path are those of the path that are not empty. -/
theorem split_join (path : List Text) : split (join path) = path.filter (· ≠ ("" : Text)) := by
  cases path with
  | nil => rfl
  | cons first rest =>
    have hkept : ((fun piece : List CodePoint => !piece.isEmpty) ∘ fun segment : Text =>
        escape segment.toList) = fun segment : Text => decide (segment ≠ "") := by
      funext segment
      rw [Function.comp_apply, escape_isEmpty]
      by_cases hsegment : segment = "" <;> simp [hsegment]
    have hread : ((fun piece => Text.ofList (unescape piece)) ∘ fun segment : Text =>
        escape segment.toList) = id := by
      funext segment
      rw [Function.comp_apply, unescape_escape, Text.ofList_toList, id]
    rw [split, splitAt_join, List.filter_cons_of_neg (by simp), List.filter_map, List.map_map, hkept,
      hread, List.map_id]

/-- No segment of a reference is empty. -/
theorem empty_not_mem_split (ref : Text) : ("" : Text) ∉ split ref := by
  intro h
  obtain ⟨piece, hpiece, hempty⟩ := List.mem_map.mp h
  obtain ⟨-, hkept⟩ := List.mem_filter.mp hpiece
  have hnil : unescape piece = [] := by
    have htoList := congrArg Text.toList hempty
    rwa [Text.toList_ofList] at htoList
  rw [unescape_eq_nil.mp hnil] at hkept
  exact absurd hkept (by decide)

/-- A path that a reference can address apart from the document itself: it has segments, and none
of them is empty. -/
structure Proper (path : List Text) : Prop where
  ne_nil : path ≠ []
  no_empty : ("" : Text) ∉ path

/-- The last segment of such a path is not empty. -/
theorem Proper.getLastD_ne_empty {path : List Text} (h : Proper path) : path.getLastD "" ≠ "" := by
  rw [List.getLastD_eq_getLast?, List.getLast?_eq_some_getLast h.ne_nil, Option.getD_some]
  exact fun hempty => h.no_empty (hempty ▸ List.getLast_mem h.ne_nil)

/-- A joined reference addresses the document it stands in. -/
theorem isLocal_join (path : List Text) : isLocal (join path) = true := by
  simp [isLocal, join]

/-- Joining the segments of a reference and splitting again gives the same segments. -/
theorem split_join_of_not_mem {path : List Text} (h : ("" : Text) ∉ path) : split (join path) = path := by
  rw [split_join, List.filter_eq_self]
  intro segment hsegment
  exact decide_eq_true fun hempty => h (hempty ▸ hsegment)

/-- Two paths without empty segments have the same canonical spelling only if they are the same. -/
theorem join_injective {path other : List Text} (hpath : ("" : Text) ∉ path) (hother : ("" : Text) ∉ other)
    (h : join path = join other) : path = other := by
  rw [← split_join_of_not_mem hpath, h, split_join_of_not_mem hother]

end SchemaTypes.Pointer
