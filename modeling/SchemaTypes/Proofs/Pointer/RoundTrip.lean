import SchemaTypes.Proofs.Pointer
import SchemaTypes.Proofs.Schema.Discovery

/-!
# References and paths determine each other

Joining a path and splitting the reference again gives the path back, up to empty segments, which no
reference has. So the canonical spelling is a normal form: it is its own canonical spelling, and two
references have the same one exactly if they address the same path. This is why discovered
references can be remembered under it.

Escapes are read and written in one pass. The same comes of replacing one escape after the other
everywhere, provided that the slash is read first and written last.
-/

namespace SchemaTypes.Pointer

/-- Replace a pattern wherever it occurs, from left to right, after passing over some characters. -/
def replaceAfter (pattern replacement : List CodePoint) : Nat → List CodePoint → List CodePoint
  | _, [] => []
  | skipped + 1, _ :: rest => replaceAfter pattern replacement skipped rest
  | 0, c :: rest =>
    if pattern <+: c :: rest then
      replacement ++ replaceAfter pattern replacement (pattern.length - 1) rest
    else c :: replaceAfter pattern replacement 0 rest

/-- Replace a pattern wherever it occurs, from left to right. -/
def replaceAll (pattern replacement cs : List CodePoint) : List CodePoint :=
  replaceAfter pattern replacement 0 cs

/-- Where the pattern does not start, a character is kept. -/
theorem replaceAll_cons_of_not_start {pattern replacement : List CodePoint} {c : CodePoint}
    {rest : List CodePoint} (h : ¬pattern <+: c :: rest) :
    replaceAll pattern replacement (c :: rest) = c :: replaceAll pattern replacement rest := by
  rw [replaceAll, replaceAfter, if_neg h, replaceAll]

/-- A pair of characters at the start is replaced. -/
theorem replaceAll_pair (a b : CodePoint) (replacement rest : List CodePoint) :
    replaceAll [a, b] replacement (a :: b :: rest) =
      replacement ++ replaceAll [a, b] replacement rest := by
  rw [replaceAll, replaceAfter, if_pos (by simp)]
  rfl

/-- Single characters are replaced one by one. -/
theorem replaceAll_singleton (a c : CodePoint) (replacement rest : List CodePoint) :
    replaceAll [a] replacement (c :: rest) =
      (if c = a then replacement else [c]) ++ replaceAll [a] replacement rest := by
  by_cases h : c = a
  · rw [if_pos h, h, replaceAll, replaceAfter, if_pos (by simp)]
    rfl
  · rw [if_neg h, replaceAll_cons_of_not_start (by simp [Ne.symm h]), List.singleton_append]

/-- Replacing the escape of a slash brings no character to the front but a slash. -/
theorem head?_replaceAll_slash (cs : List CodePoint) :
    (replaceAll ['~', '1'] ['/'] cs).head? = cs.head? ∨
      (replaceAll ['~', '1'] ['/'] cs).head? = some ('/' : CodePoint) := by
  cases cs with
  | nil => exact Or.inl rfl
  | cons c rest =>
    by_cases h : [('~' : CodePoint), '1'] <+: c :: rest
    · rw [replaceAll, replaceAfter, if_pos h]
      exact Or.inr rfl
    · rw [replaceAll_cons_of_not_start h]
      exact Or.inl rfl

/-- Two characters start a text if the first is its head and the second that of the rest. -/
theorem pair_prefix_cons_iff {a b c : CodePoint} {rest : List CodePoint} :
    [a, b] <+: c :: rest ↔ a = c ∧ rest.head? = some b := by
  cases rest <;> simp [eq_comm]

/-- Reading the escapes of a segment replaces those of slashes first and then those of tildes. The
other way round, the tilde of `~01` would go on to make a slash. -/
theorem unescape_eq_replaceAll (piece : List CodePoint) :
    unescape piece = replaceAll ['~', '0'] ['~'] (replaceAll ['~', '1'] ['/'] piece) := by
  fun_induction unescape piece with
  | case1 => rfl
  | case2 rest ih =>
    have hslash : ¬[('~' : CodePoint), '0'] <+: ('/' : CodePoint) :: replaceAll ['~', '1'] ['/'] rest := by simp
    rw [replaceAll_pair, List.singleton_append, replaceAll_cons_of_not_start hslash, ih]
  | case3 rest ih =>
    have htilde : ¬[('~' : CodePoint), '1'] <+: ('~' : CodePoint) :: '0' :: rest := by simp
    have hzero : ¬[('~' : CodePoint), '1'] <+: ('0' : CodePoint) :: rest := by simp
    rw [replaceAll_cons_of_not_start htilde, replaceAll_cons_of_not_start hzero, replaceAll_pair,
      List.singleton_append, ih]
  | case4 c rest hslash htilde ih =>
    have hplain (b : CodePoint) (hb : ∀ others, c = '~' → rest = b :: others → False) :
        ¬(c = '~' ∧ rest.head? = some b) := by
      rintro ⟨hc, hhead⟩
      obtain ⟨others, hrest⟩ := List.head?_eq_some_iff.mp hhead
      exact hb others hc hrest
    have hkept : ¬[('~' : CodePoint), '1'] <+: c :: rest := by
      rw [pair_prefix_cons_iff, eq_comm]
      exact hplain '1' hslash
    -- what the first replacement puts behind the character is a slash or stood there before
    have hstays : ¬[('~' : CodePoint), '0'] <+: c :: replaceAll ['~', '1'] ['/'] rest := by
      rw [pair_prefix_cons_iff, eq_comm]
      rcases head?_replaceAll_slash rest with hhead | hhead <;> rw [hhead]
      · exact hplain '0' htilde
      · simp
    rw [replaceAll_cons_of_not_start hkept, replaceAll_cons_of_not_start hstays, ih]

/-- Writing a segment replaces its tildes first and then its slashes. -/
theorem escape_eq_replaceAll (segment : List CodePoint) :
    escape segment = replaceAll ['/'] ['~', '1'] (replaceAll ['~'] ['~', '0'] segment) := by
  induction segment with
  | nil => rfl
  | cons c rest ih =>
    rw [escape, replaceAll_singleton]
    split_ifs with htilde hslash
    · simp [replaceAll_singleton, ih]
    · simp [replaceAll_singleton, hslash, ih]
    · simp [replaceAll_singleton, hslash, ih]

/-- The paths of references have the same canonical spelling only if they are the same. -/
theorem join_split_eq_iff (ref other : Text) :
    join (split ref) = join (split other) ↔ split ref = split other :=
  ⟨join_injective (empty_not_mem_split ref) (empty_not_mem_split other), congrArg join⟩

/-- The canonical spelling of a reference addresses the same path. -/
theorem split_join_split (ref : Text) : split (join (split ref)) = split ref :=
  split_join_of_not_mem (empty_not_mem_split ref)

/-- Of references that have been discovered, exactly the canonical spellings are known, each with
the segments that it addresses. -/
theorem segments?_addAll_split (refs : List Text) (ref : Text) :
    (Discovery.empty.addAll (refs.map split)).segments? (join (split ref)) =
      if split ref ∈ refs.map split then some (split ref) else none := by
  have hpaths : ∀ path ∈ refs.map split, ("" : Text) ∉ path := by
    intro path hpath
    obtain ⟨other, -, rfl⟩ := List.mem_map.mp hpath
    exact empty_not_mem_split other
  rw [Discovery.empty_eq_ofPaths, Discovery.addAll_ofPaths (by simp) hpaths,
    Discovery.segments?_ofPaths (fun path hpath => hpaths path (by simpa [Discovery.mem_fresh] using hpath))
      (empty_not_mem_split ref)]
  simp [Discovery.mem_fresh]

/-- Splitting undoes joining but for empty segments, and no reference has any. The canonical spelling
is a normal form of references: two of them have the same one exactly if they address the same path,
it is its own canonical spelling, and among discovered references it leads to its own path alone. -/
theorem split_join_roundTrip :
    (∀ path : List Text, split (join path) = path.filter (· ≠ ("" : Text))) ∧
      (∀ path : List Text, ("" : Text) ∉ path → split (join path) = path) ∧
      (∀ ref, ("" : Text) ∉ split ref) ∧
      (∀ ref other, join (split ref) = join (split other) ↔ split ref = split other) ∧
      (∀ ref, join (split (join (split ref))) = join (split ref)) ∧
      ∀ (refs : List Text) (ref : Text),
        (Discovery.empty.addAll (refs.map split)).segments? (join (split ref)) =
          if split ref ∈ refs.map split then some (split ref) else none := by
  refine ⟨split_join, fun path => split_join_of_not_mem, empty_not_mem_split, join_split_eq_iff,
    fun ref => ?_, segments?_addAll_split⟩
  rw [split_join_split]

/-- Segments that look like escapes, slashes or anchors are written and read back. -/
theorem split_join_roundTrip_escapes :
    ("" : Text) ∉ [("~" : Text), "a/b", "#", "~0", "~1", "~01", "~~1"] ∧
      split (join ["~", "a/b", "#", "~0", "~1", "~01", "~~1"]) =
        [("~" : Text), "a/b", "#", "~0", "~1", "~01", "~~1"] := by
  have hpath : ("" : Text) ∉ [("~" : Text), "a/b", "#", "~0", "~1", "~01", "~~1"] := by decide
  exact ⟨hpath, split_join_roundTrip.2.1 _ hpath⟩

end SchemaTypes.Pointer
