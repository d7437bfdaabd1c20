import SchemaTypes.Proofs.BreadthFirst
import SchemaTypes.Proofs.Pointer
import SchemaTypes.Proofs.Schema.Build

/-!
# Discovery as a list of paths

A state of discovery stands for two lists of proper paths: those declared and those pending. It
remembers each under its canonical spelling, which determines the path. Remembering more paths
appends those that are new to the pending ones, each at its first occurrence.
-/

namespace SchemaTypes

namespace Discovery

open BreadthFirst

/-- The canonical spellings under which references are remembered. -/
def keys (d : Discovery) : List Text := d.found.map (·.1)

/-- A reference without segments is not remembered. -/
theorem segments?_eq_none_iff {d : Discovery} {key : Text} : d.segments? key = none ↔ key ∉ d.keys := by
  rw [segments?, Option.map_eq_none_iff, List.find?_eq_none, keys, List.mem_map, not_exists]
  refine forall_congr' fun entry => ?_
  rw [decide_eq_true_eq, not_and]

/-- Remembering a path appends it to both lists unless its spelling is known. -/
theorem add_eq (d : Discovery) (path : List Text) :
    d.add path =
      if Pointer.join path ∈ d.keys then d
      else ⟨d.found ++ [(Pointer.join path, path)], d.pending ++ [Pointer.join path]⟩ := by
  rw [add]
  by_cases hknown : Pointer.join path ∈ d.keys
  · obtain ⟨segments, hsegments⟩ := Option.ne_none_iff_exists'.mp
      (mt segments?_eq_none_iff.mp (not_not_intro hknown))
    rw [if_pos hknown, hsegments]
  · rw [if_neg hknown, segments?_eq_none_iff.mpr hknown]

/-- The spellings known after remembering a path are those known before and its own. -/
theorem mem_keys_add {d : Discovery} {path : List Text} {key : Text} :
    key ∈ (d.add path).keys ↔ key ∈ d.keys ∨ Pointer.join path = key := by
  rw [add_eq]
  by_cases hknown : Pointer.join path ∈ d.keys
  · rw [if_pos hknown]
    exact ⟨Or.inl, fun h => h.elim id fun hpath => hpath ▸ hknown⟩
  · rw [if_neg hknown]
    simp [keys, eq_comm]

/-- The spellings known after remembering several paths are those known before and theirs. -/
theorem mem_keys_addAll {d : Discovery} {paths : List (List Text)} {key : Text} :
    key ∈ (d.addAll paths).keys ↔ key ∈ d.keys ∨ ∃ path ∈ paths, Pointer.join path = key := by
  induction paths generalizing d with
  | nil => simp
  | cons path rest ih =>
    change key ∈ ((d.add path).addAll rest).keys ↔ _
    rw [ih, mem_keys_add, or_assoc]
    simp

/-- The state in which some paths have been taken up for declaration and others are pending. -/
def ofPaths (declared pending : List (List Text)) : Discovery :=
  ⟨(declared ++ pending).map fun path => (Pointer.join path, path), pending.map Pointer.join⟩

/-- The state in which nothing is discovered stands for no paths. -/
theorem empty_eq_ofPaths : empty = ofPaths [] [] := rfl

/-- The references are remembered under the canonical spellings of the paths. -/
theorem keys_ofPaths (declared pending : List (List Text)) :
    (ofPaths declared pending).found.map (·.1) = (declared ++ pending).map Pointer.join := by
  rw [ofPaths, List.map_map]
  rfl

/-- The references are remembered with the segments of the paths. -/
theorem paths_ofPaths (declared pending : List (List Text)) :
    (ofPaths declared pending).found.map (·.2) = declared ++ pending := by
  rw [ofPaths, List.map_map]
  exact List.map_id _

/-- The paths of a list that are not known yet, each at its first occurrence. -/
def fresh (known paths : List (List Text)) : List (List Text) := (paths.removeAll known).eraseDups

/-- Known paths followed by the fresh ones are the first occurrences among all. -/
theorem append_fresh {known : List (List Text)} (h : known.Nodup) (paths : List (List Text)) :
    known ++ fresh known paths = (known ++ paths).eraseDups := by
  rw [List.eraseDups_append, eraseDups_of_nodup h, fresh]

/-- A path is fresh if it is given and not known. -/
theorem mem_fresh {known paths : List (List Text)} {path : List Text} :
    path ∈ fresh known paths ↔ path ∈ paths ∧ path ∉ known := by
  simp [fresh, List.removeAll]

/-- Known paths and fresh ones are all different. -/
theorem nodup_append_fresh {known : List (List Text)} (h : known.Nodup)
    (paths : List (List Text)) : (known ++ fresh known paths).Nodup :=
  append_fresh h paths ▸ eraseDups_nodup _

/-- One more path is fresh unless it occurred before. -/
theorem fresh_concat (known paths : List (List Text)) (path : List Text) :
    fresh known (paths ++ [path]) =
      if path ∈ known ++ fresh known paths then fresh known paths
      else fresh known paths ++ [path] := by
  have hmem : path ∈ known ++ fresh known paths ↔ path ∈ known ∨ path ∈ paths.removeAll known := by
    rw [List.mem_append, fresh, List.mem_eraseDups]
  have hremove : (paths ++ [path]).removeAll known =
      paths.removeAll known ++ if path ∈ known then [] else [path] := by
    by_cases hknown : path ∈ known <;> simp [List.removeAll, hknown]
  rw [fresh, hremove, if_congr hmem rfl rfl]
  by_cases hknown : path ∈ known
  · rw [if_pos hknown, if_pos (Or.inl hknown), List.append_nil, fresh]
  · rw [if_neg hknown, eraseDups_concat]
    simp only [hknown, false_or, fresh]

/-- A discovered path is found under its canonical spelling, and nothing else is. -/
theorem find?_join {known : List (List Text)} (hknown : ∀ path ∈ known, ("" : Text) ∉ path)
    {path : List Text} (hpath : ("" : Text) ∉ path) :
    (known.map fun p => (Pointer.join p, p)).find? (fun entry => entry.1 = Pointer.join path) =
      if path ∈ known then some (Pointer.join path, path) else none := by
  induction known with
  | nil => rfl
  | cons p rest ih =>
    have hrest := ih fun q hq => hknown q (List.mem_cons_of_mem p hq)
    rw [List.map_cons, List.find?_cons]
    by_cases hp : p = path
    · simp [hp]
    · have hjoin : Pointer.join p ≠ Pointer.join path := fun h =>
        hp (Pointer.join_injective (hknown p List.mem_cons_self) hpath h)
      rw [hrest]
      simp [hjoin, Ne.symm hp]

/-- The segments remembered under the canonical spelling of a path are those of the path. -/
theorem segments?_ofPaths {declared pending : List (List Text)}
    (hknown : ∀ path ∈ declared ++ pending, ("" : Text) ∉ path) {path : List Text} (hpath : ("" : Text) ∉ path) :
    (ofPaths declared pending).segments? (Pointer.join path) =
      if path ∈ declared ++ pending then some path else none := by
  rw [segments?, ofPaths, find?_join hknown hpath]
  split <;> rfl

/-- Remembering a path appends it to the pending ones unless it is known. -/
theorem add_ofPaths {declared pending : List (List Text)}
    (hknown : ∀ path ∈ declared ++ pending, ("" : Text) ∉ path) {path : List Text} (hpath : ("" : Text) ∉ path) :
    (ofPaths declared pending).add path =
      ofPaths declared (if path ∈ declared ++ pending then pending else pending ++ [path]) := by
  rw [add, segments?_ofPaths hknown hpath]
  by_cases hmem : path ∈ declared ++ pending
  · rw [if_pos hmem, if_pos hmem]
  · rw [if_neg hmem, if_neg hmem]
    simp [ofPaths]

/-- Remembering several paths appends the fresh ones to the pending ones. -/
theorem addAll_ofPaths {declared pending paths : List (List Text)}
    (hknown : ∀ path ∈ declared ++ pending, ("" : Text) ∉ path) (hpaths : ∀ path ∈ paths, ("" : Text) ∉ path) :
    (ofPaths declared pending).addAll paths =
      ofPaths declared (pending ++ fresh (declared ++ pending) paths) := by
  induction paths using List.reverseRecOn with
  | nil => simp [fresh]
  | append_singleton paths path ih =>
    have hpaths' : ∀ p ∈ paths, ("" : Text) ∉ p := fun p hp => hpaths p (List.mem_append_left _ hp)
    have hpath : ("" : Text) ∉ path := hpaths path (List.mem_append_right _ (List.mem_singleton_self path))
    have hall : ∀ p ∈ declared ++ (pending ++ fresh (declared ++ pending) paths), ("" : Text) ∉ p := by
      intro p hp
      rw [← List.append_assoc, List.mem_append] at hp
      rcases hp with hp | hp
      · exact hknown p hp
      · exact hpaths' p (mem_fresh.mp hp).1
    rw [addAll_append, ih hpaths']
    change (ofPaths declared (pending ++ fresh (declared ++ pending) paths)).add path = _
    rw [add_ofPaths hall hpath, fresh_concat, ← List.append_assoc]
    split
    · rfl
    · rw [List.append_assoc]

/-- Paths that lead to the same state when nothing is pending bring the same fresh paths. -/
theorem fresh_eq_of_addAll_eq {known paths others : List (List Text)}
    (hknown : ∀ path ∈ known, Pointer.Proper path) (hpaths : ∀ path ∈ paths, Pointer.Proper path)
    (hothers : ∀ path ∈ others, Pointer.Proper path)
    (h : (ofPaths known []).addAll paths = (ofPaths known []).addAll others) :
    fresh known paths = fresh known others := by
  have hnone : ∀ path ∈ known ++ [], ("" : Text) ∉ path := by
    rw [List.append_nil]
    exact fun path hpath => (hknown path hpath).no_empty
  rw [addAll_ofPaths hnone fun path hpath => (hpaths path hpath).no_empty,
    addAll_ofPaths hnone fun path hpath => (hothers path hpath).no_empty, List.append_nil] at h
  have hfound := congrArg (fun d : Discovery => d.found.map (·.2)) h
  simpa [ofPaths, Function.comp_def] using hfound

end Discovery

end SchemaTypes
