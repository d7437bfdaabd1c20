import SchemaTypes.Command.Files
import SchemaTypes.Proofs.Faulting

/-!
# What writing a file leaves as it is

The files are seen as a map from places to contents. Making directories does not change this map,
whether it succeeds or stops halfway. Writing a file within its directories either does no more than
that, or changes the map at the place of the file alone; the file is then found at its path, since
the directories that lead there are still directories.
-/

namespace SchemaTypes.Command.Files

variable {before middle after files made written : Files} {path : Path} {place other : Place}
  {content : Bytes} {text : Text}

/-- The content of the file at a place, if there is one. -/
def content? (files : Files) (place : Place) : Option Bytes :=
  match files.node place with
  | .file content => some content
  | _ => none

/-- The content at a place is that of the first file with this place. -/
theorem content?_eq_find? (files : Files) (place : Place) :
    files.content? place = (files.contents.find? fun file => file.1 = place).map (·.2) := by
  rw [content?, node]
  cases files.contents.find? fun file => file.1 = place with
  | none => cases place.isAbove || files.directories.contains place <;> rfl
  | some file => rfl

/-- A directory is where no file is, and where one was made unless it lies above all places. -/
theorem node_eq_directory_iff :
    files.node place = .directory ↔
      files.content? place = none ∧ (place.isAbove = true ∨ place ∈ files.directories) := by
  rw [content?_eq_find?, node, ← List.contains_iff_mem, ← Bool.or_eq_true]
  cases files.contents.find? fun file => file.1 = place with
  | none => cases place.isAbove || files.directories.contains place <;> simp
  | some file => simp

/-- Directories may have been made, and nothing else was done. -/
structure Grown (before after : Files) : Prop where
  contents : after.contents = before.contents
  directories : before.directories ⊆ after.directories

namespace Grown

/-- Nothing was done. -/
theorem refl (files : Files) : Grown files files := ⟨rfl, List.Subset.refl _⟩

/-- Directories may be made at one time and at another. -/
theorem trans (h : Grown before middle) (hnext : Grown middle after) : Grown before after :=
  ⟨hnext.contents.trans h.contents, List.Subset.trans h.directories hnext.directories⟩

/-- Making directories leaves every file as it is. -/
theorem content?_eq (h : Grown before after) (place : Place) :
    after.content? place = before.content? place := by
  rw [content?_eq_find?, content?_eq_find?, h.contents]

/-- Making directories leaves every directory as it is. -/
theorem node_eq_directory (h : Grown before after) (hplace : before.node place = .directory) :
    after.node place = .directory := by
  obtain ⟨hnone, hthere⟩ := node_eq_directory_iff.mp hplace
  exact node_eq_directory_iff.mpr ⟨(h.content?_eq place).trans hnone, hthere.imp_right (h.directories ·)⟩

end Grown

/-- A directory that is made is added to the others. -/
theorem grown_of_makeDirectory (h : files.makeDirectory path = .ok made) : Grown files made := by
  obtain ⟨place, -, h⟩ := Faulting.bind_eq_ok h
  split at h
  · cases h
    exact ⟨rfl, List.subset_append_left _ _⟩
  · cases h

/-- Making a directory and those it is in does nothing else, however far it comes. -/
theorem grown_makeDirectories (files : Files) (path : Path) (depth : Nat) :
    Grown files (files.makeDirectories path depth).2 := by
  fun_induction makeDirectories files path depth with
  | case1 path made hmade => exact grown_of_makeDirectory hmade
  | case2 path fault => exact .refl files
  | case3 path depth made hmade => exact grown_of_makeDirectory hmade
  | case4 path depth _ _ _ fault above habove ih =>
    rw [habove] at ih
    exact ih
  | case5 path depth _ _ _ above habove made hmade ih =>
    rw [habove] at ih
    exact ih.trans (grown_of_makeDirectory hmade)
  | case6 path depth _ _ _ above habove fault _ ih =>
    rw [habove] at ih
    exact ih
  | case7 path depth fault => exact .refl files

/-- The content that is set at a place is found there, and all else is as before. -/
theorem find?_put (place other : Place) (content : Bytes) (contents : List (Place × Bytes)) :
    (put place content contents).find? (fun file => file.1 = other) =
      if place = other then some (place, content) else contents.find? fun file => file.1 = other := by
  fun_induction put place content contents with
  | case1 => by_cases h : place = other <;> simp [h]
  | case2 old rest => by_cases h : place = other <;> simp [h]
  | case3 p old rest hne ih =>
    rw [List.find?_cons, List.find?_cons, ih]
    by_cases h : p = other
    · have hother : place ≠ other := fun heq => hne (h.trans heq.symm)
      simp [h, hother]
    · simp [h]

/-- The files after a content is set at a place. -/
theorem content?_put (files : Files) (place other : Place) (content : Bytes) :
    ({ files with contents := put place content files.contents } : Files).content? other =
      if place = other then some content else files.content? other := by
  rw [content?_eq_find?, content?_eq_find?, find?_put]
  by_cases h : place = other <;> simp [h]

section Kept

variable (hkept : ∀ place, before.node place = .directory → after.node place = .directory)
include hkept

/-- Names that lead to a place still lead there if every directory is still one. -/
theorem locateFrom_of_directories {names : List Text}
    (h : before.locateFrom place names = .ok other) :
    after.locateFrom place names = .ok other := by
  induction names generalizing place with
  | nil => exact h
  | cons name rest ih =>
    rw [locateFrom] at h ⊢
    cases hnode : before.node place with
    | file content => rw [hnode] at h; cases h
    | nothing => rw [hnode] at h; cases h
    | directory =>
      rw [hnode] at h
      rw [hkept place hnode]
      by_cases hlong : nameLimit < Path.byteSize name
      · simp only [hlong, if_true] at h
        cases h
      · simp only [hlong, if_false] at h ⊢
        exact ih h

/-- A path that leads to a place still leads there if every directory is still one. -/
theorem locate_of_directories (h : before.locate path = .ok place) : after.locate path = .ok place := by
  rw [locate] at h ⊢
  by_cases hencodable : !path.isEncodable
  · rw [if_pos hencodable] at h
    cases h
  by_cases hnull : path.hasNull
  · rw [if_neg hencodable, if_pos hnull] at h
    cases h
  by_cases hlong : pathLimit < Path.byteSize path.toText
  · rw [if_neg hencodable, if_neg hnull, if_pos hlong] at h
    cases h
  rw [if_neg hencodable, if_neg hnull, if_neg hlong] at h ⊢
  cases hnames : before.locateFrom (.startOf path) path.names with
  | error cause => rw [hnames] at h; cases h
  | ok found =>
    rw [hnames] at h
    rw [locateFrom_of_directories hkept hnames]
    exact h

end Kept

/-- The content at the place of a path is read from the path. -/
theorem read_eq_ok (hplace : files.locate path = .ok place) (h : files.content? place = some content) :
    files.read path = .ok content := by
  have hnode : files.node place = .file content := by
    rw [content?] at h
    split at h
    · rename_i hnode
      cases h
      exact hnode
    · cases h
  simp only [read, hplace, bind, Except.bind, hnode]

/-- A file was written, the one at a path, and all other files and all directories are as before. -/
structure OnlyWrote (before after : Files) (path : Path) (content : Bytes) : Prop where
  read : after.read path = .ok content
  others : ∀ place, after.locate path ≠ .ok place → after.content? place = before.content? place
  directories : ∀ place, before.node place = .directory → after.node place = .directory

/-- The encoding of a text was written to a file, and nothing else was. -/
def OnlyWroteText (before after : Files) (path : Path) (text : Text) : Prop :=
  ∃ content, Text.encodeUtf8? text.toList = some content ∧ OnlyWrote before after path content

/-- Writing a file changes no other file. -/
theorem onlyWroteText_of_write (h : files.write path text = .ok written) :
    OnlyWroteText files written path text := by
  obtain ⟨place, hplace, h⟩ := Faulting.bind_eq_ok h
  split at h
  · cases h
  rename_i hnode
  cases hcontent : Text.encodeUtf8? text.toList with
  | none =>
    rw [hcontent] at h
    cases h
  | some content =>
    rw [hcontent] at h
    cases h
    refine ⟨content, hcontent, ?_⟩
    have hdirectories : ∀ other, files.node other = .directory →
        ({ files with contents := put place content files.contents } : Files).node other = .directory := by
      intro other hother
      have hne : place ≠ other := fun heq => hnode (heq ▸ hother)
      obtain ⟨hnone, hthere⟩ := node_eq_directory_iff.mp hother
      refine node_eq_directory_iff.mpr ⟨?_, hthere⟩
      rw [content?_put, if_neg hne, hnone]
    have hlocate := locate_of_directories hdirectories hplace
    refine ⟨read_eq_ok hlocate ?_, fun other hother => ?_, hdirectories⟩
    · rw [content?_put, if_pos rfl]
    · have hne : place ≠ other := fun heq => hother (heq ▸ hlocate)
      rw [content?_put, if_neg hne]

/-- Files that are written after directories were made are written all the same. -/
theorem OnlyWrote.of_grown (h : OnlyWrote made written path content) (hgrown : Grown files made) :
    OnlyWrote files written path content where
  read := h.read
  others place hplace := (h.others place hplace).trans (hgrown.content?_eq place)
  directories place hplace := h.directories place (hgrown.node_eq_directory hplace)

/-- Writing a file within its directories writes that file only, or makes directories at most. -/
theorem writeWithin_spec (files : Files) (path : Path) (text : Text) :
    (∃ fault made, files.writeWithin path text = (.error fault, made) ∧ Grown files made) ∨
      ∃ written, files.writeWithin path text = (.ok (), written) ∧
        OnlyWroteText files written path text := by
  have hgrown := grown_makeDirectories files path.parent path.names.length
  rw [writeWithin]
  rcases hmade : files.makeDirectories path.parent path.names.length with ⟨result, made⟩
  rw [hmade] at hgrown
  cases result with
  | error fault => exact .inl ⟨fault, made, rfl, hgrown⟩
  | ok =>
    cases hwrite : made.write path text with
    | error fault => exact .inl ⟨fault, made, by simp only [hwrite], hgrown⟩
    | ok written =>
      obtain ⟨content, hcontent, hwrote⟩ := onlyWroteText_of_write hwrite
      exact .inr ⟨written, by simp only [hwrite], content, hcontent, hwrote.of_grown hgrown⟩

end SchemaTypes.Command.Files
