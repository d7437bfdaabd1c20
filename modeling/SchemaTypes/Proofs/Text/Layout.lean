import SchemaTypes.Proofs.Text.Join
import SchemaTypes.Text.Blank
import SchemaTypes.Text.Join

/-!
# Texts laid out in lines

A text is laid out if the only line ends in it are line feeds and each of them is followed by the
next line, so that it has no empty line but perhaps the first. Laid out texts may be put one after
another. Joined with line feeds, texts that start in the midst of a line have the lines of each of
them, and joining the lines of a laid out text gives the text back.
-/

namespace SchemaTypes.Text

/-- Whether a text holds no line end. -/
def isOneLine (s : Text) : Bool := s.toList.all fun c => !isLineEnd c

/-- The lines of a text, each as a text. -/
def lineTexts (s : Text) : List Text := (lines s.toList).map Text.ofList

/-- Characters none of which ends a line. -/
def OneLine (cs : List CodePoint) : Prop := ∀ c ∈ cs, isLineEnd c = false

instance : DecidablePred OneLine := List.decidableBAll fun c => isLineEnd c = false

/-- Every line end is a line feed, and the character behind it is no line end. -/
def LaidOut : List CodePoint → Prop
  | [] => True
  | c :: rest =>
    (isLineEnd c = true → c = '\n' ∧ ∃ d ∈ rest.head?, isLineEnd d = false) ∧ LaidOut rest

/-- A text that starts with a character that is no line end. -/
def StartsLine (cs : List CodePoint) : Prop := ∃ c ∈ cs.head?, isLineEnd c = false

/-- A laid out text without an empty line and without a blank at either end. -/
structure Solid (cs : List CodePoint) : Prop where
  laidOut : LaidOut cs
  starts : ∃ c ∈ cs.head?, isBlank c = false
  ends : ∃ c ∈ cs.getLast?, isBlank c = false

variable {cs rest piece : List CodePoint} {c : CodePoint} {s t : Text} {parts : List Text}

/-- A text without line ends has none among its characters. -/
theorem oneLine_of_isOneLine (h : isOneLine s = true) : OneLine s.toList :=
  fun c hc => by simpa using List.all_eq_true.mp h c hc

/-- Two rows of characters without line ends make one. -/
theorem OneLine.append (h : OneLine cs) (hrest : OneLine rest) : OneLine (cs ++ rest) :=
  List.forall_mem_append.mpr ⟨h, hrest⟩

/-- Texts without line ends joined by one are without line ends. -/
theorem OneLine.join (hseparator : OneLine s.toList) (hparts : ∀ part ∈ parts, OneLine part.toList) :
    OneLine (joinWith s parts).toList :=
  forall_mem_joinWith hseparator hparts

/-- The characters that end a line. -/
def lineEnds : List CodePoint :=
  ['\n', '\r', '\x0b', '\x0c', '\x1c', '\x1d', '\x1e', '\u0085', '\u2028', '\u2029']

/-- What no line end fulfils is fulfilled by other characters only. -/
theorem isLineEnd_eq_false {p : CodePoint → Bool} (hends : (lineEnds.all fun c => !p c) = true)
    (h : p c = true) : isLineEnd c = false := by
  rw [Bool.eq_false_iff]
  intro hend
  have hmem : c ∈ lineEnds := by simpa [lineEnds, isLineEnd, or_assoc] using hend
  simpa [h] using List.all_eq_true.mp hends c hmem

/-- A line end is blank. -/
theorem isLineEnd_eq_false_of_isBlank (h : isBlank c = false) : isLineEnd c = false :=
  isLineEnd_eq_false (p := fun c => !isBlank c) (by decide) (by rw [h]; rfl)

/-- A text without line ends is laid out. -/
theorem OneLine.laidOut (h : OneLine cs) : LaidOut cs := by
  induction cs with
  | nil => trivial
  | cons c rest ih =>
    obtain ⟨hc, hrest⟩ := List.forall_mem_cons.mp h
    refine ⟨fun hend => ?_, ih hrest⟩
    rw [hc] at hend
    cases hend

namespace LaidOut

/-- One laid out text may follow another. -/
theorem append (h : LaidOut cs) (hrest : LaidOut rest) : LaidOut (cs ++ rest) := by
  induction cs with
  | nil => exact hrest
  | cons c others ih =>
    refine ⟨fun hend => ?_, ih h.2⟩
    obtain ⟨hfeed, d, hd, hplain⟩ := h.1 hend
    obtain ⟨tail, rfl⟩ := List.head?_eq_some_iff.mp hd
    exact ⟨hfeed, d, rfl, hplain⟩

/-- Laid out texts joined by one are laid out. -/
theorem join (hseparator : LaidOut s.toList) (hparts : ∀ part ∈ parts, LaidOut part.toList) :
    LaidOut (joinWith s parts).toList := by
  induction parts with
  | nil => trivial
  | cons part others ih =>
    obtain ⟨hpart, hothers⟩ := List.forall_mem_cons.mp hparts
    cases others with
    | nil => exact hpart
    | cons next others =>
      rw [joinWith_cons_cons, Text.toList_append, Text.toList_append]
      exact (hpart.append hseparator).append (ih hothers)

/-- A laid out text that starts a line may follow a line feed. -/
theorem newline (h : LaidOut cs) (hstarts : StartsLine cs) : LaidOut (('\n' : CodePoint) :: cs) :=
  ⟨fun _ => ⟨rfl, hstarts⟩, h⟩

end LaidOut

/-- A text that starts a line still does when more follows. -/
theorem StartsLine.append (h : StartsLine cs) : StartsLine (cs ++ rest) := by
  obtain ⟨c, hc, hplain⟩ := h
  obtain ⟨tail, rfl⟩ := List.head?_eq_some_iff.mp hc
  exact ⟨c, rfl, hplain⟩

/-- A text that starts a line is not empty. -/
theorem StartsLine.ne_nil (h : StartsLine cs) : cs ≠ [] := by
  rintro rfl
  obtain ⟨c, hc, -⟩ := h
  cases hc

/-- A text without line ends starts a line unless it is empty. -/
theorem OneLine.startsLine (h : OneLine cs) (hne : cs ≠ []) : StartsLine cs := by
  obtain ⟨c, rest, rfl⟩ := List.exists_cons_of_ne_nil hne
  exact ⟨c, rfl, h c List.mem_cons_self⟩

namespace Solid

/-- A solid text starts in the midst of a line. -/
theorem startsLine (h : Solid cs) : StartsLine cs :=
  h.starts.imp fun _ hc => ⟨hc.1, isLineEnd_eq_false_of_isBlank hc.2⟩

/-- Solid texts with a line feed between them make one. -/
theorem newline (h : Solid cs) (hrest : Solid rest) : Solid (cs ++ ('\n' : CodePoint) :: rest) := by
  obtain ⟨c, hc, hplain⟩ := h.starts
  obtain ⟨tail, rfl⟩ := List.head?_eq_some_iff.mp hc
  obtain ⟨d, hd, hlast⟩ := hrest.ends
  refine ⟨h.laidOut.append (hrest.laidOut.newline hrest.startsLine), ⟨c, rfl, hplain⟩, d, ?_, hlast⟩
  rw [Option.mem_def] at hd
  simp [List.getLast?_append, List.getLast?_cons, hd]

/-- Trimming a solid text with a line feed behind it removes the line feed. -/
theorem trim_newline (h : Solid cs) : trim (cs ++ [('\n' : CodePoint)]) = cs := by
  obtain ⟨c, hc, hplain⟩ := h.starts
  obtain ⟨tail, rfl⟩ := List.head?_eq_some_iff.mp hc
  obtain ⟨d, hd, hlast⟩ := h.ends
  obtain ⟨front, hfront⟩ := List.getLast?_eq_some_iff.mp hd
  have hfeed : isBlank '\n' = true := by decide
  rw [trim, trimWith, List.cons_append, List.dropWhile_cons_of_neg (by simp [hplain]), ← List.cons_append,
    hfront]
  simp [hfeed, hlast]

end Solid

/-- A line feed ends the first line. -/
theorem lines_newline (rest : List CodePoint) : lines (('\n' : CodePoint) :: rest) = [] :: lines rest := by
  rw [lines.eq_def]
  rfl

/-- A character that is no line end belongs to the first line. -/
theorem lines_cons (h : isLineEnd c = false) (rest : List CodePoint) :
    lines (c :: rest) = consPiece c (lines rest) := by
  rw [lines.eq_def]
  split
  · contradiction
  · rename_i hreturn
    cases hreturn
    exact absurd h (by decide)
  · rename_i hcons
    cases hcons
    rw [h]
    rfl

/-- A text that is not empty has lines. -/
theorem lines_ne_nil (h : cs ≠ []) : lines cs ≠ [] := by
  fun_cases lines cs with
  | case1 => exact absurd rfl h
  | case2 rest => exact List.cons_ne_nil _ _
  | case3 c rest => exact List.cons_ne_nil _ _
  | case4 c rest => cases lines rest <;> exact List.cons_ne_nil _ _

/-- Lines in front of others come first, unless the character belongs to no line yet. -/
theorem consPiece_append {pieces others : List (List CodePoint)} (h : pieces ≠ []) (c : CodePoint) :
    consPiece c (pieces ++ others) = consPiece c pieces ++ others := by
  cases pieces with
  | nil => exact absurd rfl h
  | cons piece pieces => rfl

/-- A line feed behind a laid out text separates its lines from those that follow. -/
theorem LaidOut.lines_append_newline (h : LaidOut cs) (hne : cs ≠ []) (rest : List CodePoint) :
    lines (cs ++ ('\n' : CodePoint) :: rest) = lines cs ++ lines rest := by
  induction cs with
  | nil => exact absurd rfl hne
  | cons c others ih =>
    cases hend : isLineEnd c with
    | true =>
      obtain ⟨rfl, hstarts⟩ := h.1 hend
      rw [List.cons_append, lines_newline, lines_newline, ih h.2 (StartsLine.ne_nil hstarts),
        List.cons_append]
    | false =>
      rw [List.cons_append, lines_cons hend, lines_cons hend]
      cases others with
      | nil =>
        rw [List.nil_append, lines_newline]
        rfl
      | cons d others =>
        rw [ih h.2 (List.cons_ne_nil d others),
          consPiece_append (lines_ne_nil (List.cons_ne_nil d others))]

/-- A text at the front of the first of several texts is at the front of the joined text. -/
theorem joinWith_append_cons (separator s t : Text) (others : List Text) :
    joinWith separator ((s ++ t) :: others) = s ++ joinWith separator (t :: others) := by
  cases others with
  | nil => rfl
  | cons next others => simp only [joinWith_cons_cons, Text.append_assoc]

/-- The first of several texts comes in front of the separator and the others. -/
theorem joinWith_cons (hne : parts ≠ []) (separator s : Text) :
    joinWith separator (s :: parts) = s ++ separator ++ joinWith separator parts := by
  obtain ⟨part, others, rfl⟩ := List.exists_cons_of_ne_nil hne
  rw [joinWith_cons_cons]

/-- The last of several texts comes behind the others and the separator. -/
theorem joinWith_concat (hne : parts ≠ []) (separator s : Text) :
    joinWith separator (parts ++ [s]) = joinWith separator parts ++ separator ++ s := by
  induction parts with
  | nil => exact absurd rfl hne
  | cons part others ih =>
    cases others with
    | nil => rfl
    | cons next others =>
      rw [List.cons_append, joinWith_cons (by simp), ih (List.cons_ne_nil _ _), joinWith_cons_cons]
      simp only [Text.append_assoc]

/-- Joining the lines of a laid out text gives the text back. -/
theorem LaidOut.joinWith_lines (h : LaidOut cs) :
    joinWith "\n" ((lines cs).map Text.ofList) = Text.ofList cs := by
  induction cs with
  | nil => rfl
  | cons c others ih =>
    cases hend : isLineEnd c with
    | true =>
      obtain ⟨rfl, hstarts⟩ := h.1 hend
      obtain ⟨first, following, hlines⟩ :=
        List.exists_cons_of_ne_nil (lines_ne_nil (StartsLine.ne_nil hstarts))
      have hjoined := ih h.2
      rw [hlines, List.map_cons] at hjoined
      rw [lines_newline, hlines, List.map_cons, List.map_cons, joinWith_cons_cons, hjoined]
      apply Text.toList_injective
      simp
    | false =>
      rw [lines_cons hend]
      have hjoined := ih h.2
      cases hlines : lines others with
      | nil =>
        rw [hlines] at hjoined
        have hnil : others = [] := (Text.ofList_injective hjoined).symm
        rw [hnil]
        rfl
      | cons first following =>
        have hfirst : Text.ofList (c :: first) = Text.ofList [c] ++ Text.ofList first := by
          rw [← Text.ofList_append, List.singleton_append]
        rw [hlines, List.map_cons] at hjoined
        rw [consPiece_cons, List.map_cons, hfirst, joinWith_append_cons, hjoined, ← Text.ofList_append,
          List.singleton_append]

/-- There is no line end in a line. -/
theorem oneLine_of_mem_lines (h : piece ∈ lines cs) : OneLine piece := by
  fun_induction lines cs generalizing piece with
  | case1 => cases h
  | case2 rest ih => exact (List.mem_cons.mp h).elim (fun hp => hp ▸ List.forall_mem_nil _) ih
  | case3 c rest _ _ ih => exact (List.mem_cons.mp h).elim (fun hp => hp ▸ List.forall_mem_nil _) ih
  | case4 c rest _ hc ih =>
    rw [Bool.not_eq_true] at hc
    cases hlines : lines rest with
    | nil =>
      rw [hlines, consPiece, List.mem_singleton] at h
      rw [h]
      exact List.forall_mem_singleton.mpr hc
    | cons first following =>
      rw [hlines, consPiece_cons, List.mem_cons] at h
      rw [hlines] at ih
      rcases h with rfl | h
      · exact List.forall_mem_cons.mpr ⟨hc, ih List.mem_cons_self⟩
      · exact ih (List.mem_cons_of_mem _ h)

/-- No line of a laid out text is empty but perhaps the first, and not the first if the text starts in
the midst of it. -/
theorem LaidOut.lines_ne_nil (h : LaidOut cs) :
    (∀ line ∈ (lines cs).tail, line ≠ []) ∧ (StartsLine cs → ∀ line ∈ lines cs, line ≠ []) := by
  induction cs with
  | nil => exact ⟨List.forall_mem_nil _, fun _ => List.forall_mem_nil _⟩
  | cons c others ih =>
    obtain ⟨htail, hall⟩ := ih h.2
    cases hend : isLineEnd c with
    | true =>
      obtain ⟨rfl, hstarts⟩ := h.1 hend
      rw [lines_newline]
      refine ⟨hall hstarts, ?_⟩
      rintro ⟨d, hd, hplain⟩
      cases hd
      exact absurd hplain (by decide)
    | false =>
      rw [lines_cons hend]
      cases hlines : lines others with
      | nil => exact ⟨List.forall_mem_nil _, fun _ => List.forall_mem_singleton.mpr (List.cons_ne_nil _ _)⟩
      | cons first following =>
        rw [hlines] at htail
        exact ⟨htail, fun _ => List.forall_mem_cons.mpr ⟨List.cons_ne_nil _ _, htail⟩⟩

/-- A text without line ends is one line unless it is empty. -/
theorem OneLine.lines_eq (h : OneLine cs) (hne : cs ≠ []) : lines cs = [cs] := by
  induction cs with
  | nil => exact absurd rfl hne
  | cons c others ih =>
    obtain ⟨hc, hothers⟩ := List.forall_mem_cons.mp h
    rw [lines_cons hc]
    cases others with
    | nil => rfl
    | cons d others => rw [ih hothers (List.cons_ne_nil d others), consPiece_cons]

section Joined

variable (hparts : ∀ part ∈ parts, LaidOut part.toList ∧ StartsLine part.toList)
include hparts

/-- Laid out texts that start in the midst of a line are laid out when they are joined with line
feeds, and start in the midst of a line if there are any. -/
theorem laidOut_joinWith :
    LaidOut (joinWith "\n" parts).toList ∧ (parts ≠ [] → StartsLine (joinWith "\n" parts).toList) := by
  induction parts with
  | nil => exact ⟨trivial, fun hne => absurd rfl hne⟩
  | cons part others ih =>
    obtain ⟨hpart, hothers⟩ := List.forall_mem_cons.mp hparts
    cases others with
    | nil => exact ⟨hpart.1, fun _ => hpart.2⟩
    | cons next others =>
      obtain ⟨hlaid, hstarts⟩ := ih hothers
      rw [joinWith_cons_cons, Text.toList_append, Text.toList_append, List.append_assoc]
      exact ⟨hpart.1.append (hlaid.newline (hstarts (List.cons_ne_nil _ _))), fun _ => hpart.2.append⟩

/-- Such texts joined with line feeds have the lines of each of them. -/
theorem lines_joinWith :
    lines (joinWith "\n" parts).toList = parts.flatMap fun part => lines part.toList := by
  induction parts with
  | nil => rfl
  | cons part others ih =>
    obtain ⟨hpart, hothers⟩ := List.forall_mem_cons.mp hparts
    cases others with
    | nil => simp
    | cons next others =>
      rw [joinWith_cons_cons, Text.toList_append, Text.toList_append, List.append_assoc,
        List.flatMap_cons, ← ih hothers]
      exact hpart.1.lines_append_newline hpart.2.ne_nil _

end Joined

/-- Solid texts joined with line feeds make a solid text if there are any. -/
theorem Solid.join (hne : parts ≠ []) (hparts : ∀ part ∈ parts, Solid part.toList) :
    Solid (joinWith "\n" parts).toList := by
  induction parts with
  | nil => exact absurd rfl hne
  | cons part others ih =>
    obtain ⟨hpart, hothers⟩ := List.forall_mem_cons.mp hparts
    cases others with
    | nil => exact hpart
    | cons next others =>
      rw [joinWith_cons_cons, Text.toList_append, Text.toList_append, List.append_assoc]
      exact hpart.newline (ih (List.cons_ne_nil _ _) hothers)

/-- Texts with a line feed behind each of them are joined with line feeds, and one more at the end. -/
theorem flatMap_newline (hne : parts ≠ []) :
    parts.flatMap (fun part => part.toList ++ [('\n' : CodePoint)]) =
      (joinWith "\n" parts).toList ++ [('\n' : CodePoint)] := by
  induction parts with
  | nil => exact absurd rfl hne
  | cons part others ih =>
    cases others with
    | nil => simp
    | cons next others =>
      rw [List.flatMap_cons, ih (List.cons_ne_nil _ _), joinWith_cons_cons]
      simp

/-- Texts joined with nothing between them follow one another. -/
theorem toList_joinWith_empty (parts : List Text) :
    (joinWith "" parts).toList = parts.flatMap Text.toList := by
  induction parts with
  | nil => rfl
  | cons part others ih =>
    cases others with
    | nil => simp
    | cons next others =>
      rw [joinWith_cons_cons, List.flatMap_cons, ← ih]
      simp

end SchemaTypes.Text
