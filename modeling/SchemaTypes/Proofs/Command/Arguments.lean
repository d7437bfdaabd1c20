import SchemaTypes.Command.Arguments

/-!
# A command line without its output options

Leaving the output options and their values out of a command line that is accepted gives one that
asks for the same and prints what it generates. The words that are left keep their meaning: an
operand is never moved away from the two dashes behind it, and a value stays behind its option.
-/

namespace SchemaTypes.Command

/-- Whether a word is the output option. -/
def Word.isOutput : Word → Bool
  | option o _ => o = .output
  | _ => false

/-- Whether a word is an option whose value is the next word. -/
def Word.takesNext : Word → Bool
  | option o value => o.takesValue && value.isNone
  | _ => false

/-- The words of a command line that are no output option and no value of one. -/
def withoutOutput : List Text → List Text
  | [] => []
  | s :: rest =>
    if s = "--" then s :: rest
    else if (wordOf s).takesNext then
      match rest with
      | [] => [s]
      | value :: rest =>
        if (wordOf s).isOutput then withoutOutput rest else s :: value :: withoutOutput rest
    else if (wordOf s).isOutput then withoutOutput rest
    else s :: withoutOutput rest

/-- Only an option may take the next word, and only if it is written without a value. -/
theorem Word.exists_of_takesNext {word : Word} (h : word.takesNext = true) :
    ∃ o, word = option o none ∧ o.takesValue = true := by
  cases word with
  | option o value =>
    obtain ⟨ho, hvalue⟩ := Bool.and_eq_true_iff.mp h
    exact ⟨o, by rw [Option.isNone_iff_eq_none.mp hvalue], ho⟩
  | _ => cases h

/-- The output option takes the next word unless it is written with a value. -/
theorem Word.exists_of_isOutput {word : Word} (h : word.isOutput = true)
    (hnext : ¬word.takesNext = true) : ∃ value, word = option .output (some value) := by
  cases word with
  | option o value =>
    cases of_decide_eq_true h
    cases value with
    | none => exact absurd rfl hnext
    | some value => exact ⟨value, rfl⟩
  | _ => cases h

namespace Invocation

/-- What is asked for, printed. -/
def toConsole (inv : Invocation) : Invocation := { inv with output := .console }

variable {inv next result : Invocation} {afterDocument after : Bool} {o : Opt} {s document value : Text}
  {arguments rest left : List Text}

section Words

variable (hs : s ≠ "--")
include hs

/-- An operand is taken as the document. -/
theorem take_operand (hword : wordOf s = .operand document) :
    inv.take afterDocument (s :: rest) = (inv.withDocument document).bind (·.take true rest) := by
  rw [take, if_neg hs, hword]
  rfl

/-- An option with a text after its equals sign is taken with this text. -/
theorem take_attached (hword : wordOf s = .option o (some value)) :
    inv.take afterDocument (s :: rest) =
      if o.takesValue then (inv.withAttached o value).bind (·.take false rest) else none := by
  rw [take, if_neg hs, hword]
  rfl

/-- An option that takes a value takes the next word, which must be one. -/
theorem take_separate (hword : wordOf s = .option o none) (ho : o.takesValue = true) :
    inv.take afterDocument (s :: value :: rest) =
      if value = "--" then none
      else
        match wordOf value with
        | .operand value => (inv.withValue o value).bind (·.take false rest)
        | _ => none := by
  rw [take, if_neg hs, hword]
  simp only [ho, if_true]
  rfl

/-- An option that takes a value needs a next word. -/
theorem take_last (hword : wordOf s = .option o none) (ho : o.takesValue = true) :
    inv.take afterDocument [s] = none := by
  rw [take, if_neg hs, hword]
  simp only [ho, if_true]

/-- An option that takes no value is taken by itself. -/
theorem take_flag (hword : wordOf s = .option o none) (ho : o.takesValue = false) :
    inv.take afterDocument (s :: rest) = (inv.withFlag o).bind (·.take false rest) := by
  rw [take, if_neg hs, hword]
  simp only [ho]
  rfl

/-- No other word is accepted. -/
theorem take_unknown (hword : wordOf s = .unknown) : inv.take afterDocument (s :: rest) = none := by
  rw [take, if_neg hs, hword]

end Words

/-- Taking the operand has nothing to do with the output. -/
theorem withDocument_toConsole (inv : Invocation) (document : Text) :
    inv.toConsole.withDocument document = (inv.withDocument document).map toConsole := by
  obtain ⟨given, name, isApi, statuses, unused, output⟩ := inv
  cases given <;> rfl

/-- Taking the words after the end of the options has nothing to do with the output, and it matters
only if they are none whether they stand right after the document. -/
theorem withOperands_toConsole (hafter : afterDocument = true → after = true)
    (h : inv.withOperands afterDocument rest = some result) :
    inv.toConsole.withOperands after rest = some result.toConsole := by
  match rest with
  | [] =>
    rw [withOperands] at h ⊢
    cases afterDocument with
    | false => cases h
    | true =>
      cases h
      rw [hafter rfl]
      rfl
  | [document] =>
    rw [withOperands] at h ⊢
    rw [withDocument_toConsole, h]
    rfl
  | _ :: _ :: _ => cases h

/-- Taking an option without a value has nothing to do with the output. -/
theorem withFlag_toConsole (inv : Invocation) (o : Opt) :
    inv.toConsole.withFlag o = (inv.withFlag o).map toConsole := by
  have hkind (isApi : Bool) : inv.toConsole.withKind isApi = (inv.withKind isApi).map toConsole := by
    rw [withKind, withKind]
    by_cases hgiven : inv.isApi = some (!isApi) <;> simp [toConsole, hgiven]
  cases o with
  | api => exact hkind true
  | schema => exact hkind false
  | _ => rfl

/-- Taking a value has nothing to do with the output unless it is that of the output. -/
theorem withValue_toConsole (inv : Invocation) (ho : o ≠ .output) (value : Text) :
    inv.toConsole.withValue o value = (inv.withValue o value).map toConsole := by
  cases o with
  | output => exact absurd rfl ho
  | status =>
    change Option.bind _ _ = (Option.bind _ _).map _
    cases Text.readInteger? value <;> rfl
  | _ => rfl

/-- An option with a text after its equals sign has nothing to do with the output unless it is the
output option. -/
theorem withAttached_toConsole (inv : Invocation) (ho : o ≠ .output) (value : Text) :
    inv.toConsole.withAttached o value = (inv.withAttached o value).map toConsole := by
  rw [withAttached, withAttached, withValue_toConsole inv ho]
  by_cases hvalue : value = "--"
  · rw [if_pos hvalue, if_pos hvalue]
    cases o with
    | output => exact absurd rfl ho
    | _ => rfl
  · rw [if_neg hvalue, if_neg hvalue]

/-- The value of the output option changes nothing but the output. -/
theorem toConsole_of_withValue (h : inv.withValue .output value = some next) :
    next.toConsole = inv.toConsole := by
  cases h
  rfl

/-- The output option with a text after its equals sign changes nothing but the output. -/
theorem toConsole_of_withAttached (h : inv.withAttached .output value = some next) :
    next.toConsole = inv.toConsole := by
  rw [withAttached] at h
  split at h
  · cases h
    rfl
  · exact toConsole_of_withValue h

/-- A step that has nothing to do with the output leads to the same further steps. -/
theorem bind_toConsole {taken printed : Option Invocation} {further : Bool}
    (hprinted : printed = taken.map toConsole)
    (ih : ∀ next : Invocation, next.take further rest = some result →
      next.toConsole.take further left = some result.toConsole)
    (h : taken.bind (·.take further rest) = some result) :
    printed.bind (·.take further left) = some result.toConsole := by
  obtain ⟨next, rfl, hrest⟩ := Option.bind_eq_some_iff.mp h
  rw [hprinted]
  exact ih next hrest

/-- A step that changes the output only is no step without the output. -/
theorem eq_toConsole_of_bind {taken : Option Invocation}
    (htaken : ∀ next, taken = some next → next.toConsole = inv.toConsole)
    (ih : ∀ next : Invocation, next.take false rest = some result →
      next.toConsole.take after left = some result.toConsole)
    (h : taken.bind (·.take false rest) = some result) :
    inv.toConsole.take after left = some result.toConsole := by
  obtain ⟨next, hnext, hrest⟩ := Option.bind_eq_some_iff.mp h
  rw [← htaken next hnext]
  exact ih next hrest

/-- Without its output options an accepted command line asks for the same, printed. -/
theorem take_withoutOutput (hafter : afterDocument = true → after = true)
    (h : inv.take afterDocument arguments = some result) :
    inv.toConsole.take after (withoutOutput arguments) = some result.toConsole := by
  -- An output option between the document and two dashes is left out, so the document may come to
  -- stand right before them; it never comes to stand elsewhere.
  fun_induction withoutOutput arguments generalizing inv afterDocument after with
  | case1 =>
    cases h
    rfl
  | case2 rest =>
    rw [take, if_pos rfl] at h ⊢
    exact withOperands_toConsole hafter h
  | case3 s hs hnext =>
    obtain ⟨o, hword, ho⟩ := Word.exists_of_takesNext hnext
    rw [take_last hs hword ho] at h
    cases h
  | case4 s hs hnext value rest houtput ih =>
    obtain ⟨o, hword, ho⟩ := Word.exists_of_takesNext hnext
    rw [hword] at houtput
    cases of_decide_eq_true houtput
    rw [take_separate hs hword ho] at h
    split at h
    · cases h
    · split at h
      · exact eq_toConsole_of_bind (fun _ => toConsole_of_withValue)
          (fun _ => ih (absurd · Bool.false_ne_true)) h
      · cases h
  | case5 s hs hnext value rest houtput ih =>
    obtain ⟨o, hword, ho⟩ := Word.exists_of_takesNext hnext
    have hother : o ≠ .output := fun heq => houtput (by rw [hword, heq]; rfl)
    rw [take_separate hs hword ho] at h ⊢
    split at h
    · cases h
    · rename_i hend
      rw [if_neg hend]
      split at h
      · exact bind_toConsole (withValue_toConsole inv hother _) (fun _ => ih id) h
      · cases h
  | case6 s rest hs hnext houtput ih =>
    obtain ⟨value, hword⟩ := Word.exists_of_isOutput houtput hnext
    rw [take_attached hs hword] at h
    exact eq_toConsole_of_bind (fun _ => toConsole_of_withAttached)
      (fun _ => ih (absurd · Bool.false_ne_true)) h
  | case7 s rest hs hnext houtput ih =>
    cases hword : wordOf s with
    | operand document =>
      rw [take_operand hs hword] at h ⊢
      exact bind_toConsole (withDocument_toConsole inv document) (fun _ => ih id) h
    | unknown =>
      rw [take_unknown hs hword] at h
      cases h
    | option o value =>
      rw [hword] at hnext houtput
      cases value with
      | none =>
        have ho : o.takesValue = false := by simpa [Word.takesNext] using hnext
        rw [take_flag hs hword ho] at h ⊢
        exact bind_toConsole (withFlag_toConsole inv o) (fun _ => ih id) h
      | some value =>
        have hother : o ≠ .output := fun heq => houtput (decide_eq_true heq)
        rw [take_attached hs hword] at h ⊢
        split at h
        · rename_i ho
          rw [if_pos ho]
          exact bind_toConsole (withAttached_toConsole inv hother value) (fun _ => ih id) h
        · cases h

/-- Without its output options a command line that is accepted is accepted too. -/
theorem ofArguments_withoutOutput (h : ofArguments arguments = some inv) :
    ofArguments (withoutOutput arguments) = some inv.toConsole := by
  rw [ofArguments] at h ⊢
  obtain ⟨taken, htaken, h⟩ := Option.bind_eq_some_iff.mp h
  have hconsole : empty.take false (withoutOutput arguments) = some taken.toConsole :=
    take_withoutOutput id htaken
  rw [hconsole]
  split at h
  · rename_i hdocument
    cases h
    exact if_pos hdocument
  · cases h

end Invocation

end SchemaTypes.Command
