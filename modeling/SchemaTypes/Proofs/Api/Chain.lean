import SchemaTypes.Api.Overlay
import SchemaTypes.Proofs.Schema.FirstFault

/-!
# Chains of references

A value that is a reference leads to its target, which may be a reference again. The chain from a value is
stated here as a relation, without a bound and without a list of what was followed. It may end at a value
that is no reference, break off at a reference without a target, or go on forever.

The loop that follows a chain is stated without a bound as well. Every reference after the first is written
in the overlay, and the loop follows no reference twice, so it takes at most one step more than there are
different references in the overlay. The bound that following counts down from is never reached, and what
comes out is read off the chain alone.
-/

namespace SchemaTypes.Api

variable {overlay start value other : Value} {place : Option Text} {followed refs : List Text}
  {ref : Text}

/-- A chain: the references followed one after the other from a value, and the value they lead to. -/
inductive Leads (overlay : Value) : Value → List Text → Value → Prop where
  | stay (value : Value) : Leads overlay value [] value
  | follow {value next last : Value} {ref : Text} {refs : List Text}
      (href : reference? value = some (.text ref))
      (htarget : Pointer.target? overlay (Pointer.split ref) = .ok (some next))
      (hrest : Leads overlay next refs last) : Leads overlay value (ref :: refs) last

/-- A chain that comes back to a value it has led to before. -/
def Cyclic (overlay start : Value) : Prop :=
  ∃ refs value cycle, Leads overlay start refs value ∧ cycle ≠ [] ∧ Leads overlay value cycle value

/-- Every reference met on the chain from a value is a text whose segments are no malformed numerals. -/
def Followable (overlay start : Value) : Prop :=
  ∀ refs value, Leads overlay start refs value → ∀ reference, reference? value = some reference →
    ∃ ref, reference = .text ref ∧ ∀ segment ∈ Pointer.split ref, ∃ n, numeral? segment = .ok n

/-- Following stops at a value that is no reference or whose reference was followed before. -/
def Halts (followed : List Text) (value : Value) : Prop :=
  reference? value = none ∨ ∃ ref ∈ followed, reference? value = some (.text ref)

/-- One step along a chain: the reference to follow and its target. There is no step from a value at which
following stops. -/
def follow? (overlay : Value) (place : Option Text) (followed : List Text) (value : Value) :
    Except Fault (Option (Text × Value)) :=
  match reference? value with
  | none => .ok none
  | some (.scalar (.text ref)) =>
    if followed.contains ref then .ok none
    else
      match Pointer.target? overlay (Pointer.split ref) with
      | .error cause => .error (.malformed cause)
      | .ok none => .error (.schema (.unresolved ref) place)
      | .ok (some next) => .ok (some (ref, next))
  | some (.scalar _) => .error (.malformed .notIterable)
  | some _ => .error (.malformed .compoundKey)

/-- The loop along a chain, without a bound: the references followed before, the value at hand, the number
of steps the loop takes from there, and what comes out. -/
inductive Chases (overlay : Value) (place : Option Text) :
    List Text → Value → Nat → Except Fault (Value × Option Text) → Prop where
  | done {followed : List Text} {value : Value} (h : follow? overlay place followed value = .ok none) :
      Chases overlay place followed value 0 (.ok (value, followed.head?))
  | stop {followed : List Text} {value : Value} {fault : Fault}
      (h : follow? overlay place followed value = .error fault) :
      Chases overlay place followed value 1 (.error fault)
  | next {followed : List Text} {value next : Value} {ref : Text} {steps : Nat}
      {outcome : Except Fault (Value × Option Text)}
      (h : follow? overlay place followed value = .ok (some (ref, next)))
      (hnext : Chases overlay place (ref :: followed) next steps outcome) :
      Chases overlay place followed value (steps + 1) outcome

/-- With one more step left, following takes a step and goes on unless the chain stops. -/
theorem followChain_succ (overlay : Value) (place : Option Text) (steps : Nat) (followed : List Text)
    (value : Value) :
    followChain overlay place (steps + 1) followed value =
      match follow? overlay place followed value with
      | .ok none => .ok (value, followed.head?)
      | .ok (some (ref, next)) => followChain overlay place steps (ref :: followed) next
      | .error fault => .error fault := by
  rw [followChain, follow?]
  cases reference? value with
  | none => rfl
  | some reference =>
    cases reference with
    | list items => rfl
    | object members => rfl
    | scalar s =>
      cases s with
      | text ref =>
        dsimp only
        split
        · rfl
        · cases Pointer.target? overlay (Pointer.split ref) with
          | error cause => rfl
          | ok found => cases found <;> rfl
      | _ => rfl

/-- There is no step from a value at which following stops. -/
theorem follow?_of_halts (h : Halts followed value) : follow? overlay place followed value = .ok none := by
  rw [follow?]
  rcases h with hnone | ⟨ref, hseen, href⟩
  · rw [hnone]
  · simp [href, hseen]

/-- A new reference is followed to its target. -/
theorem follow?_of_text (href : reference? value = some (.text ref)) (hnew : ref ∉ followed) :
    follow? overlay place followed value =
      match Pointer.target? overlay (Pointer.split ref) with
      | .error cause => .error (.malformed cause)
      | .ok none => .error (.schema (.unresolved ref) place)
      | .ok (some next) => .ok (some (ref, next)) := by
  rw [follow?, href]
  dsimp only
  rw [if_neg (by simpa using hnew)]

/-- A step follows a new reference or fails, unless following stops. -/
theorem follow?_cases (overlay : Value) (place : Option Text) (followed : List Text) (value : Value) :
    Halts followed value ∨
      (∃ ref, reference? value = some (.text ref) ∧ ref ∉ followed) ∨
      ∃ reference cause, reference? value = some reference ∧ (∀ ref, reference ≠ .text ref) ∧
        follow? overlay place followed value = .error (.malformed cause) := by
  cases hreference : reference? value with
  | none => exact Or.inl (Or.inl hreference)
  | some reference =>
    by_cases htext : ∃ ref, reference = .text ref
    · obtain ⟨ref, rfl⟩ := htext
      by_cases hseen : ref ∈ followed
      · exact Or.inl (Or.inr ⟨ref, hseen, hreference⟩)
      · exact Or.inr (Or.inl ⟨ref, rfl, hseen⟩)
    · have hother (ref : Text) : reference ≠ .text ref := fun h => htext ⟨ref, h⟩
      refine Or.inr (Or.inr ⟨reference, ?_⟩)
      rw [follow?, hreference]
      cases reference with
      | list items => exact ⟨_, rfl, hother, rfl⟩
      | object members => exact ⟨_, rfl, hother, rfl⟩
      | scalar s =>
        cases s with
        | text ref => exact absurd rfl (hother ref)
        | _ => exact ⟨_, rfl, hother, rfl⟩

/-- Without a step, following stops. -/
theorem halts_of_follow? (h : follow? overlay place followed value = .ok none) : Halts followed value := by
  rcases follow?_cases overlay place followed value with
    hhalts | ⟨ref, href, hnew⟩ | ⟨_, _, -, -, hfault⟩
  · exact hhalts
  · rw [follow?_of_text href hnew] at h
    split at h <;> cases h
  · rw [hfault] at h
    cases h

/-- A step follows the reference that the value is, a new one, to its target. -/
theorem target_of_follow? {next : Value} (h : follow? overlay place followed value = .ok (some (ref, next))) :
    reference? value = some (.text ref) ∧ ref ∉ followed ∧
      Pointer.target? overlay (Pointer.split ref) = .ok (some next) := by
  rcases follow?_cases overlay place followed value with
    hhalts | ⟨ref', href, hnew⟩ | ⟨_, _, -, -, hfault⟩
  · rw [follow?_of_halts hhalts] at h
    cases h
  · rw [follow?_of_text href hnew] at h
    split at h
    · cases h
    · cases h
    · rename_i htarget
      cases h
      exact ⟨href, hnew, htarget⟩
  · rw [hfault] at h
    cases h

/-- On a chain that can be followed, a step fails only at a new reference without a target. -/
theorem dangling_of_follow? {fault : Fault} (hstart : Followable overlay value)
    (h : follow? overlay place followed value = .error fault) :
    ∃ ref, reference? value = some (.text ref) ∧ ref ∉ followed ∧
      Pointer.target? overlay (Pointer.split ref) = .ok none ∧ fault = .schema (.unresolved ref) place := by
  rcases follow?_cases overlay place followed value with
    hhalts | ⟨ref, href, hnew⟩ | ⟨reference, _, hreference, hother, -⟩
  · rw [follow?_of_halts hhalts] at h
    cases h
  · obtain ⟨_, htext, hnumerals⟩ := hstart [] value (.stay value) _ href
    cases htext
    obtain ⟨found, htarget⟩ := Pointer.exists_target?_eq_ok hnumerals overlay
    rw [follow?_of_text href hnew, htarget] at h
    cases found with
    | none =>
      cases h
      exact ⟨ref, href, hnew, htarget, rfl⟩
    | some next => cases h
  · obtain ⟨ref, htext, -⟩ := hstart [] value (.stay value) reference hreference
    exact absurd htext (hother ref)

/-- What can be followed from a value can be followed from the target of its reference. -/
theorem Followable.next {next : Value} (h : Followable overlay value)
    (href : reference? value = some (.text ref))
    (htarget : Pointer.target? overlay (Pointer.split ref) = .ok (some next)) :
    Followable overlay next :=
  fun refs last hleads => h (ref :: refs) last (.follow href htarget hleads)

/-! ### The loop and its chain -/

variable {steps bound : Nat} {outcome : Except Fault (Value × Option Text)}

/-- Following with more steps than the loop takes gives what the loop gives. -/
theorem Chases.followChain_eq (h : Chases overlay place followed value steps outcome)
    (hsteps : steps < bound) : followChain overlay place bound followed value = outcome := by
  induction h generalizing bound with
  | done hfollow =>
    obtain ⟨bound, rfl⟩ := Nat.exists_eq_succ_of_ne_zero (Nat.ne_zero_of_lt hsteps)
    rw [followChain_succ, hfollow]
  | stop hfollow =>
    obtain ⟨bound, rfl⟩ := Nat.exists_eq_succ_of_ne_zero (Nat.ne_zero_of_lt hsteps)
    rw [followChain_succ, hfollow]
  | next hfollow _ ih =>
    obtain ⟨bound, rfl⟩ := Nat.exists_eq_succ_of_ne_zero (Nat.ne_zero_of_lt hsteps)
    rw [followChain_succ, hfollow]
    exact ih (Nat.lt_of_succ_lt_succ hsteps)

/-- The ways a chain can end for the loop: at a value at which following stops, or at a new reference
without a target, which takes one more step. -/
inductive Exits (overlay : Value) (place : Option Text) (followed : List Text) (last : Value) :
    Nat → Except Fault (Value × Option Text) → Prop where
  | halt (h : Halts followed last) : Exits overlay place followed last 0 (.ok (last, followed.head?))
  | dangle {ref : Text} (href : reference? last = some (.text ref)) (hnew : ref ∉ followed)
      (htarget : Pointer.target? overlay (Pointer.split ref) = .ok none) :
      Exits overlay place followed last 1 (.error (.schema (.unresolved ref) place))

/-- The loop follows different references along the chain, up to where the chain ends for it. -/
theorem Chases.exists_leads (h : Chases overlay place followed value steps outcome)
    (hvalue : Followable overlay value) (hfollowed : followed.Nodup) :
    ∃ refs last more, Leads overlay value refs last ∧ (refs.reverse ++ followed).Nodup ∧
      Exits overlay place (refs.reverse ++ followed) last more outcome ∧ steps = refs.length + more := by
  induction h with
  | done hfollow =>
    exact ⟨[], _, 0, .stay _, hfollowed, .halt (halts_of_follow? hfollow), rfl⟩
  | stop hfollow =>
    obtain ⟨ref, href, hnew, htarget, rfl⟩ := dangling_of_follow? hvalue hfollow
    exact ⟨[], _, 1, .stay _, hfollowed, .dangle href hnew htarget, rfl⟩
  | @next followed value next ref steps outcome hfollow _ ih =>
    obtain ⟨href, hnew, htarget⟩ := target_of_follow? hfollow
    obtain ⟨refs, last, more, hleads, hnodup, hexit, hsteps⟩ :=
      ih (hvalue.next href htarget) (List.nodup_cons.mpr ⟨hnew, hfollowed⟩)
    have hlist : (ref :: refs).reverse ++ followed = refs.reverse ++ ref :: followed := by simp
    refine ⟨ref :: refs, last, more, .follow href htarget hleads, ?_, ?_, ?_⟩
    · rwa [hlist]
    · rwa [hlist]
    · rw [List.length_cons]
      omega

/-- A chain of different references is the one that the loop follows. -/
theorem Leads.chases {last : Value} {more : Nat} (h : Leads overlay value refs last)
    (hnodup : (refs.reverse ++ followed).Nodup)
    (hexit : Exits overlay place (refs.reverse ++ followed) last more outcome) :
    Chases overlay place followed value (refs.length + more) outcome := by
  induction h generalizing followed with
  | stay value =>
    rw [List.reverse_nil, List.nil_append] at hexit
    cases hexit with
    | halt hhalts => exact .done (follow?_of_halts hhalts)
    | dangle href hnew htarget => exact .stop (by rw [follow?_of_text href hnew, htarget])
  | @follow value next last ref refs href htarget _ ih =>
    have hlist : (ref :: refs).reverse ++ followed = refs.reverse ++ ref :: followed := by simp
    rw [hlist] at hnodup hexit
    have hnew : ref ∉ followed := (List.nodup_cons.mp (List.nodup_append.mp hnodup).2.1).1
    have hfollow : follow? overlay place followed value = .ok (some (ref, next)) := by
      rw [follow?_of_text href hnew, htarget]
    have hsteps : (ref :: refs).length + more = refs.length + more + 1 := by
      rw [List.length_cons]
      omega
    rw [hsteps]
    exact .next hfollow (ih hnodup hexit)

/-! ### The bound -/

/-- The number of different references written in the overlay. -/
def referenceTexts (overlay : Value) : Nat := overlay.writtenReferences.eraseDups.length

/-- A value that is a reference has it written inside. -/
theorem mem_writtenReferences_of_reference? (h : reference? value = some (.text ref)) :
    ref ∈ value.writtenReferences := by
  cases value with
  | object members =>
    rw [Value.writtenReferences]
    exact Value.ownText_subset_members h (List.mem_singleton_self ref)
  | list items => cases h
  | scalar s => cases h

/-- Every reference on a chain through parts of the overlay is written there, also in the last value. -/
theorem Leads.written {last : Value} (h : Leads overlay value refs last)
    (hvalue : value.writtenReferences ⊆ overlay.writtenReferences) :
    refs ⊆ overlay.writtenReferences ∧ last.writtenReferences ⊆ overlay.writtenReferences := by
  induction h with
  | stay value => exact ⟨List.nil_subset _, hvalue⟩
  | follow href htarget _ ih =>
    obtain ⟨hrefs, hlast⟩ := ih (Pointer.writtenReferences_subset_of_target? htarget)
    exact ⟨List.cons_subset.mpr ⟨hvalue (mem_writtenReferences_of_reference? href), hrefs⟩, hlast⟩

/-- Different references written in the overlay are not more than there are. -/
theorem length_le_referenceTexts (hnodup : refs.Nodup) (h : refs ⊆ overlay.writtenReferences) :
    refs.length ≤ referenceTexts overlay :=
  List.Nodup.length_le_of_subset hnodup fun _ href => List.mem_eraseDups.mpr (h href)

/-- From a part of the overlay the loop takes at most one step for each reference written there. -/
theorem Leads.steps_le_of_written {last : Value} {more : Nat} (hleads : Leads overlay value refs last)
    (hvalue : value.writtenReferences ⊆ overlay.writtenReferences)
    (hnodup : (refs.reverse ++ followed).Nodup)
    (hexit : Exits overlay place (refs.reverse ++ followed) last more outcome) :
    refs.length + more ≤ referenceTexts overlay := by
  obtain ⟨hrefs, hlast⟩ := hleads.written hvalue
  have hdistinct : refs.Nodup := List.nodup_reverse.mp (List.nodup_append.mp hnodup).1
  cases hexit with
  | halt _ => exact length_le_referenceTexts hdistinct hrefs
  | @dangle ref href hnew _ =>
    have hfresh : ref ∉ refs := fun hmem =>
      hnew (List.mem_append_left followed (List.mem_reverse.mpr hmem))
    exact length_le_referenceTexts (List.nodup_cons.mpr ⟨hfresh, hdistinct⟩)
      (List.cons_subset.mpr ⟨hlast (mem_writtenReferences_of_reference? href), hrefs⟩)

/-- The loop takes at most one step more than there are different references in the overlay: only the first
reference may be written elsewhere. -/
theorem Chases.steps_le (h : Chases overlay place [] start steps outcome)
    (hstart : Followable overlay start) : steps ≤ referenceTexts overlay + 1 := by
  obtain ⟨refs, last, more, hleads, hnodup, hexit, rfl⟩ := h.exists_leads hstart List.nodup_nil
  cases hleads with
  | stay =>
    cases hexit
    · exact Nat.zero_le _
    · exact Nat.le_add_left _ _
  | @follow _ _ _ ref refs _ htarget hrest =>
    rw [List.reverse_cons, List.append_assoc] at hnodup hexit
    have hle := hrest.steps_le_of_written (Pointer.writtenReferences_subset_of_target? htarget) hnodup hexit
    rw [List.length_cons]
    omega

/-- The references written in the overlay that were not followed. -/
def unfollowed (overlay : Value) (followed : List Text) : List Text :=
  overlay.writtenReferences.eraseDups.filter (· ∉ followed)

/-- Following a new reference leaves fewer to follow. -/
theorem unfollowed_cons_lt (hwritten : ref ∈ overlay.writtenReferences) (hnew : ref ∉ followed) :
    (unfollowed overlay (ref :: followed)).length < (unfollowed overlay followed).length := by
  have hsublist : unfollowed overlay (ref :: followed) = (unfollowed overlay followed).filter (· ≠ ref) := by
    rw [unfollowed, unfollowed, List.filter_filter]
    refine List.filter_congr fun other _ => ?_
    simp
  rw [hsublist]
  refine List.length_filter_lt_length_iff_exists.mpr ⟨ref, ?_, by simp⟩
  exact List.mem_filter.mpr ⟨List.mem_eraseDups.mpr hwritten, by simpa using hnew⟩

/-- The loop comes to an end from every part of the overlay. -/
theorem exists_chases_of_written (place : Option Text) (followed : List Text)
    (hvalue : value.writtenReferences ⊆ overlay.writtenReferences) :
    ∃ steps outcome, Chases overlay place followed value steps outcome := by
  -- Every step leaves fewer references to follow, so the induction is on their number.
  induction hleft : (unfollowed overlay followed).length using Nat.strong_induction_on
    generalizing followed value with
  | _ left ih =>
    cases hfollow : follow? overlay place followed value with
    | error fault => exact ⟨1, _, .stop hfollow⟩
    | ok step =>
      cases step with
      | none => exact ⟨0, _, .done hfollow⟩
      | some step =>
        obtain ⟨href, hnew, htarget⟩ := target_of_follow? hfollow
        have hless := unfollowed_cons_lt (hvalue (mem_writtenReferences_of_reference? href)) hnew
        obtain ⟨steps, outcome, hchases⟩ := ih _ (hleft ▸ hless) (step.1 :: followed)
          (Pointer.writtenReferences_subset_of_target? htarget) rfl
        exact ⟨steps + 1, outcome, .next hfollow hchases⟩

/-- The loop comes to an end from every value. -/
theorem exists_chases (overlay : Value) (place : Option Text) (start : Value) :
    ∃ steps outcome, Chases overlay place [] start steps outcome := by
  cases hfollow : follow? overlay place [] start with
  | error fault => exact ⟨1, _, .stop hfollow⟩
  | ok step =>
    cases step with
    | none => exact ⟨0, _, .done hfollow⟩
    | some step =>
      obtain ⟨-, -, htarget⟩ := target_of_follow? hfollow
      obtain ⟨steps, outcome, hchases⟩ := exists_chases_of_written place [step.1]
        (Pointer.writtenReferences_subset_of_target? htarget)
      exact ⟨steps + 1, outcome, .next hfollow hchases⟩

/-- Following gives what the loop without a bound gives. -/
theorem Chases.dereference_eq (h : Chases overlay place [] start steps outcome)
    (hstart : Followable overlay start) : dereference overlay place start = outcome := by
  have hsteps := h.steps_le hstart
  have hdistinct : referenceTexts overlay ≤ overlay.writtenReferences.length :=
    List.Nodup.length_le_of_subset (BreadthFirst.eraseDups_nodup _) fun _ => List.mem_eraseDups.mp
  have hcount := overlay.writtenReferences_length_le
  exact h.followChain_eq (by omega)

/-! ### Where following stops -/

/-- The first value on a chain at which following stops, and the references that lead there. -/
structure StopsAt (overlay start : Value) (refs : List Text) (value : Value) : Prop where
  leads : Leads overlay start refs value
  halts : Halts refs value
  first : ∀ front other, Leads overlay start front other → front.length < refs.length → ¬ Halts front other

/-- A reference without a target that the chain reaches before any reference repeats. -/
def DanglesAt (overlay start : Value) (ref : Text) : Prop :=
  ∃ refs last, Leads overlay start refs last ∧ reference? last = some (.text ref) ∧
    (refs ++ [ref]).Nodup ∧ Pointer.target? overlay (Pointer.split ref) = .ok none

/-- A chain can be cut anywhere. -/
theorem Leads.exists_of_append {last : Value} {front rest : List Text}
    (h : Leads overlay start (front ++ rest) last) :
    ∃ middle, Leads overlay start front middle ∧ Leads overlay middle rest last := by
  induction front generalizing start with
  | nil => exact ⟨start, .stay start, h⟩
  | cons ref front ih =>
    cases h with
    | follow href htarget hrest =>
      obtain ⟨middle, hfront, hlast⟩ := ih hrest
      exact ⟨middle, .follow href htarget hfront, hlast⟩

/-- Chains can be put together. -/
theorem Leads.append {middle last : Value} {front rest : List Text} (h : Leads overlay start front middle)
    (hrest : Leads overlay middle rest last) : Leads overlay start (front ++ rest) last := by
  induction h with
  | stay => exact hrest
  | follow href htarget _ ih => exact .follow href htarget (ih hrest)

/-- A shorter chain from the same value is the beginning of a longer one. -/
theorem Leads.exists_of_length_le {last middle : Value} {front : List Text}
    (h : Leads overlay start refs last) (hfront : Leads overlay start front middle)
    (hle : front.length ≤ refs.length) : ∃ rest, refs = front ++ rest ∧ Leads overlay middle rest last := by
  induction hfront generalizing refs with
  | stay => exact ⟨refs, rfl, h⟩
  | follow href htarget _ ih =>
    cases h with
    | stay => cases hle
    | follow href' htarget' hrest =>
      cases href.symm.trans href'
      cases htarget.symm.trans htarget'
      obtain ⟨rest, rfl, hlast⟩ := ih hrest (Nat.le_of_succ_le_succ hle)
      exact ⟨rest, rfl, hlast⟩

/-- No chain goes on from a value that is no reference. -/
theorem Leads.eq_nil {last : Value} (h : Leads overlay value refs last) (hend : reference? value = none) :
    refs = [] := by
  cases h with
  | stay => rfl
  | follow href => rw [hend] at href; cases href

/-- No chain to a value that is no reference is shorter than another one from the same start. -/
theorem Leads.length_le {last middle : Value} {front : List Text} (h : Leads overlay start refs last)
    (hend : reference? last = none) (hfront : Leads overlay start front middle) :
    front.length ≤ refs.length := by
  by_contra hlong
  obtain ⟨rest, hrefs, hrest⟩ := hfront.exists_of_length_le h (by omega)
  rw [hrefs, hrest.eq_nil hend, List.append_nil] at hlong
  exact hlong (Nat.le_refl _)

/-- A chain that ends at a value that is no reference is not cyclic. -/
theorem Leads.not_cyclic {last : Value} (h : Leads overlay start refs last)
    (hend : reference? last = none) : ¬ Cyclic overlay start := by
  rintro ⟨front, middle, cycle, hfront, hcycle, haround⟩
  obtain ⟨rest, -, hrest⟩ := h.exists_of_length_le hfront (h.length_le hend hfront)
  -- Going around once more before the end makes the chain longer.
  have hle := hrest.length_le hend (haround.append hrest)
  have hpos := List.length_pos_iff.mpr hcycle
  rw [List.length_append] at hle
  omega

/-- A chain that comes back to one of its references is cyclic. -/
theorem Leads.cyclic {last : Value} (h : Leads overlay start refs last) (hmem : ref ∈ refs)
    (href : reference? last = some (.text ref)) : Cyclic overlay start := by
  obtain ⟨front, rest, rfl⟩ := List.append_of_mem hmem
  obtain ⟨middle, hfront, hmiddle⟩ := h.exists_of_append
  cases hmiddle with
  | @follow _ next _ _ _ href' htarget hrest =>
    refine ⟨front ++ [ref], next, rest ++ [ref], ?_, by simp, ?_⟩
    · exact hfront.append (.follow href' htarget (.stay next))
    · exact hrest.append (.follow href htarget (.stay next))

/-- Different references stop following nowhere before the last of them. -/
theorem Leads.stopsAt (h : Leads overlay start refs value) (hnodup : refs.Nodup) (hhalts : Halts refs value) :
    StopsAt overlay start refs value := by
  refine ⟨h, hhalts, fun front other hfront hlt hstop => ?_⟩
  obtain ⟨rest, rfl, hrest⟩ := h.exists_of_length_le hfront (Nat.le_of_lt hlt)
  cases hrest with
  | stay => simp at hlt
  | @follow _ _ _ ref _ href =>
    rcases hstop with hnone | ⟨again, hagain, href'⟩
    · rw [href] at hnone
      cases hnone
    · cases href.symm.trans href'
      exact (List.nodup_append.mp hnodup).2.2 ref hagain ref List.mem_cons_self rfl

/-- If following stops nowhere before the end of a chain, its references are different. -/
theorem Leads.nodup (h : Leads overlay start refs value)
    (hfirst : ∀ front other, Leads overlay start front other → front.length < refs.length →
      ¬ Halts front other) : refs.Nodup := by
  induction refs using List.reverseRecOn generalizing value with
  | nil => exact List.nodup_nil
  | append_singleton front ref ih =>
    obtain ⟨middle, hfront, hlast⟩ := h.exists_of_append
    have hdistinct : front.Nodup :=
      ih hfront fun front' other hleads hlt => hfirst front' other hleads (by simp; omega)
    have hnew : ref ∉ front := by
      intro hmem
      cases hlast with
      | follow href => exact hfirst front middle hfront (by simp) (Or.inr ⟨ref, hmem, href⟩)
    rw [List.nodup_append]
    exact ⟨hdistinct, List.nodup_singleton ref, fun a ha b hb hab =>
      hnew (List.mem_singleton.mp hb ▸ hab ▸ ha)⟩

/-- What comes out is read off the end of the chain of different references. -/
theorem dereference_eq_iff (hstart : Followable overlay start) :
    dereference overlay place start = outcome ↔
      ∃ refs last more, Leads overlay start refs last ∧ refs.Nodup ∧
        Exits overlay place refs.reverse last more outcome := by
  constructor
  · rintro rfl
    obtain ⟨steps, outcome, hchases⟩ := exists_chases overlay place start
    obtain ⟨refs, last, more, hleads, hnodup, hexit, -⟩ := hchases.exists_leads hstart List.nodup_nil
    rw [List.append_nil] at hnodup hexit
    rw [hchases.dereference_eq hstart]
    exact ⟨refs, last, more, hleads, List.nodup_reverse.mp hnodup, hexit⟩
  · rintro ⟨refs, last, more, hleads, hnodup, hexit⟩
    rw [← List.append_nil refs.reverse] at hexit
    have hreverse : (refs.reverse ++ []).Nodup := by rwa [List.append_nil, List.nodup_reverse]
    exact (hleads.chases hreverse hexit).dereference_eq hstart

/-- The order of the references does not matter for stopping. -/
theorem halts_reverse_iff : Halts refs.reverse value ↔ Halts refs value := by
  simp only [Halts, List.mem_reverse]

/-- A value comes out exactly if it is the first at which following stops, with the last reference that
leads there. -/
theorem dereference_eq_ok_iff {last : Option Text} (hstart : Followable overlay start) :
    dereference overlay place start = .ok (value, last) ↔
      ∃ refs, StopsAt overlay start refs value ∧ last = refs.getLast? := by
  rw [dereference_eq_iff hstart]
  constructor
  · rintro ⟨refs, value, more, hleads, hnodup, hexit⟩
    cases hexit with
    | halt hhalts =>
      exact ⟨refs, hleads.stopsAt hnodup (halts_reverse_iff.mp hhalts), List.head?_reverse⟩
  · rintro ⟨refs, hstops, rfl⟩
    refine ⟨refs, value, 0, hstops.leads, hstops.leads.nodup hstops.first, ?_⟩
    rw [← List.head?_reverse]
    exact .halt (halts_reverse_iff.mpr hstops.halts)

/-- A fault comes out exactly if the chain reaches a reference without a target before any reference
repeats, and it names that reference. -/
theorem dereference_eq_error_iff {fault : Fault} (hstart : Followable overlay start) :
    dereference overlay place start = .error fault ↔
      ∃ ref, DanglesAt overlay start ref ∧ fault = .schema (.unresolved ref) place := by
  have hnodup_iff (refs : List Text) (ref : Text) :
      (refs ++ [ref]).Nodup ↔ refs.Nodup ∧ ref ∉ refs.reverse := by
    rw [List.mem_reverse, ← List.concat_eq_append, List.nodup_concat, and_comm]
  rw [dereference_eq_iff hstart]
  constructor
  · rintro ⟨refs, last, more, hleads, hnodup, hexit⟩
    cases hexit with
    | dangle href hnew htarget =>
      exact ⟨_, ⟨refs, last, hleads, href, (hnodup_iff _ _).mpr ⟨hnodup, hnew⟩, htarget⟩, rfl⟩
  · rintro ⟨ref, ⟨refs, last, hleads, href, hdistinct, htarget⟩, rfl⟩
    obtain ⟨hnodup, hnew⟩ := (hnodup_iff _ _).mp hdistinct
    exact ⟨refs, last, 1, hleads, hnodup, .dangle href hnew htarget⟩

/-- Following stops at a reference exactly on a cyclic chain. -/
theorem StopsAt.cyclic_iff (h : StopsAt overlay start refs value) :
    reference? value ≠ none ↔ Cyclic overlay start := by
  constructor
  · intro hreference
    rcases h.halts with hnone | ⟨ref, hmem, href⟩
    · exact absurd hnone hreference
    · exact h.leads.cyclic hmem href
  · intro hcyclic hnone
    exact h.leads.not_cyclic hnone hcyclic

/-- Nothing is followed exactly from a value that is no reference. -/
theorem StopsAt.getLast?_eq_none_iff (h : StopsAt overlay start refs value) :
    refs.getLast? = none ↔ reference? start = none := by
  rw [List.getLast?_eq_none_iff]
  constructor
  · rintro rfl
    cases h.leads with
    | stay =>
      rcases h.halts with hnone | ⟨ref, hmem, -⟩
      · exact hnone
      · cases hmem
  · exact h.leads.eq_nil

/-- The loop along a chain comes to an end, after at most one step more than there are different references
written in the overlay, and following gives what it gives. It fails exactly if the chain reaches a reference
whose target is missing or null before any reference repeats. Otherwise the value returned is the first one
on the chain that is no reference or whose reference was followed before, which happens only on a cyclic
chain, and the reference returned is the last one followed. There is none exactly if the start is no
reference. -/
theorem dereference_stops {overlay start : Value} (place : Option Text)
    (hstart : Followable overlay start) :
    (∃ steps, Chases overlay place [] start steps (dereference overlay place start)) ∧
      (∀ steps outcome, Chases overlay place [] start steps outcome →
        steps ≤ overlay.writtenReferences.eraseDups.length + 1 ∧
          outcome = dereference overlay place start) ∧
      (∀ fault, dereference overlay place start = .error fault ↔
        ∃ ref, DanglesAt overlay start ref ∧ fault = .schema (.unresolved ref) place) ∧
      (∀ value last, dereference overlay place start = .ok (value, last) ↔
        ∃ refs, StopsAt overlay start refs value ∧ last = refs.getLast?) ∧
      ∀ value last, dereference overlay place start = .ok (value, last) →
        (reference? value ≠ none ↔ Cyclic overlay start) ∧ (last = none ↔ reference? start = none) := by
  refine ⟨?_, ?_, fun fault => dereference_eq_error_iff hstart,
    fun value last => dereference_eq_ok_iff hstart, ?_⟩
  · obtain ⟨steps, outcome, hchases⟩ := exists_chases overlay place start
    rw [hchases.dereference_eq hstart]
    exact ⟨steps, hchases⟩
  · intro steps outcome hchases
    exact ⟨hchases.steps_le hstart, (hchases.dereference_eq hstart).symm⟩
  · intro value last hresult
    obtain ⟨refs, hstops, rfl⟩ := (dereference_eq_ok_iff hstart).mp hresult
    exact ⟨hstops.cyclic_iff, hstops.getLast?_eq_none_iff⟩

/-- A value that is a reference. -/
def referenceTo (ref : Text) : Value := .record [("$ref", .text ref)]

/-- Two members that refer to each other, one of them by a path with an empty segment. -/
def mutualReferences : Value := .record [("a", referenceTo "#/b"), ("b", referenceTo "#//a")]

/-- Every chain through the two members can be followed. -/
theorem followable_mutualReferences : Followable mutualReferences (referenceTo "#/a") := by
  -- The chain stays among three references, each of which leads to one of them.
  have hclosed (refs : List Text) (last : Value) (ref : Text) (href : ref ∈ [("#/a" : Text), "#/b", "#//a"])
      (h : Leads mutualReferences (referenceTo ref) refs last) :
      ∃ other ∈ [("#/a" : Text), "#/b", "#//a"], last = referenceTo other := by
    induction refs generalizing ref with
    | nil =>
      cases h
      exact ⟨ref, href, rfl⟩
    | cons first refs ih =>
      cases h with
      | follow hfirst htarget hrest =>
        cases hfirst
        simp only [List.mem_cons, List.not_mem_nil, or_false] at href
        rcases href with rfl | rfl | rfl
        · cases htarget.symm.trans (show _ = Except.ok (some (referenceTo "#/b")) from rfl)
          exact ih "#/b" (by simp) hrest
        · cases htarget.symm.trans (show _ = Except.ok (some (referenceTo "#//a")) from rfl)
          exact ih "#//a" (by simp) hrest
        · cases htarget.symm.trans (show _ = Except.ok (some (referenceTo "#/b")) from rfl)
          exact ih "#/b" (by simp) hrest
  have hplain {ref : Text} (h : Pointer.split ref = [("a" : Text)] ∨ Pointer.split ref = [("b" : Text)]) :
      ∀ segment ∈ Pointer.split ref, ∃ n, numeral? segment = .ok n := by
    intro segment hsegment
    rcases h with h | h
    · exact ⟨none, List.mem_singleton.mp (h ▸ hsegment) ▸ rfl⟩
    · exact ⟨none, List.mem_singleton.mp (h ▸ hsegment) ▸ rfl⟩
  intro refs value hleads reference hreference
  obtain ⟨ref, href, rfl⟩ := hclosed refs value "#/a" (by simp) hleads
  cases hreference
  refine ⟨ref, rfl, ?_⟩
  simp only [List.mem_cons, List.not_mem_nil, or_false] at href
  rcases href with rfl | rfl | rfl
  · exact hplain (Or.inl rfl)
  · exact hplain (Or.inr rfl)
  · exact hplain (Or.inl rfl)

/-- Two members that refer to each other are followed until a reference repeats, which takes one step more
than there are different references in the overlay. -/
theorem dereference_stops_mutualReferences :
    Chases mutualReferences none [] (referenceTo "#/a") 3 (.ok (referenceTo "#/b", some "#//a")) ∧
      mutualReferences.writtenReferences.eraseDups.length = 2 ∧
      dereference mutualReferences none (referenceTo "#/a") = .ok (referenceTo "#/b", some "#//a") ∧
      Cyclic mutualReferences (referenceTo "#/a") := by
  obtain ⟨-, hloop, -, -, hcyclic⟩ := dereference_stops none followable_mutualReferences
  have hchases : Chases mutualReferences none [] (referenceTo "#/a") 3
      (.ok (referenceTo "#/b", some "#//a")) :=
    .next rfl (.next rfl (.next rfl (.done rfl)))
  have hresult := (hloop _ _ hchases).2.symm
  exact ⟨hchases, rfl, hresult, (hcyclic _ _ hresult).1.mp nofun⟩

end SchemaTypes.Api
