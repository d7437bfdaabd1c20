import SchemaTypes.Proofs.Api.Chain
import SchemaTypes.Proofs.Api.Outputs

/-!
# References that leave the document

A reference stays inside its document if it starts with an anchor. A schema may refer only to places inside:
any other reference is refused, and nothing is remembered of it. The request body of an operation, its
parameters, its responses and their headers may be given by references as well, and these are followed without
asking for the anchor. Hence one without it is looked up in the document at hand, like the one with it: they
fail together, and they lead to the same value unless the chain goes round in circles.
-/

namespace SchemaTypes

namespace Pointer

/-- A reference without an anchor has the segments of the one with it. -/
theorem split_anchor {ref : Text} (h : isLocal ref = false) : split ("#" ++ ref) = split ref := by
  have hplain : dropAnchor ref.toList = ref.toList := by
    rw [dropAnchor.eq_def]
    split
    next rest hanchor =>
      rw [isLocal, hanchor] at h
      cases h
    next => rfl
  have hanchored : dropAnchor ("#" ++ ref).toList = ref.toList := by
    rw [Text.toList_append]
    rfl
  rw [split, split, hanchored, hplain]

end Pointer

/-- A schema that refers to a place outside its document is refused, and nothing is remembered of it. -/
theorem Scope.run_register_of_not_isLocal (scope : Scope) {ref : Text} (h : Pointer.isLocal ref = false)
    (d : Discovery) :
    (scope.register (.text ref)).run d =
      (.error (scope.refused (.text ref) "external references are not supported"), d) := by
  have htarget : scope.target (.text ref) =
      .error (scope.refused (.text ref) "external references are not supported") := by
    rw [Scope.target, if_neg (by simp [h])]
  rw [Scope.register, htarget, Faulting.run_bind, Faulting.run_lift]

namespace Api

variable {overlay start value other last target : Value} {place : Option Text}
  {followed refs : List Text} {ref : Text} {bound : Nat}

/-! ### Chains to their end -/

/-- A reference without a target. -/
def Stuck (overlay value : Value) : Prop :=
  ∃ reference, reference? value = some reference ∧
    ∀ ref next, reference = .text ref → Pointer.target? overlay (Pointer.split ref) ≠ .ok (some next)

/-- No chain goes on from a value. -/
def Ended (overlay value : Value) : Prop :=
  ∀ refs last, Leads overlay value refs last → refs = []

/-- No chain goes on from a reference without a target. -/
theorem Stuck.ended (h : Stuck overlay value) : Ended overlay value := by
  intro refs last hleads
  obtain ⟨reference, hreference, hstuck⟩ := h
  cases hleads with
  | stay => rfl
  | follow href htarget =>
    cases hreference.symm.trans href
    exact absurd htarget (hstuck _ _ rfl)

/-- No chain goes on from a value that is no reference. -/
theorem ended_of_reference?_eq_none (h : reference? value = none) : Ended overlay value :=
  fun _ _ hleads => hleads.eq_nil h

/-- Every reference on a chain has a target. -/
theorem Leads.exists_target (h : Leads overlay start refs last) (hmem : ref ∈ refs) :
    ∃ next, Pointer.target? overlay (Pointer.split ref) = .ok (some next) := by
  induction h with
  | stay => cases hmem
  | follow _ htarget _ ih =>
    rcases List.mem_cons.mp hmem with rfl | hrest
    · exact ⟨_, htarget⟩
    · exact ih hrest

/-- No reference occurs twice on a chain that comes to an end. -/
theorem Leads.nodup_of_ended (h : Leads overlay start refs last) (hend : Ended overlay last) : refs.Nodup := by
  induction h with
  | stay => exact List.nodup_nil
  | @follow value next last ref refs href htarget hrest ih =>
    refine List.nodup_cons.mpr ⟨fun hmem => ?_, ih hend⟩
    obtain ⟨front, rest, rfl⟩ := List.append_of_mem hmem
    obtain ⟨middle, -, hmiddle⟩ := hrest.exists_of_append
    -- The chain could go to its end from the first occurrence as it does from the second one.
    cases hmiddle with
    | follow href' htarget' hlast =>
      have hlong : Leads overlay value (ref :: (front ++ ref :: rest)) last := .follow href htarget hrest
      have hshort : Leads overlay value (ref :: rest) last := .follow href htarget' hlast
      obtain ⟨more, hrefs, hmore⟩ := hlong.exists_of_length_le hshort (by simp; omega)
      rw [hend more last hmore, List.append_nil] at hrefs
      have hlength := congrArg List.length hrefs
      simp only [List.length_cons, List.length_append] at hlength
      omega

/-- Following goes along a chain of different references. -/
theorem Leads.followChain_add (h : Leads overlay value refs last) (hnodup : (refs.reverse ++ followed).Nodup)
    (place : Option Text) (bound : Nat) :
    followChain overlay place (refs.length + bound) followed value =
      followChain overlay place bound (refs.reverse ++ followed) last := by
  induction h generalizing followed with
  | stay => simp
  | @follow value next last ref refs href htarget _ ih =>
    have hlist : (ref :: refs).reverse ++ followed = refs.reverse ++ ref :: followed := by simp
    rw [hlist] at hnodup ⊢
    have hnew : ref ∉ followed := (List.nodup_cons.mp (List.nodup_append.mp hnodup).2.1).1
    have hsteps : (ref :: refs).length + bound = refs.length + bound + 1 := by
      rw [List.length_cons]
      omega
    rw [hsteps, followChain_succ, follow?_of_text href hnew, htarget]
    exact ih hnodup

/-- A chain of different references is not longer than the bound on following. -/
theorem Leads.length_le_bound (h : Leads overlay start refs last) (hnodup : refs.Nodup) :
    refs.length ≤ overlay.referenceCount + 1 := by
  cases h with
  | stay => exact Nat.zero_le _
  | follow _ htarget hrest =>
    obtain ⟨hwritten, -⟩ := hrest.written (Pointer.writtenReferences_subset_of_target? htarget)
    have hrefs := List.Nodup.length_le_of_subset (List.nodup_cons.mp hnodup).2 hwritten
    have hcount := overlay.writtenReferences_length_le
    rw [List.length_cons]
    omega

/-- On a chain that comes to an end, following comes to its last value with a step to spare. -/
theorem Leads.exists_dereference_eq (h : Leads overlay start refs last) (hend : Ended overlay last)
    (place : Option Text) :
    ∃ bound, dereference overlay place start = followChain overlay place (bound + 1) refs.reverse last := by
  have hnodup := h.nodup_of_ended hend
  have hlength := h.length_le_bound hnodup
  have hsteps : overlay.referenceCount + 2 =
      refs.length + (overlay.referenceCount + 1 - refs.length + 1) := by omega
  refine ⟨overlay.referenceCount + 1 - refs.length, ?_⟩
  rw [dereference, hsteps, h.followChain_add (by rwa [List.append_nil, List.nodup_reverse]), List.append_nil]

/-- Following a chain to a value that is no reference gives this value and the last reference. -/
theorem Leads.dereference_eq (h : Leads overlay start refs target) (hend : reference? target = none)
    (place : Option Text) : dereference overlay place start = .ok (target, refs.getLast?) := by
  obtain ⟨bound, hbound⟩ := h.exists_dereference_eq (ended_of_reference?_eq_none hend) place
  rw [hbound, followChain_succ, follow?_of_halts (.inl hend), List.head?_reverse]

/-- Following a chain to a reference without a target fails. -/
theorem Leads.exists_dereference_eq_error (h : Leads overlay start refs last) (hstuck : Stuck overlay last)
    (place : Option Text) : ∃ fault, dereference overlay place start = .error fault := by
  obtain ⟨bound, hbound⟩ := h.exists_dereference_eq hstuck.ended place
  obtain ⟨reference, hreference, hnone⟩ := hstuck
  rw [hbound, followChain_succ]
  cases hfollow : follow? overlay place refs.reverse last with
  | error fault => exact ⟨fault, rfl⟩
  | ok step =>
    cases step with
    | some step =>
      obtain ⟨href, -, htarget⟩ := target_of_follow? hfollow
      cases hreference.symm.trans href
      exact absurd htarget (hnone _ _ rfl)
    | none =>
      -- A reference that was followed before has a target.
      rcases halts_of_follow? hfollow with hend | ⟨ref, hmem, href⟩
      · rw [hend] at hreference
        cases hreference
      · cases hreference.symm.trans href
        obtain ⟨next, htarget⟩ := h.exists_target (List.mem_reverse.mp hmem)
        exact absurd htarget (hnone _ _ rfl)

/-- A step that fails does so at a reference without a target. -/
theorem stuck_of_follow? {fault : Fault} (h : follow? overlay place followed value = .error fault) :
    Stuck overlay value := by
  rcases follow?_cases overlay place followed value with
    hhalts | ⟨ref, href, hnew⟩ | ⟨reference, _, hreference, hother, -⟩
  · rw [follow?_of_halts hhalts] at h
    cases h
  · refine ⟨_, href, fun ref' next htext htarget => ?_⟩
    cases htext
    rw [follow?_of_text href hnew, htarget] at h
    cases h
  · exact ⟨reference, hreference, fun ref _ htext => absurd htext (hother ref)⟩

/-- Where following succeeds, a chain leads to what comes out. -/
theorem exists_leads_of_followChain {reached : Option Text}
    (h : followChain overlay place bound followed value = .ok (target, reached)) :
    ∃ refs, Leads overlay value refs target ∧ reached = (refs.reverse ++ followed).head? := by
  induction bound generalizing followed value with
  | zero =>
    cases h
    exact ⟨[], .stay _, rfl⟩
  | succ bound ih =>
    rw [followChain_succ] at h
    cases hfollow : follow? overlay place followed value with
    | error fault =>
      rw [hfollow] at h
      cases h
    | ok step =>
      rw [hfollow] at h
      cases step with
      | none =>
        cases h
        exact ⟨[], .stay _, rfl⟩
      | some step =>
        obtain ⟨href, -, htarget⟩ := target_of_follow? hfollow
        obtain ⟨refs, hleads, hreached⟩ := ih h
        refine ⟨step.1 :: refs, .follow href htarget hleads, ?_⟩
        rw [hreached, List.reverse_cons, List.append_assoc, List.singleton_append]

/-- Where following fails, the chain leads to a reference without a target. -/
theorem exists_stuck_of_followChain {fault : Fault}
    (h : followChain overlay place bound followed value = .error fault) :
    ∃ refs last, Leads overlay value refs last ∧ Stuck overlay last := by
  induction bound generalizing followed value with
  | zero => cases h
  | succ bound ih =>
    rw [followChain_succ] at h
    cases hfollow : follow? overlay place followed value with
    | error fault => exact ⟨[], value, .stay value, stuck_of_follow? hfollow⟩
    | ok step =>
      rw [hfollow] at h
      cases step with
      | none => cases h
      | some step =>
        obtain ⟨href, -, htarget⟩ := target_of_follow? hfollow
        obtain ⟨refs, last, hleads, hstuck⟩ := ih h
        exact ⟨step.1 :: refs, last, .follow href htarget hleads, hstuck⟩

/-- Following fails exactly if the chain leads to a reference without a target. -/
theorem exists_dereference_eq_error_iff :
    (∃ fault, dereference overlay place start = .error fault) ↔
      ∃ refs last, Leads overlay start refs last ∧ Stuck overlay last := by
  constructor
  · rintro ⟨fault, hfault⟩
    exact exists_stuck_of_followChain hfault
  · rintro ⟨refs, last, hleads, hstuck⟩
    exact hleads.exists_dereference_eq_error hstuck place

/-- A reference from which following succeeds is a text, and it is the first one on the chain to what comes
out. -/
theorem exists_leads_of_dereference {reference : Value} {reached : Option Text}
    (h : dereference overlay place value = .ok (target, reached))
    (hreference : reference? value = some reference) :
    ∃ ref refs, reference = .text ref ∧ Leads overlay value (ref :: refs) target ∧
      reached = (ref :: refs).getLast? := by
  rw [dereference, followChain_succ] at h
  cases hfollow : follow? overlay place [] value with
  | error fault =>
    rw [hfollow] at h
    cases h
  | ok step =>
    rw [hfollow] at h
    cases step with
    | none =>
      rcases halts_of_follow? hfollow with hend | ⟨ref, hmem, -⟩
      · rw [hend] at hreference
        cases hreference
      · cases hmem
    | some step =>
      obtain ⟨href, -, htarget⟩ := target_of_follow? hfollow
      obtain ⟨refs, hleads, hreached⟩ := exists_leads_of_followChain h
      cases hreference.symm.trans href
      refine ⟨step.1, refs, rfl, .follow href htarget hleads, ?_⟩
      rw [hreached, ← List.head?_reverse, List.reverse_cons]

/-! ### References with the same segments -/

/-- Two values are looked up alike: following fails from both or from none, and it leads from both to the same
values that are no references. -/
structure LookedUpAlike (overlay : Value) (place : Option Text) (value other : Value) : Prop where
  fails : (∃ fault, dereference overlay place value = .error fault) ↔
    ∃ fault, dereference overlay place other = .error fault
  leads : ∀ target, reference? target = none →
    ((∃ reached, dereference overlay place value = .ok (target, reached)) ↔
      ∃ reached, dereference overlay place other = .ok (target, reached))

section Respelled

variable {spelling : Text}

/-- A chain from a reference goes on from any other one with the same segments. -/
theorem Leads.respell (h : Leads overlay value (ref :: refs) last)
    (hother : reference? other = some (.text spelling)) (hsplit : Pointer.split ref = Pointer.split spelling) :
    Leads overlay other (spelling :: refs) last := by
  cases h with
  | follow _ htarget hrest => exact .follow hother (hsplit ▸ htarget) hrest

/-- If one of two references with the same segments leads to a reference without a target, so does the other. -/
theorem exists_stuck_of_respelled (hvalue : reference? value = some (.text ref))
    (hother : reference? other = some (.text spelling)) (hsplit : Pointer.split ref = Pointer.split spelling)
    (h : ∃ refs last, Leads overlay value refs last ∧ Stuck overlay last) :
    ∃ refs last, Leads overlay other refs last ∧ Stuck overlay last := by
  obtain ⟨refs, last, hleads, hstuck⟩ := h
  cases hleads with
  | stay =>
    obtain ⟨reference, hreference, hnone⟩ := hstuck
    cases hreference.symm.trans hvalue
    refine ⟨[], other, .stay other, _, hother, fun _ next htext => ?_⟩
    cases htext
    exact hsplit ▸ hnone ref next rfl
  | follow href htarget hrest =>
    cases hvalue.symm.trans href
    exact ⟨_, last, (Leads.follow href htarget hrest).respell hother hsplit, hstuck⟩

/-- Following leads from one of two references with the same segments where it leads from the other. -/
theorem exists_dereference_eq_of_respelled (hvalue : reference? value = some (.text ref))
    (hother : reference? other = some (.text spelling)) (hsplit : Pointer.split ref = Pointer.split spelling)
    (hend : reference? target = none)
    (h : ∃ reached, dereference overlay place value = .ok (target, reached)) :
    ∃ reached, dereference overlay place other = .ok (target, reached) := by
  obtain ⟨reached, hreached⟩ := h
  obtain ⟨_, refs, htext, hleads, -⟩ := exists_leads_of_dereference hreached hvalue
  cases htext
  exact ⟨_, (hleads.respell hother hsplit).dereference_eq hend place⟩

/-- References with the same segments are looked up alike. -/
theorem lookedUpAlike_of_split_eq (place : Option Text) (hvalue : reference? value = some (.text ref))
    (hother : reference? other = some (.text spelling)) (hsplit : Pointer.split ref = Pointer.split spelling) :
    LookedUpAlike overlay place value other := by
  refine ⟨?_, fun target hend => ⟨?_, ?_⟩⟩
  · rw [exists_dereference_eq_error_iff, exists_dereference_eq_error_iff]
    exact ⟨exists_stuck_of_respelled hvalue hother hsplit, exists_stuck_of_respelled hother hvalue hsplit.symm⟩
  · exact exists_dereference_eq_of_respelled hvalue hother hsplit hend
  · exact exists_dereference_eq_of_respelled hother hvalue hsplit.symm hend

end Respelled

/-! ### References met in operations -/

/-- What an operation may give by a reference, and what has been put aside when it is met: its request body,
its parameters, its responses, and the headers of responses with content. -/
inductive Turn.Meets (setting : Setting) (turn : Turn) : Scratch → Value → Prop where
  | body : Meets setting turn turn.scratch turn.bodySource
  | parameter {value : Value} (h : value ∈ turn.parameterSources) :
    Meets setting turn (turn.afterBody setting) value
  | response {reply : Reply} (h : reply ∈ turn.replies setting) : Meets setting turn reply.scratch reply.source
  | header {reply : Reply} {header : Scalar × Value} (hreply : reply ∈ turn.replies setting)
    (hcontent : reply.hasContent setting turn.operation = true)
    (hheader : header ∈ reply.headerSources setting turn.operation) :
    Meets setting turn (reply.after setting turn.operation) header.2

/-- All that an operation may give by a reference is reached in its turn. -/
theorem declaresInTurn_reached (setting : Setting) :
    DeclaresInTurn setting fun turn _ => ∀ scratch value, turn.Meets setting scratch value →
      Follows (setting.overlay.value scratch) turn.operation value := by
  refine ((declaresInTurn_inputs setting).and (declaresInTurn_replies setting)).weaken ?_
  rintro turn added ⟨hinputs, hreplies, -⟩ scratch value hmeets
  cases hmeets with
  | body => exact hinputs.reaches.body
  | parameter h => exact hinputs.reaches.parameters _ h
  | response h => exact (hreplies _ h).source
  | header hreply hcontent hheader => exact (hreplies _ hreply).headers hcontent _ hheader

/-- Schemas may refer to places inside the document only: every other reference is refused, and nothing is
remembered of it. Elsewhere the anchor of a reference is not asked for: without it a reference is looked up like
the one with it. In a document that compiles, whatever reference gives a request body, a parameter, a response or
a header is a text that was looked up in this document with what has been put aside, and the chain it starts leads
to what was compiled. -/
theorem containers_disregard_anchor (naming : Naming) (document base : Value) (options : Options) :
    (∀ (scope : Scope) (ref : Text) (d : Discovery), Pointer.isLocal ref = false →
      (scope.register (.text ref)).run d =
        (.error (scope.refused (.text ref) "external references are not supported"), d)) ∧
    (∀ (overlay value anchored : Value) (place : Option Text) (ref : Text), Pointer.isLocal ref = false →
      reference? value = some (.text ref) → reference? anchored = some (.text ("#" ++ ref)) →
      LookedUpAlike overlay place value anchored) ∧
    ∀ tree, compile naming document base options = .ok tree →
      ∃ c : Compilation naming document base options tree,
        (turns c.setting).map (·.source) = documentSources c.overlay.document ∧
        ∀ turn ∈ turns c.setting, ∀ scratch value reference, turn.Meets c.setting scratch value →
          reference? value = some reference →
          ∃ ref refs target, reference = .text ref ∧
            Leads (c.overlay.value scratch) value (ref :: refs) target ∧
            resolved (c.overlay.value scratch) turn.operation value = (target, (ref :: refs).getLast?) := by
  refine ⟨fun scope ref d hlocal => scope.run_register_of_not_isLocal hlocal d, ?_, fun tree h => ?_⟩
  · intro overlay value anchored place ref hlocal hvalue hanchored
    exact lookedUpAlike_of_split_eq place hvalue hanchored (Pointer.split_anchor hlocal).symm
  · obtain ⟨c, hblocks⟩ := DeclaresInTurn.exists_compilation declaresInTurn_reached h
    refine ⟨c, map_source_turnsFrom c.setting [] .empty _, ?_⟩
    intro turn hturn scratch value reference hmeets hreference
    obtain ⟨hfollows, -⟩ := (List.forall₂_and_left _ _).mp (hblocks.imp fun _ _ h => ⟨h, trivial⟩)
    obtain ⟨ref, refs, htext, hleads, hreached⟩ :=
      exists_leads_of_dereference (hfollows turn hturn scratch value hmeets) hreference
    exact ⟨ref, refs, _, htext, hleads, Prod.ext rfl hreached⟩

/-- A document whose operation has a parameter by a reference without an anchor. -/
def unanchoredDocument : Members :=
  operationDocument sharedComponents [] [referenceTo "components/parameters/PetId"] []

/-- The document compiles. -/
theorem exists_compile_unanchored :
    ∃ tree, compile .standard (.object unanchoredDocument) (.text "API") .default = .ok tree :=
  Faulting.exists_eq_ok (by decide +kernel)

/-- The setting of the document. -/
def unanchoredSetting : Setting :=
  ⟨⟨unanchoredDocument, sharedComponents, []⟩, .standard, .text "API", .default⟩

/-- The only operation of the document has this parameter. -/
theorem exists_turn_unanchored :
    ∃ turn, turns unanchoredSetting = [turn] ∧
      turn.parameterSources = [referenceTo "components/parameters/PetId"] :=
  ⟨_, rfl, rfl⟩

/-- The parameter of the document is found where the reference with an anchor would lead. -/
theorem containers_disregard_anchor_parameter :
    Pointer.isLocal "components/parameters/PetId" = false ∧
    ∃ tree, compile .standard (.object unanchoredDocument) (.text "API") .default = .ok tree ∧
      ∃ (c : Compilation .standard (.object unanchoredDocument) (.text "API") .default tree)
        (scratch : Scratch) (refs : List Text) (target : Value),
        Leads (c.overlay.value scratch) (referenceTo "components/parameters/PetId")
          ("components/parameters/PetId" :: refs) target ∧
        LookedUpAlike (c.overlay.value scratch) none (referenceTo "components/parameters/PetId")
          (referenceTo "#components/parameters/PetId") := by
  have hlocal : Pointer.isLocal "components/parameters/PetId" = false := by decide
  obtain ⟨tree, h⟩ := exists_compile_unanchored
  obtain ⟨turn, hturn, hsources⟩ := exists_turn_unanchored
  obtain ⟨-, halike, hcompiled⟩ :=
    containers_disregard_anchor .standard (.object unanchoredDocument) (.text "API") .default
  obtain ⟨c, -, hmet⟩ := hcompiled tree h
  have hsetting : c.setting = unanchoredSetting := c.setting_eq rfl
  rw [hsetting, hturn, List.forall_mem_singleton] at hmet
  have hmeets : turn.Meets unanchoredSetting (turn.afterBody unanchoredSetting)
      (referenceTo "components/parameters/PetId") := .parameter (by rw [hsources]; exact List.mem_cons_self)
  obtain ⟨ref, refs, target, htext, hleads, -⟩ := hmet _ _ _ hmeets rfl
  cases htext
  exact ⟨hlocal, tree, h, c, _, refs, target, hleads, halike _ _ _ none _ hlocal rfl rfl⟩

/-- A reference without an anchor stands for a parameter, and the document compiles. -/
theorem container_reference_unanchored :
    Pointer.isLocal "components/parameters/PetId" = false ∧
    (∃ turn ∈ turns unanchoredSetting,
      referenceTo ("components/parameters/PetId" : Text) ∈ turn.parameterSources) ∧
    ∃ tree, compile .standard (.object unanchoredDocument) (.text "API") .default = .ok tree := by
  obtain ⟨turn, hturn, hsources⟩ := exists_turn_unanchored
  refine ⟨by decide, ⟨turn, ?_, ?_⟩, exists_compile_unanchored⟩
  · rw [hturn]
    exact List.mem_cons_self
  · rw [hsources]
    exact List.mem_cons_self

end Api

end SchemaTypes
