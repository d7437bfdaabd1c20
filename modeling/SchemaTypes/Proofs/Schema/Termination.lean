import SchemaTypes.Proofs.Schema.Reachability

/-!
# Resolution comes to an end

The loop over the pending references is stated here without a bound on its turns. It comes to an end in
every state, whatever is known, pending or taken up there, and after at most as many turns as there are
references pending and different paths written in the document. The bound that resolution counts down
from is therefore never reached, and compiling gives what the loop gives.

Every turn removes a pending reference. A reference that joins is written in the document and was not
known before, so each written path can join once. The measure is the number of references pending and
of written paths that are not known.
-/

namespace SchemaTypes

namespace Discovery

/-- The different paths written in a document that are not known. -/
def unknownPaths (document : Value) (d : Discovery) : List (List Text) :=
  document.writtenPaths.eraseDups.filter (Pointer.join · ∉ d.keys)

/-- The number of turns that can still be taken: one for each pending reference, and one for each
written path that is not known. -/
def turnsLeft (document : Value) (d : Discovery) : Nat :=
  d.pending.length + (d.unknownPaths document).length

/-- At most the pending references and all different paths written in the document are left. -/
theorem turnsLeft_le (document : Value) (d : Discovery) :
    d.turnsLeft document ≤ d.pending.length + document.writtenPaths.eraseDups.length :=
  Nat.add_le_add_left (List.length_filter_le _ _) _

/-- Remembering a written path gives no turn beyond those left. -/
theorem turnsLeft_add_le {document : Value} {path : List Text} (hpath : path ∈ document.writtenPaths)
    (d : Discovery) : (d.add path).turnsLeft document ≤ d.turnsLeft document := by
  by_cases hknown : Pointer.join path ∈ d.keys
  · rw [add_eq, if_pos hknown]
  · -- The path itself is unknown before and known afterwards.
    have hless : ((d.add path).unknownPaths document).length < (d.unknownPaths document).length := by
      have hsublist : (d.add path).unknownPaths document =
          (d.unknownPaths document).filter (Pointer.join path ≠ Pointer.join ·) := by
        rw [unknownPaths, unknownPaths, List.filter_filter]
        refine List.filter_congr fun other _ => ?_
        simp [mem_keys_add, and_comm]
      rw [hsublist]
      refine List.length_filter_lt_length_iff_exists.mpr ⟨path, ?_, by simp⟩
      exact List.mem_filter.mpr ⟨List.mem_eraseDups.mpr hpath, by simpa using hknown⟩
    have hpending : (d.add path).pending = d.pending ++ [Pointer.join path] := by
      rw [add_eq, if_neg hknown]
    rw [turnsLeft, turnsLeft, hpending, List.length_append, List.length_singleton]
    omega

/-- Remembering written paths gives no turn beyond those left. -/
theorem turnsLeft_addAll_le {document : Value} {paths : List (List Text)}
    (hpaths : paths ⊆ document.writtenPaths) (d : Discovery) :
    (d.addAll paths).turnsLeft document ≤ d.turnsLeft document := by
  induction paths generalizing d with
  | nil => exact Nat.le_refl _
  | cons path rest ih =>
    obtain ⟨hpath, hrest⟩ := List.cons_subset.mp hpaths
    exact Nat.le_trans (ih hrest (d.add path)) (turnsLeft_add_le hpath d)

end Discovery

namespace Resolution

open Faulting Build Discovery

variable {document : Value} {scope : Scope} {state middle final : Resolution} {turns steps : Nat}
  {outcome : Except Fault (List Entry)}

/-- One turn of the loop: take the first pending reference and declare it, unless it was taken up
before. There is no turn if nothing is pending. -/
def turn (document : Value) (scope : Scope) : Resolve (Option (List Entry)) := do
  match (← pop) with
  | none => return none
  | some key =>
    if (← get).resolved.contains key then return some []
    else return some [← declare document scope key]

/-- The loop over the pending references, without a bound: the number of turns it takes from a state,
what comes out, and the state it ends in. -/
inductive Loops (document : Value) (scope : Scope) :
    Resolution → Nat → Except Fault (List Entry) → Resolution → Prop where
  | done {state final : Resolution} (h : (turn document scope).run state = (.ok none, final)) :
      Loops document scope state 0 (.ok []) final
  | stop {state final : Resolution} {fault : Fault}
      (h : (turn document scope).run state = (.error fault, final)) :
      Loops document scope state 1 (.error fault) final
  | next {state middle final : Resolution} {entries : List Entry} {turns : Nat}
      {outcome : Except Fault (List Entry)}
      (h : (turn document scope).run state = (.ok (some entries), middle))
      (hnext : Loops document scope middle turns outcome final) :
      Loops document scope state (turns + 1) (outcome.map (entries ++ ·)) final

/-- The state with other references pending. -/
def withPending (state : Resolution) (pending : List Text) : Resolution :=
  ⟨⟨state.discovery.found, pending⟩, state.resolved, state.place⟩

/-- The references taken up stay the same when others are pending. -/
@[simp]
theorem withPending_resolved (state : Resolution) (pending : List Text) :
    (state.withPending pending).resolved = state.resolved := rfl

/-- The first pending reference is removed, if there is one. -/
theorem run_pop (state : Resolution) :
    pop.run state = match state.discovery.pending with
      | [] => (.ok none, state)
      | key :: rest => (.ok (some key), state.withPending rest) := by
  simp only [pop, run_bind, run_get]
  cases state.discovery.pending <;> rfl

/-- Without pending references there is no turn. -/
theorem run_turn_of_nil (scope : Scope) (h : state.discovery.pending = []) :
    (turn document scope).run state = (.ok none, state) := by
  rw [turn, run_bind, run_pop, h]
  rfl

/-- A turn takes up the first pending reference. -/
theorem run_turn_of_cons (scope : Scope) {key : Text} {rest : List Text}
    (h : state.discovery.pending = key :: rest) :
    (turn document scope).run state =
      if state.resolved.contains key then (.ok (some []), state.withPending rest)
      else
        (((declare document scope key).run (state.withPending rest)).1.map
            fun entry => some [entry],
          ((declare document scope key).run (state.withPending rest)).2) := by
  rw [turn, run_bind, run_pop, h]
  by_cases htaken : state.resolved.contains key
  · simp only [run_bind, run_get, withPending_resolved, htaken, if_true, run_pure]
  · simp only [run_bind, run_get, withPending_resolved, htaken, Bool.false_eq_true, if_false]
    rcases (declare document scope key).run (state.withPending rest) with ⟨result, last⟩
    cases result <;> rfl

/-- With one more step left, draining takes a turn and goes on unless nothing is pending. -/
theorem run_drain_succ (document : Value) (scope : Scope) (steps : Nat) (state : Resolution) :
    (drain document scope (steps + 1)).run state =
      match (turn document scope).run state with
      | (.ok none, final) => (.ok [], final)
      | (.ok (some entries), middle) =>
        (((drain document scope steps).run middle).1.map (entries ++ ·),
          ((drain document scope steps).run middle).2)
      | (.error fault, final) => (.error fault, final) := by
  rw [drain, run_bind, run_pop]
  cases hpending : state.discovery.pending with
  | nil => rw [run_turn_of_nil scope hpending]; rfl
  | cons key rest =>
    rw [run_turn_of_cons scope hpending]
    by_cases htaken : state.resolved.contains key
    · simp only [run_bind, run_get, withPending_resolved, htaken, if_true]
      rcases (drain document scope steps).run (state.withPending rest) with ⟨result, last⟩
      cases result <;> rfl
    · simp only [run_bind, run_get, withPending_resolved, htaken, Bool.false_eq_true, if_false]
      rcases (declare document scope key).run (state.withPending rest) with ⟨result, middle⟩
      cases result with
      | error fault => rfl
      | ok entry =>
        simp only [Except.map]
        rcases (drain document scope steps).run middle with ⟨result, last⟩
        cases result <;> rfl

/-- Declaring a reference discovers nothing but paths written in the document. -/
theorem turnsLeft_declare_le (document : Value) (scope : Scope) (key : Text) (state : Resolution) :
    ((declare document scope key).run state).2.discovery.turnsLeft document ≤
      state.discovery.turnsLeft document := by
  simp only [declare, run_bind, run_get, run_set]
  cases state.discovery.segments? key with
  | none => exact Nat.le_refl _
  | some path =>
    simp only [run_bind, run_lift]
    cases htarget : Pointer.target? document path with
    | error cause => exact Nat.le_refl _
    | ok found =>
      cases found with
      | none => exact Nat.le_refl _
      | some schema =>
        obtain ⟨result, visited, hfront, -, hrun⟩ :=
          Schema.declare_explores scope schema (.text (path.getLastD "")) (path.length = 1)
        have hbuild := hrun (some key) state.discovery
        have hwritten : visited ⊆ document.writtenPaths :=
          List.Subset.trans hfront.subset (List.Subset.trans
            (Schema.references_subset_writtenPaths schema)
            (Pointer.writtenPaths_subset_of_target? htarget))
        simp only [Fault.ofMalformed, run_bind, run_visit, run_build, hbuild]
        cases result <;> exact turnsLeft_addAll_le hwritten state.discovery

/-- A turn that takes up a reference leaves fewer turns. -/
theorem turnsLeft_turn_lt {entries : List Entry}
    (h : (turn document scope).run state = (.ok (some entries), middle)) :
    middle.discovery.turnsLeft document < state.discovery.turnsLeft document := by
  cases hpending : state.discovery.pending with
  | nil =>
    rw [run_turn_of_nil scope hpending] at h
    cases h
  | cons key rest =>
    have hpop : (state.withPending rest).discovery.turnsLeft document + 1 =
        state.discovery.turnsLeft document := by
      simp only [Discovery.turnsLeft, hpending, List.length_cons]
      exact Nat.add_right_comm _ _ _
    rw [run_turn_of_cons scope hpending] at h
    split at h
    · cases h
      omega
    · have hdeclare := turnsLeft_declare_le document scope key (state.withPending rest)
      rw [(Prod.mk.inj h).2] at hdeclare
      omega

/-- A turn that fails was one of those left. -/
theorem turnsLeft_pos_of_error {fault : Fault}
    (h : (turn document scope).run state = (.error fault, final)) :
    0 < state.discovery.turnsLeft document := by
  cases hpending : state.discovery.pending with
  | nil =>
    rw [run_turn_of_nil scope hpending] at h
    cases h
  | cons key rest =>
    rw [Discovery.turnsLeft, hpending, List.length_cons]
    omega

/-- The loop takes at most as many turns as are left. -/
theorem Loops.turns_le (h : Loops document scope state turns outcome final) :
    turns ≤ state.discovery.turnsLeft document := by
  induction h with
  | done => exact Nat.zero_le _
  | stop hturn => exact turnsLeft_pos_of_error hturn
  | next hturn _ ih =>
    have hless := turnsLeft_turn_lt hturn
    omega

/-- Draining with more steps than the loop takes turns gives what the loop gives. -/
theorem Loops.run_drain (h : Loops document scope state turns outcome final) (hsteps : turns < steps) :
    (drain document scope steps).run state = (outcome, final) := by
  induction h generalizing steps with
  | done hturn =>
    obtain ⟨steps, rfl⟩ := Nat.exists_eq_succ_of_ne_zero (Nat.ne_zero_of_lt hsteps)
    rw [run_drain_succ, hturn]
  | stop hturn =>
    obtain ⟨steps, rfl⟩ := Nat.exists_eq_succ_of_ne_zero (Nat.ne_zero_of_lt hsteps)
    rw [run_drain_succ, hturn]
  | next hturn _ ih =>
    obtain ⟨steps, rfl⟩ := Nat.exists_eq_succ_of_ne_zero (Nat.ne_zero_of_lt hsteps)
    rw [run_drain_succ, hturn]
    dsimp only
    rw [ih (Nat.lt_of_succ_lt_succ hsteps)]

/-- The loop comes to an end in every state. -/
theorem exists_loops (document : Value) (scope : Scope) (state : Resolution) :
    ∃ turns outcome final, Loops document scope state turns outcome final := by
  -- Every turn leaves fewer turns, so the induction is on their number.
  induction hleft : state.discovery.turnsLeft document using Nat.strong_induction_on
    generalizing state with
  | _ left ih =>
    rcases hturn : (turn document scope).run state with ⟨result, middle⟩
    cases result with
    | error fault => exact ⟨1, _, _, .stop hturn⟩
    | ok taken =>
      cases taken with
      | none => exact ⟨0, _, _, .done hturn⟩
      | some entries =>
        obtain ⟨turns, outcome, final, hloops⟩ :=
          ih _ (hleft ▸ turnsLeft_turn_lt hturn) middle rfl
        exact ⟨turns + 1, _, _, .next hturn hloops⟩

/-- Resolution gives what the loop without a bound gives. -/
theorem Loops.run_resolve (h : Loops document scope state turns outcome final) :
    (resolve document scope).run state = (outcome, final) := by
  rw [resolve, run_bind, run_get]
  apply h.run_drain
  have hturns := Nat.le_trans h.turns_le (turnsLeft_le document state.discovery)
  have hdistinct : document.writtenPaths.eraseDups.length ≤ document.writtenPaths.length :=
    List.Nodup.length_le_of_subset (BreadthFirst.eraseDups_nodup _) fun _ => List.mem_eraseDups.mp
  have hcount := document.writtenPaths_length_le
  omega

end Resolution

namespace Schema

open Faulting Build Discovery Resolution

/-- The tree of a document, given its root declaration and what the loop gives. -/
def assembled (naming : Naming) (root : Declaration) (outcome : Except Fault (List Entry)) :
    Except Fault Namespace := do
  return withRoot root (← Fault.ofMalformed (Namespace.assemble naming (← outcome)))

/-- A document is compiled by declaring its root and then looping over what is pending. -/
theorem compile_of_loops {naming : Naming} {document name : Value} {root : Declaration} {d : Discovery}
    {turns : Nat} {outcome : Except Fault (List Entry)} {final : Resolution}
    (hroot : (declare (rootScope naming document name) document (rootName document name) true).run
      .empty = (.ok root, d))
    (hloops : Loops document (rootScope naming document name) ⟨d, [], none⟩ turns outcome final) :
    compile naming document name = assembled naming root outcome := by
  have hentries : (entries naming document name).run .empty =
      (outcome.map fun found => (root, found), final) := by
    have hfirst : (build (rootScope naming document name) fun scope =>
        declare scope document (rootName document name) true).run .empty = (.ok root, ⟨d, [], none⟩) :=
      run_build_eq hroot
    change ((build (rootScope naming document name) (fun scope =>
      declare scope document (rootName document name) true) >>= fun root =>
        resolve document (rootScope naming document name) >>=
        fun found => (pure (root, found) : Resolve (Declaration × List Entry))).run .empty) = _
    rw [run_bind, hfirst]
    dsimp only
    rw [run_bind, hloops.run_resolve]
    cases outcome <;> rfl
  rw [compile, hentries]
  cases outcome <;> rfl

/-- Once the root is declared, at most one turn is left for each different path written in the
document. -/
theorem turnsLeft_root_le (document : Value) :
    (Discovery.empty.addAll (references document)).turnsLeft document ≤
      document.writtenPaths.eraseDups.length :=
  calc (Discovery.empty.addAll (references document)).turnsLeft document
      ≤ Discovery.empty.turnsLeft document :=
        turnsLeft_addAll_le (references_subset_writtenPaths document) _
    _ ≤ 0 + document.writtenPaths.eraseDups.length := turnsLeft_le document _
    _ = document.writtenPaths.eraseDups.length := Nat.zero_add _

/-- In every document, from every state and in every scope, the loop over the pending references comes to
an end, and it takes at most one turn for each reference pending at its start and one for each different
path written in the document. Resolution gives what the loop gives. So a document that compiles or fails
to compile does so for the root declaration or for what the loop gives after it, within one turn for each
different path that is written in the document. -/
theorem resolve_terminates (document : Value) :
    (∀ (scope : Scope) (state : Resolution),
      (∃ turns outcome final, Loops document scope state turns outcome final) ∧
        ∀ turns outcome final, Loops document scope state turns outcome final →
          turns ≤ state.discovery.pending.length + document.writtenPaths.eraseDups.length ∧
            (resolve document scope).run state = (outcome, final)) ∧
      ∀ (naming : Naming) (name : Value),
        (∃ fault d,
          (declare (rootScope naming document name) document (rootName document name) true).run .empty =
              (.error fault, d) ∧
            compile naming document name = .error fault) ∨
          ∃ root d turns outcome final,
            (declare (rootScope naming document name) document (rootName document name) true).run .empty =
                (.ok root, d) ∧
              Loops document (rootScope naming document name) ⟨d, [], none⟩ turns outcome final ∧
              turns ≤ document.writtenPaths.eraseDups.length ∧
              compile naming document name = assembled naming root outcome := by
  refine ⟨fun scope state => ⟨exists_loops document scope state, ?_⟩, fun naming name => ?_⟩
  · intro turns outcome final hloops
    exact ⟨Nat.le_trans hloops.turns_le (turnsLeft_le document _), hloops.run_resolve⟩
  · rcases run_entries naming document name with ⟨fault, d, hroot, hentries⟩ | ⟨root, _, _, _, hroot, -, -⟩
    · exact Or.inl ⟨fault, d, hroot, by rw [compile, hentries]; rfl⟩
    · obtain ⟨turns, outcome, final, hloops⟩ := exists_loops document (rootScope naming document name)
        ⟨Discovery.empty.addAll (references document), [], none⟩
      exact Or.inr ⟨root, _, turns, outcome, final, hroot, hloops,
        Nat.le_trans hloops.turns_le (turnsLeft_root_le document), compile_of_loops hroot hloops⟩

end Schema

end SchemaTypes
