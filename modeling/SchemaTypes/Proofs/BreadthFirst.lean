import Mathlib.Data.List.Induction
import Mathlib.Data.List.Nodup

/-!
# Breadth-first order

The nodes of a graph that can be reached from a list of nodes, listed by the length of the shortest
walk that leads to them and, at equal length, in the order in which the walks branch off. The
definition goes by walks alone: it knows neither a queue nor a set of visited nodes.

A search that lists what it found before, followed by whatever is new among the successors of the
node at hand, keeps its list equal to the first occurrences among the start and the successors of
the nodes it has finished. When nothing is left to finish, this equation has one solution among the
lists of reachable nodes, and it is the breadth-first order.
-/

namespace SchemaTypes.BreadthFirst

variable {α : Type}

section FirstOccurrences

variable [BEq α] [LawfulBEq α]

/-- An item that occurred before is not listed again; a new one comes last. -/
theorem eraseDups_concat (items : List α) (a : α) :
    (items ++ [a]).eraseDups = if a ∈ items then items.eraseDups else items.eraseDups ++ [a] := by
  rw [List.eraseDups_append]
  by_cases ha : a ∈ items
  · simp [List.cons_removeAll, ha]
  · simp [List.cons_removeAll, ha, List.eraseDups_cons]

/-- First occurrences are listed once. -/
theorem eraseDups_nodup (items : List α) : items.eraseDups.Nodup := by
  induction items using List.reverseRecOn with
  | nil => exact List.nodup_nil
  | append_singleton items a ih =>
    rw [eraseDups_concat]
    split_ifs with ha
    · exact ih
    · rw [List.nodup_append]
      refine ⟨ih, List.nodup_singleton a, ?_⟩
      intro b hb c hc hbc
      rw [List.mem_singleton] at hc
      exact ha (hc ▸ hbc ▸ List.mem_eraseDups.mp hb)

/-- A list without repetitions consists of first occurrences. -/
theorem eraseDups_of_nodup {items : List α} (h : items.Nodup) : items.eraseDups = items := by
  induction items using List.reverseRecOn with
  | nil => rfl
  | append_singleton items a ih =>
    obtain ⟨hitems, -, hdisjoint⟩ := List.nodup_append.mp h
    have ha : a ∉ items := fun ha => hdisjoint a ha a (List.mem_singleton_self a) rfl
    rw [eraseDups_concat, if_neg ha, ih hitems]

/-- Listing first occurrences before more items are added changes nothing. -/
theorem eraseDups_append_left (first second : List α) :
    (first.eraseDups ++ second).eraseDups = (first ++ second).eraseDups := by
  have hremove : second.removeAll first.eraseDups = second.removeAll first := by
    simp [List.removeAll, List.mem_eraseDups]
  rw [List.eraseDups_append, List.eraseDups_append, hremove,
    eraseDups_of_nodup (eraseDups_nodup first)]

/-- Items that occurred before add nothing. -/
theorem eraseDups_append_of_subset {first second : List α} (h : second ⊆ first) :
    (first ++ second).eraseDups = first.eraseDups := by
  have hnothing : second.removeAll first = [] := by
    rw [List.removeAll, List.filter_eq_nil_iff]
    intro a ha
    simp [h ha]
  rw [List.eraseDups_append, hnothing, List.eraseDups_nil, List.append_nil]

/-- The successors of a repeated node add nothing new. -/
theorem eraseDups_append_flatMap (first items : List α) (successors : α → List α) :
    (first ++ items.eraseDups.flatMap successors).eraseDups =
      (first ++ items.flatMap successors).eraseDups := by
  induction items using List.reverseRecOn with
  | nil => rfl
  | append_singleton items a ih =>
    rw [eraseDups_concat, List.flatMap_append, List.flatMap_singleton, ← List.append_assoc]
    split_ifs with ha
    · have hknown : successors a ⊆ first ++ items.flatMap successors := fun b hb =>
        List.mem_append_right _ (List.mem_flatMap.mpr ⟨a, ha, hb⟩)
      rw [ih, eraseDups_append_of_subset hknown]
    · rw [List.flatMap_append, List.flatMap_singleton, ← List.append_assoc, ← eraseDups_append_left, ih,
        eraseDups_append_left]

/-- First occurrences of a list come first among those of a longer one. -/
theorem eraseDups_prefix {short long : List α} (h : short <+: long) :
    short.eraseDups <+: long.eraseDups := by
  obtain ⟨rest, rfl⟩ := h
  rw [List.eraseDups_append]
  exact List.prefix_append _ _

end FirstOccurrences

/-- The ends of all walks with the given number of steps, in the order of the walks. -/
def layer (successors : α → List α) (start : List α) : Nat → List α
  | 0 => start
  | n + 1 => (layer successors start n).flatMap successors

/-- The ends of all walks with at most the given number of steps, shorter walks first. -/
def layers (successors : α → List α) (start : List α) : Nat → List α
  | 0 => start
  | n + 1 => layers successors start n ++ layer successors start (n + 1)

/-- The nodes that walks with at most the given number of steps lead to, shortest walks first. -/
def order [BEq α] (successors : α → List α) (start : List α) (n : Nat) : List α :=
  (layers successors start n).eraseDups

/-- The least set of nodes that holds the start and the successors of all its nodes. -/
inductive Reachable (successors : α → List α) (start : List α) : α → Prop where
  | start {a : α} : a ∈ start → Reachable successors start a
  | step {a b : α} : Reachable successors start a → b ∈ successors a → Reachable successors start b

variable {successors : α → List α} {start : List α}

/-- Walks with one more step are the start and one step after each shorter walk. -/
theorem layers_succ (successors : α → List α) (start : List α) (n : Nat) :
    layers successors start (n + 1) = start ++ (layers successors start n).flatMap successors := by
  induction n with
  | zero => rfl
  | succ n ih =>
    calc
      layers successors start (n + 2) =
          layers successors start (n + 1) ++ (layer successors start (n + 1)).flatMap successors := rfl
      _ = start ++ ((layers successors start n).flatMap successors ++
            (layer successors start (n + 1)).flatMap successors) := by
          rw [ih, List.append_assoc]
      _ = start ++ (layers successors start (n + 1)).flatMap successors := by
          rw [← List.flatMap_append]
          rfl

/-- A list that holds the start and is closed under successors holds every reachable node. -/
theorem Reachable.mem_of_closed {closed : List α} (hstart : start ⊆ closed)
    (hclosed : ∀ a ∈ closed, successors a ⊆ closed) {a : α}
    (h : Reachable successors start a) : a ∈ closed := by
  induction h with
  | start ha => exact hstart ha
  | step _ hb ih => exact hclosed _ ih hb

variable [BEq α] [LawfulBEq α]

/-- One more step adds the new successors of the nodes found so far. -/
theorem order_succ (successors : α → List α) (start : List α) (n : Nat) :
    order successors start (n + 1) =
      (start ++ (order successors start n).flatMap successors).eraseDups := by
  rw [order, layers_succ, order, eraseDups_append_flatMap]

/-- Longer walks never change the order of what shorter walks lead to. -/
theorem order_prefix_succ (successors : α → List α) (start : List α) (n : Nat) :
    order successors start n <+: order successors start (n + 1) :=
  eraseDups_prefix (List.prefix_append _ _)

/-- A finished search holds every reachable node. -/
theorem Reachable.mem_of_fixed {found : List α}
    (hfound : found = (start ++ found.flatMap successors).eraseDups) {a : α}
    (h : Reachable successors start a) : a ∈ found := by
  refine h.mem_of_closed ?_ ?_
  · intro b hb
    rw [hfound, List.mem_eraseDups]
    exact List.mem_append_left _ hb
  · intro b hb c hc
    rw [hfound, List.mem_eraseDups]
    exact List.mem_append_right _ (List.mem_flatMap.mpr ⟨b, hb, hc⟩)

/-- What walks of bounded length lead to comes first in any finished search. -/
theorem order_prefix_of_fixed {found : List α}
    (hfound : found = (start ++ found.flatMap successors).eraseDups) (n : Nat) :
    order successors start n <+: found := by
  induction n with
  | zero =>
    rw [hfound]
    exact eraseDups_prefix (List.prefix_append _ _)
  | succ n ih =>
    obtain ⟨rest, hrest⟩ := ih
    rw [hfound, order_succ]
    refine eraseDups_prefix ?_
    rw [← hrest, List.flatMap_append, ← List.append_assoc]
    exact List.prefix_append _ _

/-- As long as the order grows, each further step of the walks finds another node. -/
theorem order_succ_eq_or_le_length (successors : α → List α) (start : List α) (n : Nat) :
    order successors start (n + 1) = order successors start n ∨
      n ≤ (order successors start n).length := by
  induction n with
  | zero => exact Or.inr (Nat.zero_le _)
  | succ n ih =>
    by_cases hsame : order successors start (n + 1) = order successors start n
    · left
      rw [order_succ, hsame, ← order_succ, hsame]
    · right
      have hfront := order_prefix_succ successors start n
      have hstrict : (order successors start n).length ≠ (order successors start (n + 1)).length :=
        fun hlength => hsame (hfront.eq_of_length hlength).symm
      have hle := hfront.length_le
      have hlength := ih.resolve_left hsame
      omega

/-- Walks lead to reachable nodes. -/
theorem reachable_of_mem_order {n : Nat} {a : α} (h : a ∈ order successors start n) :
    Reachable successors start a := by
  induction n generalizing a with
  | zero => exact .start (List.mem_eraseDups.mp h)
  | succ n ih =>
    rw [order_succ, List.mem_eraseDups, List.mem_append, List.mem_flatMap] at h
    rcases h with ha | ⟨b, hb, ha⟩
    · exact .start ha
    · exact .step (ih hb) ha

/-- Where the reachable nodes are among finitely many, walks with as many steps find them all. -/
theorem order_fixed {bound : List α} (hbound : ∀ a, Reachable successors start a → a ∈ bound) {n : Nat}
    (hn : bound.length ≤ n) :
    order successors start n =
      (start ++ (order successors start n).flatMap successors).eraseDups := by
  have hlength (m : Nat) : (order successors start m).length ≤ bound.length :=
    List.Nodup.length_le_of_subset (eraseDups_nodup _) fun a ha => hbound a (reachable_of_mem_order ha)
  rw [← order_succ]
  rcases order_succ_eq_or_le_length successors start n with heq | hle
  · exact heq.symm
  · have hfront := order_prefix_succ successors start n
    have hnext := hlength (n + 1)
    exact hfront.eq_of_length (Nat.le_antisymm hfront.length_le (by omega))

/-- A finished search that holds reachable nodes only is the breadth-first order. -/
theorem eq_order_of_fixed {found : List α}
    (hfound : found = (start ++ found.flatMap successors).eraseDups)
    (hreachable : ∀ a ∈ found, Reachable successors start a) {n : Nat} (hn : found.length ≤ n) :
    found = order successors start n := by
  have hfixed := order_fixed (fun a ha => ha.mem_of_fixed hfound) hn
  have hsubset : found ⊆ order successors start n := fun a ha => (hreachable a ha).mem_of_fixed hfixed
  have hnodup : found.Nodup := hfound ▸ eraseDups_nodup _
  have hlong := List.Nodup.length_le_of_subset hnodup hsubset
  have hfront := order_prefix_of_fixed hfound n
  exact (hfront.eq_of_length (Nat.le_antisymm hfront.length_le hlong)).symm

end SchemaTypes.BreadthFirst
