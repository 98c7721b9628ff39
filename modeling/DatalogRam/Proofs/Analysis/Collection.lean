import DatalogRam.Analysis.Collection
import DatalogRam.Proofs.FirstMeetings
import Mathlib.Data.List.Destutter
import Mathlib.Data.List.Perm.Subperm
import Mathlib.Data.List.Sort

/-!
# What is collected

Touching lists every element where it is first met. Sorting is insertion sort, and a sorted list of numbers without
repetitions is a part of every range that has them. What is left of a sorted list without repeated neighbours ascends
strictly.
-/

namespace DatalogRam.Analysis

section Touching

variable {α : Type} [DecidableEq α]

theorem mem_touch {met : List α} {element other : α} : other ∈ touch met element ↔ other ∈ met ∨ other = element := by
  rw [touch]
  split
  · next isMet => exact ⟨.inl, fun found => found.elim id fun same => same ▸ List.contains_iff_mem.1 isMet⟩
  · rw [List.mem_append, List.mem_singleton]

theorem mem_foldl_touch {elements met : List α} {other : α} :
    other ∈ elements.foldl touch met ↔ other ∈ met ∨ other ∈ elements := by
  induction elements generalizing met with
  | nil => simp
  | cons element elements ih => rw [List.foldl_cons, ih, mem_touch, List.mem_cons, or_assoc]

/-- Touching lists every element where it is first met. -/
theorem foldl_touch {met : List α} (once : met.Nodup) (elements : List α) :
    elements.foldl touch met = (met ++ elements).eraseDups := by
  induction elements generalizing met with
  | nil => rw [List.append_nil, eraseDups_eq_self once, List.foldl_nil]
  | cons element elements ih =>
      rw [List.foldl_cons, touch]
      split
      · next isMet =>
          rw [ih once, List.eraseDups_append, List.eraseDups_append, List.cons_removeAll, if_neg (by simpa using isMet)]
      · next isNew =>
          have isNew : element ∉ met := fun member => isNew (List.contains_iff_mem.2 member)
          have apart : (met ++ [element]).Nodup := once.append (List.nodup_singleton element) (by simpa using isNew)
          rw [ih apart, List.append_assoc, List.singleton_append]

end Touching

section Sorting

variable {numbers : List Nat} {number : Nat}

theorem insertAscending_eq_orderedInsert (number : Nat) (numbers : List Nat) :
    insertAscending number numbers = numbers.orderedInsert (· ≤ ·) number := by
  induction numbers with
  | nil => rfl
  | cons first rest ih => rw [insertAscending, List.orderedInsert_cons, ih]

theorem ascending_eq_insertionSort (numbers : List Nat) : ascending numbers = numbers.insertionSort (· ≤ ·) := by
  induction numbers with
  | nil => rfl
  | cons number numbers ih =>
      rw [ascending, List.foldr_cons, ← ascending, ih, insertAscending_eq_orderedInsert, List.insertionSort_cons]

theorem ascending_perm (numbers : List Nat) : (ascending numbers).Perm numbers :=
  ascending_eq_insertionSort numbers ▸ List.perm_insertionSort _ numbers

theorem ascending_pairwise (numbers : List Nat) : (ascending numbers).Pairwise (· ≤ ·) :=
  ascending_eq_insertionSort numbers ▸ List.pairwise_insertionSort _ numbers

@[simp] theorem mem_ascending : number ∈ ascending numbers ↔ number ∈ numbers :=
  (ascending_perm numbers).mem_iff

/-- Numbers that do not repeat stand, once sorted, as they do in any range that has them. -/
theorem ascending_sublist_range (once : numbers.Nodup) {size : Nat} (inside : ∀ number ∈ numbers, number < size) :
    (ascending numbers).Sublist (List.range size) := by
  have subset : numbers ⊆ List.range size := fun number member => List.mem_range.2 (inside number member)
  have subperm := (ascending_perm numbers).subperm.trans (List.subperm_of_subset once subset)
  exact List.sublist_of_subperm_of_pairwise subperm (ascending_pairwise numbers) List.pairwise_le_range

end Sorting

section Repetitions

variable {α : Type} [DecidableEq α]

theorem eraseReps_loop (element : α) (rest kept : List α) :
    List.eraseRepsBy.loop (· == ·) element rest kept = kept.reverse ++ rest.destutter' (· ≠ ·) element := by
  induction rest generalizing element kept with
  | nil => simp [List.eraseRepsBy.loop]
  | cons next rest ih =>
      rw [List.eraseRepsBy.loop, List.destutter'_cons]
      by_cases same : element = next
      · simp [same, ih]
      · simp [beq_eq_false_iff_ne.2 same, same, ih]

theorem eraseReps_eq_destutter (elements : List α) : elements.eraseReps = elements.destutter (· ≠ ·) := by
  cases elements with
  | nil => rfl
  | cons element rest => exact eraseReps_loop element rest []

theorem mem_destutter' {element other : α} {rest : List α} :
    other ∈ rest.destutter' (· ≠ ·) element ↔ other = element ∨ other ∈ rest := by
  induction rest generalizing element with
  | nil => simp
  | cons next rest ih =>
      rw [List.destutter'_cons]
      split
      · rw [List.mem_cons, ih, List.mem_cons]
      · next same =>
          obtain rfl := not_not.1 same
          rw [ih, List.mem_cons, or_self_left]

/-- Only repetitions are left out. -/
theorem mem_eraseReps {elements : List α} {other : α} : other ∈ elements.eraseReps ↔ other ∈ elements := by
  rw [eraseReps_eq_destutter]
  cases elements with
  | nil => rfl
  | cons element rest => rw [List.destutter_cons', mem_destutter', List.mem_cons]

variable {numbers : List Nat} {number : Nat}

theorem destutter'_pairwise_lt (sorted : (number :: numbers).Pairwise (· ≤ ·)) :
    (numbers.destutter' (· ≠ ·) number).Pairwise (· < ·) := by
  induction numbers generalizing number with
  | nil => simp
  | cons next rest ih =>
      obtain ⟨least, sortedRest⟩ := List.pairwise_cons.1 sorted
      rw [List.destutter'_cons]
      split
      · next different =>
          refine List.pairwise_cons.2 ⟨fun other member => ?_, ih sortedRest⟩
          have less : number < next := Nat.lt_of_le_of_ne (least next List.mem_cons_self) different
          rcases mem_destutter'.1 member with rfl | later
          · exact less
          · exact less.trans_le ((List.pairwise_cons.1 sortedRest).1 other later)
      · next same =>
          obtain rfl := not_not.1 same
          exact ih sortedRest

/-- Numbers in order ascend strictly once equal neighbours are one. -/
theorem eraseReps_pairwise_lt (sorted : numbers.Pairwise (· ≤ ·)) : numbers.eraseReps.Pairwise (· < ·) := by
  rw [eraseReps_eq_destutter]
  cases numbers with
  | nil => exact .nil
  | cons number numbers => exact destutter'_pairwise_lt sorted

@[simp] theorem mem_distinctAscending : number ∈ distinctAscending numbers ↔ number ∈ numbers := by
  rw [distinctAscending, mem_eraseReps, mem_ascending]

theorem distinctAscending_pairwise (numbers : List Nat) : (distinctAscending numbers).Pairwise (· < ·) :=
  eraseReps_pairwise_lt (ascending_pairwise numbers)

end Repetitions

end DatalogRam.Analysis
