import DatalogRam.Proofs.Ram.Children
import Mathlib.Algebra.Order.Group.Multiset

/-!
# Forests

The code in an arena is a forest if no node has two parents. Some nodes without a parent are its roots. Writing code
bottom up takes roots, which become the children of a new node, and gives that node as a root. So the roots are used up
like a resource, and what keeps to them keeps the forest.
-/

namespace DatalogRam.Ram

namespace Arena

/-- All nodes, sort by sort. -/
def nodes (arena : Arena) : List NodeRef :=
  [NodeSort.expr, .cond, .op, .stmt].flatMap fun sort => (List.range (arena.size sort)).map (.mk sort)

/-- The children of all nodes, each as often as it is one. -/
def references (arena : Arena) : Multiset NodeRef :=
  ↑(arena.nodes.flatMap arena.children)

theorem mem_nodes {arena : Arena} {ref : NodeRef} : ref ∈ arena.nodes ↔ ref.id < arena.size ref.sort := by
  obtain ⟨sort, id⟩ := ref
  cases sort <;> simp [nodes]

theorem nodup_nodes (arena : Arena) : arena.nodes.Nodup := by
  refine List.nodup_flatMap.2 ⟨?_, ?_⟩
  · intro sort _
    apply List.Nodup.map _ List.nodup_range
    intro left right same
    cases same
    rfl
  · refine List.Pairwise.imp ?_ (show [NodeSort.expr, .cond, .op, .stmt].Nodup by decide)
    intro left right differ ref inLeft inRight
    obtain ⟨_, _, rfl⟩ := List.mem_map.1 inLeft
    obtain ⟨_, _, same⟩ := List.mem_map.1 inRight
    cases same
    exact differ rfl

/-- A node that is added refers to its children, and all others refer to what they did. -/
theorem Adds.references {arena after : Arena} {sort : NodeSort} {added : List NodeRef}
    (adds : arena.Adds after sort added) : after.references = added + arena.references := by
  have new : (⟨sort, arena.size sort⟩ : NodeRef) ∉ arena.nodes := by simp [mem_nodes]
  have nodes : after.nodes.Perm (⟨sort, arena.size sort⟩ :: arena.nodes) := by
    rw [List.perm_ext_iff_of_nodup after.nodup_nodes (List.nodup_cons.2 ⟨new, arena.nodup_nodes⟩)]
    rintro ⟨other, id⟩
    simp only [mem_nodes, adds.size, List.mem_cons, NodeRef.mk.injEq]
    by_cases same : other = sort
    · subst same
      simp only [true_and, if_true]
      omega
    · simp [same]
  have others : arena.nodes.flatMap after.children = arena.nodes.flatMap arena.children := by
    refine List.flatMap_congr fun ref member => ?_
    rw [adds.children, if_neg]
    rintro rfl
    exact new member
  refine (Multiset.coe_eq_coe.2 (nodes.flatMap_right after.children)).trans ?_
  rw [List.flatMap_cons, others, adds.children, if_pos rfl, ← Multiset.coe_add]
  rfl

/-- No node is a child more than once, or a child and a root, or a root twice. Children are in the arena, and come
before a parent of their own sort. -/
structure IsForest (arena : Arena) (roots : Multiset NodeRef) : Prop where
  once : (arena.references + roots).Nodup
  inRange : ∀ ref ∈ arena.references + roots, ref.id < arena.size ref.sort
  ascending : ∀ parent, ∀ child ∈ arena.children parent, child.sort = parent.sort → child.id < parent.id

namespace IsForest

variable {arena after : Arena} {roots fewer rest : Multiset NodeRef}

theorem empty : Arena.empty.IsForest 0 where
  once := by decide
  inRange := by
    intro ref member
    exact absurd member (Multiset.notMem_zero ref)
  ascending := by
    rintro ⟨_ | _ | _ | _, id⟩ child member <;> cases member

/-- A root may be given up. -/
theorem mono (isForest : arena.IsForest roots) (le : fewer ≤ roots) : arena.IsForest fewer where
  once := Multiset.nodup_of_le (add_le_add_right le _) isForest.once
  inRange := fun ref member => isForest.inRange ref (Multiset.mem_of_le (add_le_add_right le _) member)
  ascending := isForest.ascending

/-- Roots become the children of a new root. -/
theorem adds {sort : NodeSort} {added : List NodeRef} (isForest : arena.IsForest (↑added + rest))
    (adds : arena.Adds after sort added) : after.IsForest ({⟨sort, arena.size sort⟩} + rest) := by
  have referred : after.references + ({⟨sort, arena.size sort⟩} + rest) =
      ⟨sort, arena.size sort⟩ ::ₘ (arena.references + ((added : Multiset NodeRef) + rest)) := by
    rw [adds.references, Multiset.singleton_add, Multiset.add_cons, add_assoc, add_left_comm]
  have grows (ref : NodeRef) (inside : ref.id < arena.size ref.sort) : ref.id < after.size ref.sort := by
    rw [adds.size]
    split
    · next same => exact Nat.lt_succ_of_lt (same ▸ inside)
    · exact inside
  constructor
  case once =>
    rw [referred, Multiset.nodup_cons]
    refine ⟨fun member => ?_, isForest.once⟩
    exact Nat.lt_irrefl _ (isForest.inRange _ member)
  case inRange =>
    rw [referred]
    intro ref member
    rcases Multiset.mem_cons.1 member with rfl | old
    · simp [adds.size]
    · exact grows ref (isForest.inRange ref old)
  case ascending =>
    intro parent child member sameSort
    rw [adds.children] at member
    split at member
    · next isNew =>
        subst isNew
        have inside := isForest.inRange child (by simp [member])
        rw [sameSort] at inside
        exact inside
    · exact isForest.ascending parent child member sameSort

/-- What a forest is depends on its references only. -/
theorem congr (isForest : arena.IsForest roots) (same : arena.SameShape after) : after.IsForest roots := by
  have nodes : after.nodes = arena.nodes := by rw [nodes, same.size, nodes]
  have references : after.references = arena.references := by rw [references, nodes, same.children, references]
  constructor
  · rw [references]
    exact isForest.once
  · rw [references, same.size]
    exact isForest.inRange
  · rw [same.children]
    exact isForest.ascending

end IsForest

end Arena

end DatalogRam.Ram
