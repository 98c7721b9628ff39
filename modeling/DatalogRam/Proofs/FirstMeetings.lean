import Mathlib.Data.List.Nodup

/-!
# First meetings

A walk may meet an element several times. `Meets` says of a list that it has each element of a walk once, in the order
in which the walk first meets them, and `eraseDups` gives that list. Skipping elements does not change the order of
the others.
-/

namespace DatalogRam

variable {α : Type} [DecidableEq α]

/-- The elements of a walk, each once, in the order in which the walk first meets them. -/
structure Meets (walk elements : List α) : Prop where
  once : elements.Nodup
  mem_iff : ∀ element, element ∈ elements ↔ element ∈ walk
  inOrder : elements.Pairwise fun earlier later => walk.idxOf earlier < walk.idxOf later

/-- Skipping elements does not change which of two others is met first. -/
theorem idxOf_filter_lt_iff {keeps : α → Bool} {left right : α} (keepsLeft : keeps left = true)
    (keepsRight : keeps right = true) (walk : List α) :
    (walk.filter keeps).idxOf left < (walk.filter keeps).idxOf right ↔ walk.idxOf left < walk.idxOf right := by
  induction walk with
  | nil => simp
  | cons first rest ih =>
      cases keepsFirst : keeps first with
      | false =>
          have notLeft : first ≠ left := fun same => by simp [← same, keepsFirst] at keepsLeft
          have notRight : first ≠ right := fun same => by simp [← same, keepsFirst] at keepsRight
          simp [keepsFirst, List.idxOf_cons_ne, notLeft, notRight, ih]
      | true =>
          by_cases isLeft : first = left <;> by_cases isRight : first = right <;>
            simp_all

theorem meets_eraseDups (walk : List α) : Meets walk walk.eraseDups := by
  match walk with
  | [] => exact ⟨by simp, by simp, by simp⟩
  | first :: rest =>
      have others := meets_eraseDups (rest.filter fun other => !other == first)
      rw [List.eraseDups_cons]
      constructor
      · exact List.nodup_cons.2 ⟨by simp, others.once⟩
      · intro element
        by_cases same : element = first <;> simp [same]
      · have different {element : α} (member : element ∈ (rest.filter fun other => !other == first).eraseDups) :
            element ≠ first := by
          simp at member
          exact member.2
        apply List.pairwise_cons.2
        constructor
        · intro later member
          simp [(different member).symm]
        · apply others.inOrder.imp_of_mem
          intro earlier later isEarlier isLater before
          have skipped := (idxOf_filter_lt_iff (by simpa using different isEarlier) (by simpa using different isLater)
            rest).1 before
          simpa [List.idxOf_cons, (different isEarlier).symm, (different isLater).symm] using skipped
termination_by walk.length
decreasing_by
  have shorter := List.length_filter_le (fun other => !other == first) rest
  simp only [List.length_cons]
  omega

theorem eraseDups_eq_self {walk : List α} (once : walk.Nodup) : walk.eraseDups = walk := by
  induction walk with
  | nil => rfl
  | cons first rest ih =>
      obtain ⟨new, once⟩ := List.nodup_cons.1 once
      have others : (rest.filter fun other => !other == first) = rest := by
        apply List.filter_eq_self.2
        intro other member
        simpa using fun same : other = first => new (same ▸ member)
      rw [List.eraseDups_cons, others, ih once]

end DatalogRam
