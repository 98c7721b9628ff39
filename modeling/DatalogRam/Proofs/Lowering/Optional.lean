import Mathlib.Data.List.Forall2

/-!
# Lists of optional results

The code of a clause is written by maps and folds whose steps may have no result. If all steps have one, so does the
whole; and what a result consists of comes from its steps.
-/

namespace DatalogRam.Lowering

theorem isSome_foldrM {α β : Type} {code : α → β → Option β} {elements : List α}
    (each : ∀ element ∈ elements, ∀ result, (code element result).isSome) (start : β) :
    (elements.foldrM code start).isSome := by
  induction elements with
  | nil => rfl
  | cons element rest ih =>
      obtain ⟨result, isResult⟩ := Option.isSome_iff_exists.1
        (ih fun other member => each other (List.mem_cons_of_mem _ member))
      rw [List.foldrM_cons, isResult]
      exact each element List.mem_cons_self result

theorem isSome_mapM {α β : Type} {code : α → Option β} {elements : List α}
    (each : ∀ element ∈ elements, (code element).isSome) : (elements.mapM code).isSome := by
  induction elements with
  | nil => rfl
  | cons element rest ih =>
      obtain ⟨first, isFirst⟩ := Option.isSome_iff_exists.1 (each element List.mem_cons_self)
      obtain ⟨others, areOthers⟩ := Option.isSome_iff_exists.1
        (ih fun other member => each other (List.mem_cons_of_mem _ member))
      rw [List.mapM_cons, isFirst, areOthers]
      rfl

theorem isSome_filterMapM {α β : Type} {code : α → Option (Option β)} {elements : List α}
    (each : ∀ element ∈ elements, (code element).isSome) : (elements.filterMapM code).isSome := by
  induction elements with
  | nil => rfl
  | cons element rest ih =>
      obtain ⟨first, isFirst⟩ := Option.isSome_iff_exists.1 (each element List.mem_cons_self)
      obtain ⟨others, areOthers⟩ := Option.isSome_iff_exists.1
        (ih fun other member => each other (List.mem_cons_of_mem _ member))
      rw [List.filterMapM_cons, isFirst, areOthers]
      cases first <;> rfl

/-- A fold has a result exactly if all its steps have one, where that does not depend on what was folded before. -/
theorem isSome_foldrM_iff {α β : Type} {code : α → β → Option β} {elements : List α} {holds : α → Prop}
    (each : ∀ element ∈ elements, ∀ result, (code element result).isSome ↔ holds element) (start : β) :
    (elements.foldrM code start).isSome ↔ ∀ element ∈ elements, holds element := by
  induction elements with
  | nil => simp
  | cons element rest ih =>
      have later := ih fun other member => each other (List.mem_cons_of_mem _ member)
      rw [List.foldrM_cons, List.forall_mem_cons, ← later]
      cases rest.foldrM code start with
      | none => simp
      | some result => simpa using each element List.mem_cons_self result

theorem isSome_mapM_iff {α β : Type} {code : α → Option β} {elements : List α} :
    (elements.mapM code).isSome ↔ ∀ element ∈ elements, (code element).isSome := by
  induction elements with
  | nil => simp
  | cons element rest ih =>
      rw [List.mapM_cons, List.forall_mem_cons, ← ih]
      cases code element <;> cases rest.mapM code <;> simp

theorem mapM_cons_eq_some {α β : Type} {code : α → Option β} {element : α} {rest : List α} {results : List β}
    (codes : (element :: rest).mapM code = some results) :
    ∃ first others, code element = some first ∧ rest.mapM code = some others ∧ results = first :: others := by
  rw [List.mapM_cons] at codes
  obtain ⟨first, isFirst, codes⟩ := Option.bind_eq_some_iff.1 codes
  obtain ⟨others, areOthers, same⟩ := Option.bind_eq_some_iff.1 codes
  exact ⟨first, others, isFirst, areOthers, (Option.some.inj same).symm⟩

theorem forall₂_of_mapM {α β : Type} {code : α → Option β} {elements : List α} {results : List β}
    (codes : elements.mapM code = some results) :
    List.Forall₂ (fun element result => code element = some result) elements results := by
  induction elements generalizing results with
  | nil =>
      cases codes
      exact .nil
  | cons element rest ih =>
      obtain ⟨first, others, isFirst, areOthers, rfl⟩ := mapM_cons_eq_some codes
      exact .cons isFirst (ih areOthers)

theorem exists_of_forall₂ {α β : Type} {related : α → β → Prop} {elements : List α} {results : List β}
    (each : List.Forall₂ related elements results) {result : β} (member : result ∈ results) :
    ∃ element ∈ elements, related element result := by
  obtain ⟨index, inside, rfl⟩ := List.getElem_of_mem member
  exact ⟨_, List.getElem_mem _, each.get (each.length_eq ▸ inside) inside⟩

theorem mem_of_mapM {α β : Type} {code : α → Option β} {elements : List α} {results : List β}
    (codes : elements.mapM code = some results) {result : β} (member : result ∈ results) :
    ∃ element ∈ elements, code element = some result :=
  exists_of_forall₂ (forall₂_of_mapM codes) member

/-- Codes that are the same as a whole are the same for each element. -/
theorem same_of_mapM {α β : Type} {code other : α → Option β} {elements : List α} {results : List β}
    (codes : elements.mapM code = some results) (others : elements.mapM other = some results) {element : α}
    (member : element ∈ elements) : code element = other element := by
  obtain ⟨index, inside, rfl⟩ := List.getElem_of_mem member
  have first := forall₂_of_mapM codes
  have second := forall₂_of_mapM others
  exact (first.get inside (first.length_eq ▸ inside)).trans (second.get inside (first.length_eq ▸ inside)).symm

theorem mapM_flatMap {α β γ : Type} (f : β → Option γ) (g : α → List β) (elements : List α) :
    (elements.flatMap g).mapM f = (elements.mapM fun element => (g element).mapM f).map List.flatten := by
  induction elements with
  | nil => rfl
  | cons element rest ih =>
      rw [List.flatMap_cons, List.mapM_append, ih, List.mapM_cons]
      cases (g element).mapM f with
      | none => rfl
      | some first => cases rest.mapM (fun element => (g element).mapM f) <;> rfl

theorem mem_of_filterMapM {α β : Type} {code : α → Option (Option β)} {elements : List α} {results : List β}
    (codes : elements.filterMapM code = some results) {result : β} (member : result ∈ results) :
    ∃ element ∈ elements, code element = some (some result) := by
  induction elements generalizing results with
  | nil =>
      cases codes
      cases member
  | cons element rest ih =>
      rw [List.filterMapM_cons] at codes
      obtain ⟨first, isFirst, codes⟩ := Option.bind_eq_some_iff.1 codes
      cases first with
      | none =>
          obtain ⟨other, inRest, isResult⟩ := ih codes member
          exact ⟨other, List.mem_cons_of_mem _ inRest, isResult⟩
      | some first =>
          obtain ⟨others, areOthers, same⟩ := Option.bind_eq_some_iff.1 codes
          cases same
          rcases List.mem_cons.1 member with rfl | inRest
          · exact ⟨element, List.mem_cons_self, isFirst⟩
          · obtain ⟨other, inRest, isResult⟩ := ih areOthers inRest
            exact ⟨other, List.mem_cons_of_mem _ inRest, isResult⟩

/-- If a list has results, so has each of its elements. -/
theorem exists_of_filterMapM {α β : Type} {code : α → Option (Option β)} {elements : List α} {results : List β}
    (codes : elements.filterMapM code = some results) : ∀ element ∈ elements, ∃ found, code element = some found := by
  induction elements generalizing results with
  | nil => exact fun _ member => absurd member List.not_mem_nil
  | cons element rest ih =>
      rw [List.filterMapM_cons] at codes
      obtain ⟨first, isFirst, codes⟩ := Option.bind_eq_some_iff.1 codes
      refine List.forall_mem_cons.2 ⟨⟨first, isFirst⟩, ?_⟩
      cases first with
      | none => exact ih codes
      | some first =>
          obtain ⟨others, areOthers, _⟩ := Option.bind_eq_some_iff.1 codes
          exact ih areOthers

theorem isSome_filterMapM_iff {α β : Type} {code : α → Option (Option β)} {elements : List α} :
    (elements.filterMapM code).isSome ↔ ∀ element ∈ elements, (code element).isSome := by
  refine ⟨fun isSome element member => ?_, isSome_filterMapM⟩
  obtain ⟨results, codes⟩ := Option.isSome_iff_exists.1 isSome
  exact Option.isSome_iff_exists.2 (exists_of_filterMapM codes element member)

/-- What every step of a fold keeps holds of its result. -/
theorem of_foldrM {α β : Type} (holds : β → Prop) {code : α → β → Option β} {elements : List α}
    (step : ∀ element ∈ elements, ∀ before after, holds before → code element before = some after → holds after)
    {start result : β} (isStart : holds start) (codes : elements.foldrM code start = some result) :
    holds result := by
  induction elements generalizing result with
  | nil =>
      cases codes
      exact isStart
  | cons element rest ih =>
      rw [List.foldrM_cons] at codes
      obtain ⟨middle, isMiddle, isResult⟩ := Option.bind_eq_some_iff.1 codes
      exact step element List.mem_cons_self middle result
        (ih (fun other member => step other (List.mem_cons_of_mem _ member)) isMiddle) isResult

/-- A fold over numbered elements goes from the last number down to the first. -/
theorem of_foldrM_zipIdx {α β : Type} (holds : Nat → β → Prop) {code : α × Nat → β → Option β} {elements : List α}
    {first : Nat}
    (step : ∀ element position before after, (element, position) ∈ elements.zipIdx first →
      holds (position + 1) before → code (element, position) before = some after → holds position after)
    {start result : β} (isStart : holds (first + elements.length) start)
    (codes : (elements.zipIdx first).foldrM code start = some result) : holds first result := by
  induction elements generalizing first result with
  | nil =>
      cases codes
      exact isStart
  | cons element rest ih =>
      rw [List.zipIdx_cons, List.foldrM_cons] at codes
      obtain ⟨middle, isMiddle, isResult⟩ := Option.bind_eq_some_iff.1 codes
      refine step element first middle result (by simp) (ih ?_ ?_ isMiddle) isResult
      · exact fun other position before after member => step other position before after (by simp [member])
      · rwa [List.length_cons, Nat.add_comm rest.length, ← Nat.add_assoc] at isStart

theorem foldrM_congr {α β : Type} {code other : α → β → Option β} {elements : List α}
    (same : ∀ element ∈ elements, code element = other element) (start : β) :
    elements.foldrM code start = elements.foldrM other start := by
  induction elements with
  | nil => rfl
  | cons element rest ih =>
      rw [List.foldrM_cons, List.foldrM_cons, ih fun later member => same later (List.mem_cons_of_mem _ member),
        same element List.mem_cons_self]

theorem filterMapM_congr {α β : Type} {code other : α → Option (Option β)} {elements : List α}
    (same : ∀ element ∈ elements, code element = other element) :
    elements.filterMapM code = elements.filterMapM other := by
  induction elements with
  | nil => rfl
  | cons element rest ih =>
      rw [List.filterMapM_cons, List.filterMapM_cons, same element List.mem_cons_self,
        ih fun later member => same later (List.mem_cons_of_mem _ member)]

end DatalogRam.Lowering
