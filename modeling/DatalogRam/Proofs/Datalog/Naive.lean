import DatalogRam.Proofs.Datalog.Fixpoint

/-!
# Naive iteration

A round of naive evaluation derives anew whatever can be derived from all facts. Semi-naive rounds that start with all
rows of their component as those of the previous round know, after any number of rounds, just the facts that naive
evaluation knows after as many. The rows of the previous round are those that its last round has added.
-/

namespace DatalogRam

namespace Component

/-- The facts after some rounds of naive evaluation. -/
def naive (ordinal : String → Int64) (clauses : List Clause) (facts : Facts) : Nat → Facts
  | 0 => facts
  | count + 1 =>
      (naive ordinal clauses facts count).union (derived ordinal clauses (naive ordinal clauses facts count))

/-- All facts, and those of the previous round, after some semi-naive rounds. -/
def rounds (ordinal : String → Int64) (component : Component) (facts : Facts) : Nat → Facts × Facts
  | 0 => (facts, facts.within component.names)
  | count + 1 =>
      let (full, delta) := rounds ordinal component facts count
      (full.union (component.found ordinal full delta), component.found ordinal full delta)

variable {ordinal : String → Int64} {component : Component} {facts : Facts}

theorem derived_congr {clauses others : List Clause} (same : ∀ clause, clause ∈ clauses ↔ clause ∈ others) :
    derived ordinal clauses facts = derived ordinal others facts := by
  funext name
  ext row
  exact exists_congr fun clause => and_congr_left fun _ => same clause

theorem naive_congr {clauses others : List Clause} (same : ∀ clause, clause ∈ clauses ↔ clause ∈ others) (count : Nat) :
    naive ordinal clauses facts count = naive ordinal others facts count := by
  induction count with
  | zero => rfl
  | succ count ih => rw [naive, naive, ih, derived_congr same]

section Step

variable {seeds full delta : Facts}

/-- A semi-naive round finds what is derived from all facts and not known yet. -/
theorem Progress.found_eq (progress : Progress ordinal component seeds full delta) (name : Name) :
    component.found ordinal full delta name = derived ordinal component.recursive full name \ full name := by
  apply Set.Subset.antisymm
  · rintro row ⟨new, clause, isClause, rfl, position, atom, _, _, derives⟩
    refine ⟨⟨clause, isClause, rfl, derives.mono fun other more _ => ?_⟩, new⟩
    rw [atPosition]
    split
    · exact progress.known more.relation
    · exact Set.Subset.refl _
  · rintro row ⟨⟨clause, isClause, rfl, derives⟩, new⟩
    exact (progress.known_or_found isClause derives).resolve_left new

theorem Progress.union_found (progress : Progress ordinal component seeds full delta) :
    full.union (component.found ordinal full delta) = full.union (derived ordinal component.recursive full) := by
  funext name
  rw [Facts.union, progress.found_eq, Set.union_sdiff_self]
  rfl

end Step

/-- Semi-naive rounds know what naive ones know, and what can be derived without the rows of the previous round. -/
theorem progress_rounds (proper : component.Proper) (count : Nat) :
    (rounds ordinal component facts count).1 = naive ordinal component.recursive facts count ∧
      Progress ordinal component facts (rounds ordinal component facts count).1
        (rounds ordinal component facts count).2 := by
  induction count with
  | zero => exact ⟨rfl, .start proper facts⟩
  | succ count ih =>
      obtain ⟨same, progress⟩ := ih
      refine ⟨?_, progress.step proper⟩
      rw [rounds, naive, ← same]
      exact progress.union_found

/-- The rows of the previous round are those that it added. -/
theorem rounds_delta (proper : component.Proper) (count : Nat) (name : Name) :
    (rounds ordinal component facts (count + 1)).2 name =
      naive ordinal component.recursive facts (count + 1) name \
        naive ordinal component.recursive facts count name := by
  obtain ⟨same, progress⟩ := @progress_rounds ordinal component facts proper count
  rw [rounds, naive, ← same, Facts.union, Set.union_sdiff_left]
  exact progress.found_eq name

/-- A round is quiet exactly if the naive one adds nothing. -/
theorem quiet_rounds_iff (proper : component.Proper) (count : Nat) :
    component.Quiet ordinal (rounds ordinal component facts count).1 (rounds ordinal component facts count).2 ↔
      naive ordinal component.recursive facts (count + 1) = naive ordinal component.recursive facts count := by
  obtain ⟨same, progress⟩ := @progress_rounds ordinal component facts proper count
  rw [naive, ← same, ← progress.union_found]
  constructor
  · intro quiet
    funext name
    have nothing : component.found ordinal (rounds ordinal component facts count).1
        (rounds ordinal component facts count).2 name = ∅ := by
      by_cases inside : name ∈ component.names
      · exact quiet name inside
      · exact Progress.found_subset proper inside
    rw [Facts.union, nothing, Set.union_empty]
  · intro stable name _
    rw [Set.eq_empty_iff_forall_notMem]
    intro row isFound
    have known : row ∈ (rounds ordinal component facts count).1 name :=
      congrFun stable name ▸ Set.mem_union_right _ isFound
    exact isFound.1 known

/-- Rounds that lead to a quiet one come to it after finitely many. -/
theorem exists_quiet_of_saturates {full delta final : Facts}
    (saturates : component.Saturates ordinal full delta final) :
    ∀ count, rounds ordinal component facts count = (full, delta) →
      ∃ last, component.Quiet ordinal (rounds ordinal component facts last).1
        (rounds ordinal component facts last).2 := by
  induction saturates with
  | quiet isQuiet =>
      intro count reached
      exact ⟨count, by rwa [reached]⟩
  | round _ _ ih =>
      intro count reached
      exact ih (count + 1) (by rw [rounds, reached])

/-- There is a first naive round that adds nothing. -/
theorem exists_stable {arity : Name → Nat} (proper : component.Proper)
    (arities : ∀ clause ∈ component.recursive, clause.head.args.length = arity clause.head.relation) :
    ∃ count, naive ordinal component.recursive facts (count + 1) = naive ordinal component.recursive facts count ∧
      ∀ earlier < count, naive ordinal component.recursive facts (earlier + 1) ≠
        naive ordinal component.recursive facts earlier := by
  classical
  have exists_saturated : ∃ final, component.Saturates ordinal facts (facts.within component.names) final :=
    exists_saturates arities _ _
  obtain ⟨final, saturates⟩ := exists_saturated
  obtain ⟨last, quiet⟩ := exists_quiet_of_saturates saturates 0 rfl
  have stable : ∃ count, naive ordinal component.recursive facts (count + 1) =
      naive ordinal component.recursive facts count := ⟨last, (quiet_rounds_iff proper last).1 quiet⟩
  exact ⟨Nat.find stable, Nat.find_spec stable, fun earlier before => Nat.find_min stable before⟩

end Component

end DatalogRam
