import DatalogRam.Analysis.Reach
import Mathlib.Data.List.TakeWhile
import Mathlib.Logic.Relation

/-!
# What gathering finds

`gather` lists exactly the elements that are `Reached`: the budget, the size of the domain, never runs out,
because every step takes an element out of the domain. `reached_iff` reads `Reached` as a path of edges that
stays in the domain.
-/

namespace DatalogRam.Analysis

variable {α : Type}

theorem Reached.mem_domain {next : α → List α} {domain seeds : List α} {element : α}
    (reached : Reached next domain seeds element) : element ∈ domain := by
  cases reached with
  | seed inDomain _ => exact inDomain
  | step _ inDomain _ => exact inDomain

/-- Being reached is having a path from a seed that does not leave the domain. -/
theorem reached_iff {next : α → List α} {domain seeds : List α} {element : α} :
    Reached next domain seeds element ↔
      ∃ seed ∈ seeds, seed ∈ domain ∧
        Relation.ReflTransGen (fun source target => target ∈ next source ∧ target ∈ domain)
          seed element := by
  constructor
  · intro reached
    induction reached with
    | seed inDomain isSeed => exact ⟨_, isSeed, inDomain, .refl⟩
    | step _ inDomain isNext ih =>
        obtain ⟨seed, isSeed, seedInDomain, path⟩ := ih
        exact ⟨seed, isSeed, seedInDomain, path.tail ⟨isNext, inDomain⟩⟩
  · rintro ⟨seed, isSeed, seedInDomain, path⟩
    induction path with
    | refl => exact .seed seedInDomain isSeed
    | tail _ edge ih => exact .step ih edge.2 edge.1

variable [DecidableEq α]

/-- Taking a seed out of the domain and going on from its successors reaches nothing new. -/
theorem Reached.of_erase {next : α → List α} {domain seeds rest : List α} {selected element : α}
    (inDomain : selected ∈ domain) (isSeed : selected ∈ seeds) (subset : rest ⊆ seeds)
    (reached : Reached next (domain.erase selected) (next selected ++ rest) element) :
    Reached next domain seeds element := by
  induction reached with
  | seed member source =>
      have inside := List.mem_of_mem_erase member
      rcases List.mem_append.1 source with successor | pending
      · exact .step (.seed inDomain isSeed) inside successor
      · exact .seed inside (subset pending)
  | step _ member edge ih => exact .step ih (List.mem_of_mem_erase member) edge

/-- Taking a seed out of the domain and going on from its successors loses only the seed. -/
theorem Reached.erase {next : α → List α} {domain seeds rest : List α} {selected element : α}
    (remaining : ∀ seed ∈ seeds, seed ∈ domain → seed = selected ∨ seed ∈ rest)
    (reached : Reached next domain seeds element) :
    element = selected ∨ Reached next (domain.erase selected) (next selected ++ rest) element := by
  by_cases same : element = selected
  · exact .inl same
  refine .inr ?_
  induction reached with
  | seed member isSeed =>
      have inRest := (remaining _ isSeed member).resolve_left same
      exact .seed ((List.mem_erase_of_ne same).2 member) (List.mem_append_right _ inRest)
  | @step source target _ member edge ih =>
      have inside := (List.mem_erase_of_ne same).2 member
      by_cases sourceSame : source = selected
      · subst sourceSame
        exact .seed inside (List.mem_append_left _ edge)
      · exact .step (ih sourceSame) inside edge

/-- Where a step of `gatherWithin` takes an element, it is the first pending one that is in the domain. -/
theorem first_pending {domain pending rest : List α} {selected : α}
    (dropped : pending.dropWhile (fun element => !domain.contains element) = selected :: rest) :
    selected ∈ domain ∧ selected ∈ pending ∧ rest ⊆ pending ∧
      ∀ seed ∈ pending, seed ∈ domain → seed = selected ∨ seed ∈ rest := by
  have suffix : selected :: rest <:+ pending := dropped ▸ List.dropWhile_suffix _
  have inDomain : selected ∈ domain := by
    have head := List.head_dropWhile_not (fun element => !domain.contains element)
      (l := pending) (dropped ▸ List.cons_ne_nil selected rest)
    simp only [dropped, List.head_cons] at head
    simpa using head
  refine ⟨inDomain, suffix.subset List.mem_cons_self,
    fun _ member => suffix.subset (List.mem_cons_of_mem _ member), ?_⟩
  intro seed isSeed seedInDomain
  rw [← List.takeWhile_append_dropWhile (p := fun element => !domain.contains element) (l := pending),
    dropped] at isSeed
  rcases List.mem_append.1 isSeed with skipped | kept
  · have outside := List.mem_takeWhile_imp skipped
    simp [seedInDomain] at outside
  · exact List.mem_cons.1 kept

theorem reached_of_mem_gatherWithin {next : α → List α} {budget : Nat} {domain pending : List α}
    {element : α} (found : element ∈ gatherWithin next budget domain pending) :
    Reached next domain pending element := by
  induction budget generalizing domain pending with
  | zero => simp [gatherWithin] at found
  | succ budget ih =>
      simp only [gatherWithin] at found
      split at found
      · simp at found
      · next selected rest dropped =>
          obtain ⟨inDomain, isSeed, subset, _⟩ := first_pending dropped
          rcases List.mem_cons.1 found with rfl | later
          · exact .seed inDomain isSeed
          · exact (ih later).of_erase inDomain isSeed subset

theorem mem_gatherWithin_of_reached {next : α → List α} {budget : Nat} {domain pending : List α}
    {element : α} (enough : domain.length ≤ budget) (reached : Reached next domain pending element) :
    element ∈ gatherWithin next budget domain pending := by
  induction budget generalizing domain pending with
  | zero =>
      have inDomain := reached.mem_domain
      simp [List.length_eq_zero_iff.1 (Nat.le_zero.1 enough)] at inDomain
  | succ budget ih =>
      simp only [gatherWithin]
      split
      · next dropped =>
          -- No pending element is in the domain, so no path can start.
          obtain ⟨seed, isSeed, inDomain, _⟩ := reached_iff.1 reached
          have outside := List.dropWhile_eq_nil_iff.1 dropped seed isSeed
          simp [inDomain] at outside
      · next selected rest dropped =>
          obtain ⟨inDomain, _, _, remaining⟩ := first_pending dropped
          have smaller := List.length_erase_of_mem inDomain
          rcases reached.erase remaining with rfl | later
          · exact List.mem_cons_self
          · exact List.mem_cons_of_mem _ (ih (by omega) later)

/-- `gather` finds what is reached and nothing else. -/
theorem mem_gather_iff {next : α → List α} {domain pending : List α} {element : α} :
    element ∈ gather next domain pending ↔ Reached next domain pending element :=
  ⟨reached_of_mem_gatherWithin, mem_gatherWithin_of_reached (Nat.le_refl _)⟩

end DatalogRam.Analysis
