/-!
# Reachability in a finite domain

`gather next domain pending` lists what can be reached from `pending` along `next` without leaving `domain`.
Every step takes one element out of the domain, so its size bounds the number of steps.
-/

namespace DatalogRam.Analysis

variable {α : Type} [DecidableEq α]

/-- Take the first pending element that is still in the domain, then go on with its successors. -/
def gatherWithin (next : α → List α) : Nat → List α → List α → List α
  | 0, _, _ => []
  | budget + 1, domain, pending =>
      match pending.dropWhile (fun element => !domain.contains element) with
      | [] => []
      | element :: rest =>
          element :: gatherWithin next budget (domain.erase element) (next element ++ rest)

/-- The elements of `domain` that can be reached from `pending` through elements of `domain`. -/
def gather (next : α → List α) (domain pending : List α) : List α :=
  gatherWithin next domain.length domain pending

/-- The elements of `domain` that are reached from `seeds` through elements of `domain`. -/
inductive Reached (next : α → List α) (domain seeds : List α) : α → Prop where
  | seed {element : α} : element ∈ domain → element ∈ seeds → Reached next domain seeds element
  | step {source element : α} : Reached next domain seeds source → element ∈ domain →
      element ∈ next source → Reached next domain seeds element

end DatalogRam.Analysis
