/-!
# Collections without repetitions

The analyses collect names and positions as they meet them. What stays in the order in which it is met is noted
unless it has been met before. What is listed in ascending order is sorted first, and then equal neighbours become
one.
-/

namespace DatalogRam.Analysis

/-- Note an element behind those that were met before it. -/
def touch {α : Type} [BEq α] (met : List α) (element : α) : List α :=
  if met.contains element then met else met ++ [element]

/-- Put a number before the first one that is not less. -/
def insertAscending (number : Nat) : List Nat → List Nat
  | [] => [number]
  | first :: rest => if number ≤ first then number :: first :: rest else first :: insertAscending number rest

/-- The numbers of a list, sorted. -/
def ascending (numbers : List Nat) : List Nat :=
  numbers.foldr insertAscending []

/-- The numbers of a list, sorted and each once. -/
def distinctAscending (numbers : List Nat) : List Nat :=
  (ascending numbers).eraseReps

end DatalogRam.Analysis
