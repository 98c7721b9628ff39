import DatalogRam.Lowering.Plan
import DatalogRam.Lowering.Value

/-!
# Code for conditions

Negations and constraints become conditions. A negated atom asks that no row has the given values, whatever is
in the bookkeeping columns.
-/

namespace DatalogRam.Lowering

open Ram

/-- Some number of wildcards. -/
def wildcards : Nat → Build (List (Placed Expr))
  | 0 => return []
  | count + 1 => do
      let first ← undefined
      return first :: (← wildcards count)

/-- Whether the relation has a row that begins with the values and has `auxiliary` more columns. -/
def existenceCheck (relation : String) (values : List (Placed Expr)) (auxiliary : Nat) :
    Build (Placed Cond) := do
  let padding ← wildcards auxiliary
  placeCond (.holds relation (values ++ padding))

def compareEqual (left right : Placed Expr) : Build (Placed Cond) :=
  placeCond (.compare .eq left right)

/-- The condition of a negation or a constraint. A positive atom has none. -/
def lowerConstraint (plan : Plan) (sites : Sites) : Literal → Lower (Option (Placed Cond))
  | .positive .. => return none
  | .negative relation args => do
      let _ ← plan.requireRelation relation
      let values ← lowerValues sites args
      let check ← existenceCheck relation.text values plan.auxiliary
      return some (← negation check)
  | .comparison op left right => do
      let left ← lowerValue sites left
      let right ← lowerValue sites right
      return some (← placeCond (.compare op left right))
  | .truth true => return some (← placeCond .true)
  | .truth false => return some (← placeCond .false)

end DatalogRam.Lowering
