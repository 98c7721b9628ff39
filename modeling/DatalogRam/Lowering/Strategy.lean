/-!
# Strategies

Both strategies evaluate a program stratum by stratum. Under provenance every row also tells by which rule and
at which level it was derived, nothing is forgotten, and the program can be asked for explanations.
-/

namespace DatalogRam.Lowering

inductive Strategy where
  | seminaive
  | provenance
  deriving DecidableEq, Repr

namespace Strategy

def name : Strategy → String
  | seminaive => "seminaive"
  | provenance => "provenance"

/-- The number of bookkeeping columns at the end of every relation. -/
def auxiliary : Strategy → Nat
  | seminaive => 0
  | provenance => 2

end Strategy

/-- The bookkeeping column with the number of the rule that derived a row. -/
def ruleColumn : String :=
  "@rule_number"

/-- The bookkeeping column with the level at which a row was derived. -/
def levelColumn : String :=
  "@level_number"

end DatalogRam.Lowering
