import DatalogRam.Analysis.Kind
import DatalogRam.Analysis.Recursion
import DatalogRam.Analysis.Schedule
import DatalogRam.Datalog.Text
import DatalogRam.Lowering.Error
import DatalogRam.Lowering.Strategy

/-!
# Plans

Everything that is known about a source program before any code is written: the kinds of its types, its strata,
which relations expire, and how its rules are numbered.
-/

namespace DatalogRam.Lowering

open Analysis

structure Plan where
  program : Program
  strategy : Strategy
  /-- Whether the code of a clause is wrapped in a statement with the clause's text. -/
  debugInfo : Bool
  kinds : Kinds
  strata : List Stratum
  /-- What each stratum computes, and which relations are not needed after it. -/
  schedule : List Step

namespace Plan

/-- Plan a program. It fails if the types cannot be resolved. -/
def of (program : Program) (strategy : Strategy) (debugInfo : Bool) : Except LoweringError Plan :=
  match resolveTypes program.types with
  | .error error => .error (.type error)
  | .ok kinds =>
      let strata := Analysis.strata program
      .ok
        { program := program
          strategy := strategy
          debugInfo := debugInfo
          kinds := kinds
          strata := strata
          schedule := Analysis.schedule program strata }

/-- For each stratum, the relations that are not needed after it. -/
def expirations (plan : Plan) : List (List Name) :=
  plan.schedule.map Step.expired

/-- The number of bookkeeping columns. -/
def auxiliary (plan : Plan) : Nat :=
  plan.strategy.auxiliary

/-- The declaration of a relation. -/
def requireRelation (plan : Plan) (name : Name) : Except LoweringError Relation :=
  match plan.program.relation? name with
  | some relation => .ok relation
  | none => .error (.undeclaredRelation name.text)

/-- The number of a clause of a declared relation. Facts have number zero, and the rules of a relation are
numbered from one on. -/
def clauseNumber (plan : Plan) (clause : Clause) (id : Nat) : Except LoweringError Nat :=
  if plan.program.declares clause.head.relation then
    if clause.isFact then .ok 0
    else
      let earlier := (plan.program.clausesOf clause.head.relation).filter fun entry =>
        !entry.1.isFact && decide (entry.2 < id)
      .ok (earlier.length + 1)
  else .error (.unnumberedClause clause.text)

def stratumOf? (plan : Plan) (name : Name) : Option Nat :=
  Analysis.stratumOf? plan.strata name

/-- Whether a relation belongs to a stratum that reads itself. -/
def isRecursiveRelation (plan : Plan) (name : Name) : Bool :=
  match plan.stratumOf? name with
  | some position => (plan.strata[position]?.map Stratum.recursive).getD false
  | none => false

/-- The recursive or the other clauses of a relation. -/
def clausesOf (plan : Plan) (name : Name) (recursive : Bool) : List (Clause × Nat) :=
  (plan.program.clausesOf name).filter fun entry => isRecursive plan.program entry.1 == recursive

end Plan

end DatalogRam.Lowering
