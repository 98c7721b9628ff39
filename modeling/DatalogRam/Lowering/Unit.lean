import DatalogRam.Lowering.Evaluation
import DatalogRam.Lowering.Explanation
import DatalogRam.Lowering.Info

/-!
# Lowering whole programs

`lowerUnit` writes the main statement of a program. Under provenance it also fills the info relation of every
rule and adds the subroutines that explain the rules.
-/

namespace DatalogRam.Lowering

open Ram Analysis

/-- Fill the info relations of all rules, relation by relation. -/
def lowerInfos (plan : Plan) : Lower (Placed Stmt) := do
  let rules := plan.program.relations.flatMap fun relation =>
    (plan.program.clausesOf relation.name).filter fun entry => !entry.1.isFact
  let queries ← rules.mapM fun (clause, id) => lowerInfo plan clause id
  report .debug "generated info facts" [("facts", toString queries.length)]
  sequence queries

/-- The name that the subroutines of a rule begin with. -/
def explanationLabel (clause : Clause) (number : Nat) : String :=
  clause.head.relation.text ++ "_" ++ toString number

/-- Add the subroutines that explain a rule. -/
def addExplanation (plan : Plan) (clause : Clause) (id : Nat) : Lower Unit := do
  let label := explanationLabel clause (← plan.clauseNumber clause id)
  report .debug "adding subproof subroutines" [("subroutine", label)]
  let explanation ← lowerExplanation plan clause id
  addSubroutine (label ++ "_subproof") explanation.derivation
  addSubroutine (label ++ "_negation_subproof") explanation.decision

/-- The rules that are explained: all but those that fill info relations. -/
def explainedRules (program : Program) : List (Clause × Nat) :=
  program.numberedClauses.filter fun entry =>
    !entry.1.isFact && !isInfoName entry.1.head.relation

/-- The main statement of a program. -/
def lowerUnit (plan : Plan) : Lower (Placed Stmt) := do
  match plan.strategy with
  | .seminaive => lowerEvaluation plan
  | .provenance =>
      let evaluation ← lowerEvaluation plan
      let infos ← lowerInfos plan
      (explainedRules plan.program).forM fun (clause, id) => addExplanation plan clause id
      sequence [evaluation, infos]

/-- Plan a program and report how. -/
def planProgram (program : Program) (strategy : Strategy) (debugInfo : Bool) : Lower Plan := do
  report .info "selected translation strategy" [("strategy", strategy.name)]
  let plan ← Plan.of program strategy debugInfo
  report .debug "computed precedence graph components" [("sccs", toString plan.strata.length)]
  return plan

/-- What a run of the lowering leaves behind: a program or an error, and the events reported. -/
structure Outcome where
  result : Except LoweringError Ram.Program
  events : List Event

/-- Lower a program. -/
def lowerProgram (program : Program) (strategy : Strategy) (debugInfo : Bool) : Outcome :=
  let lower : Lower (Placed Stmt) := do
    let plan ← planProgram program strategy debugInfo
    lowerUnit plan
  let (result, draft) := lower.run.run .empty
  ⟨result.map draft.finish, draft.events.toList⟩

end DatalogRam.Lowering
