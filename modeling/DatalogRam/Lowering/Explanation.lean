import DatalogRam.Lowering.Clause

/-!
# Explanation subroutines

Two subroutines explain a rule. Both take the values of its variables in the order of their slots. The first one
also takes a level, and answers with the rows of a derivation below it. The second one decides a literal of the
body: it answers one or zero, and as every literal has an answer for either case, only the first literal is ever
decided.
-/

namespace DatalogRam.Lowering

open Ram

/-- The subroutines that explain a rule. -/
structure Explanation where
  slots : Slots
  /-- Answers with the rows of a derivation below a level. -/
  derivation : Subroutine
  /-- Answers whether the first literal holds. -/
  decision : Subroutine

/-- In an explanation every variable should have a slot, so an undefined one lacks it. -/
def missingSlotInstead : LoweringError → LoweringError
  | .undefinedVariable name => .missingSlot name
  | error => error

/-- Whether a stored row has the arguments of an atom. -/
def atomCheck (plan : Plan) (sites : Sites) (relation : Name) (args : List Argument) :
    Lower (Placed Cond) := do
  let _ ← plan.requireRelation relation
  let values ← ExceptT.adapt missingSlotInstead (lowerValues sites args)
  existenceCheck relation.text values plan.auxiliary

/-- The condition that decides a literal, and whether it says that the literal holds. An aggregate cannot be
evaluated outside of its clause. -/
def decisionCondition (plan : Plan) (sites : Sites) (literal : Literal) :
    Lower (Option (Placed Cond × Bool)) := do
  match literal with
  | .positive relation args => return some (← atomCheck plan sites relation args, true)
  | .negative relation args => return some (← atomCheck plan sites relation args, false)
  | constraint =>
      if (Literal.aggregates constraint).isEmpty then
        let condition ← ExceptT.adapt missingSlotInstead (lowerConstraint plan sites constraint)
        return condition.map fun condition => (condition, true)
      else throw (.unboundAggregate constraint.text)

/-- Answer a value if a condition holds. -/
def answerIf (condition : Placed Cond) (value : Int64) : Build (Placed Stmt) := do
  let value ← signed value
  let answer ← placeOp (.answer [value])
  query (← filter condition answer)

def truthWord (value : Bool) : Int64 :=
  if value then 1 else 0

/-- Answer in either case of a condition, given the answer for the case that it holds. -/
def answerEither (condition : Placed Cond) (holds : Bool) : Build (Placed Stmt) := do
  let copy ← copyCond condition.tree
  let negated ← negation copy
  let positive ← answerIf condition (truthWord holds)
  let negative ← answerIf negated (truthWord !holds)
  sequence [positive, negative]

/-- The body of the subroutine that decides a literal. Constraints come after all other literals. -/
def lowerDecision (plan : Plan) (clause : Clause) (slots : Slots) : Lower (Placed Stmt) := do
  let branches ← clause.constraintsLast.filterMapM fun literal => do
    match ← decisionCondition plan slots.sites literal with
    | none => return none
    | some (condition, holds) =>
        let condition ← slots.redirectCond condition
        return some (← answerEither condition holds)
  sequence branches

/-- Write both subroutines of a rule. -/
def lowerExplanation (plan : Plan) (clause : Clause) (id : Nat) : Lower Explanation := do
  let slots := Slots.ofClause clause
  report .debug "synthesizing subproofs" [("clause", clause.text), ("slots", toString slots.size)]
  let derivation ← lowerComplete plan clause id (.explanation slots)
  let decision ← lowerDecision plan clause slots
  return {
    slots := slots
    derivation := ⟨derivation, slots.names ++ [levelColumn]⟩
    decision := ⟨decision, slots.names⟩ }

end DatalogRam.Lowering
