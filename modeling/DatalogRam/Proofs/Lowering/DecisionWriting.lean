import DatalogRam.Lowering.Explanation
import DatalogRam.Proofs.Lowering.Optional
import DatalogRam.Proofs.Lowering.Redirecting
import DatalogRam.Proofs.Ram.Leaves

/-!
# Writing decisions

The subroutine that decides the literals of a rule has one branch for each of them, the constraints last. A branch
answers one way or the other by a condition over the arguments of the subroutine.
-/

namespace DatalogRam.Lowering

open Ram

section Code

variable (ordinal : String → Int64)

/-- Whether a stored row has the arguments of an atom, over the sites of slots. -/
def atomCheckCode (plan : Plan) (slots : Slots) (relation : Name) (args : List Argument) : Option Cond := do
  let _ ← plan.program.relation? relation
  let values ← valueCodes ordinal slots.sites args
  return existence relation.text values plan.auxiliary

/-- The condition of a literal over the sites of slots, and whether it says that the literal holds. -/
def decisionConditionCode (plan : Plan) (slots : Slots) : Literal → Option (Option (Cond × Bool))
  | .positive relation args => (atomCheckCode ordinal plan slots relation args).map fun check => some (check, true)
  | .negative relation args => (atomCheckCode ordinal plan slots relation args).map fun check => some (check, false)
  | constraint =>
      if (Literal.aggregates constraint).isEmpty then
        (constraintCode ordinal plan slots.sites constraint).map fun found => found.map fun condition => (condition, true)
      else none

/-- Answer in either case of a condition, given the answer for the case that it holds. -/
def eitherCode (condition : Cond) (holds : Bool) : Stmt :=
  .sequence
    [.query (.filter condition (.answer [.signed (truthWord holds)])),
      .query (.filter (.not condition) (.answer [.signed (truthWord !holds)]))]

/-- The branch of a literal. -/
def branchCode (plan : Plan) (slots : Slots) (literal : Literal) : Option (Option Stmt) := do
  match ← decisionConditionCode ordinal plan slots literal with
  | none => return none
  | some (condition, holds) => do
      let redirected ← (condition.replace slots.redirect).toOption
      return some (eitherCode redirected holds)

def decisionCode (plan : Plan) (clause : Clause) (slots : Slots) : Option Stmt := do
  let branches ← clause.constraintsLast.filterMapM (branchCode ordinal plan slots)
  return .sequence branches

end Code

variable {ordinal : String → Int64} {plan : Plan} {slots : Slots} {exprs conds : Nat}

/-- A decision consists of answers in either case of the conditions of literals. -/
theorem decisionCode_eq_some {clause : Clause} {statement : Stmt}
    (code : decisionCode ordinal plan clause slots = some statement) :
    ∃ branches, statement = .sequence branches ∧ ∀ branch ∈ branches, ∃ literal ∈ clause.constraintsLast,
      ∃ condition holds redirected,
        decisionConditionCode ordinal plan slots literal = some (some (condition, holds)) ∧
        condition.replace slots.redirect = .ok redirected ∧ branch = eitherCode redirected holds := by
  obtain ⟨branches, areBranches, same⟩ := Option.bind_eq_some_iff.1 code
  refine ⟨branches, (Option.some.inj same).symm, fun branch member => ?_⟩
  obtain ⟨literal, inOrder, isBranch⟩ := mem_of_filterMapM areBranches member
  obtain ⟨found, isFound, isBranch⟩ := Option.bind_eq_some_iff.1 isBranch
  cases found with
  | none => cases isBranch
  | some entry =>
      obtain ⟨redirected, isReplaced, same⟩ := Option.bind_eq_some_iff.1 isBranch
      cases same
      exact ⟨literal, inOrder, entry.1, entry.2, redirected, isFound, eq_ok_of_toOption isReplaced, rfl⟩

theorem builds_answerIf (condition : Placed Cond) (value : Int64) :
    Builds Placed.tree (answerIf condition value) (.query (.filter condition.tree (.answer [.signed value]))) :=
  fun _ => rfl

/-- Both answers of a decision depend on the same condition. -/
theorem builds_answerEither (condition : Placed Cond) (holds : Bool) :
    Builds Placed.tree (answerEither condition holds) (.sequence
      [.query (.filter condition.tree (.answer [.signed (truthWord holds)])),
        .query (.filter (.not condition.tree) (.answer [.signed (truthWord !holds)]))]) := by
  rw [answerEither]
  refine (builds_copyCond condition.tree).bind fun copy copied => ?_
  refine (Builds.cond (.not copy)).bind fun negated isNegated => ?_
  refine (builds_answerIf condition (truthWord holds)).bind fun positive isPositive => ?_
  refine (builds_answerIf negated (truthWord !holds)).bind fun negative isNegative => ?_
  have negatedTree : negated.tree = .not condition.tree := by rw [← copied]; exact isNegated
  rw [← negatedTree, ← isPositive, ← isNegative]
  exact builds_sequence [positive, negative]

theorem writes_atomCheck (plan : Plan) (slots : Slots) (relation : Name) (args : List Argument) :
    Writes ordinal Placed.tree (atomCheck plan slots.sites relation args)
      (atomCheckCode ordinal plan slots relation args) := by
  refine (writes_requireRelation relation).bind ?_
  intro _ _ _
  refine (Writes.adapt missingSlotInstead (writes_values slots.sites args)).bind ?_
  rintro values _ rfl
  exact Writes.inArena (builds_existenceCheck relation.text values plan.auxiliary)

theorem lays_atomCheck (plan : Plan) (relation : Name) (args : List Argument) :
    Lays slots exprs conds (fun placed => conds ≤ placed.id) (atomCheck plan slots.sites relation args) :=
  (Lays.lift _).bind fun _ _ => (Lays.adapt _ (lays_values args)).bind fun _ within =>
    lays_existenceCheck _ _ within

/-- The condition of a literal that is no atom. -/
theorem writes_constraintCondition (slots : Slots) (constraint : Literal) :
    Writes ordinal (Option.map (Prod.map Placed.tree id))
      (if (Literal.aggregates constraint).isEmpty then do
        let condition ← ExceptT.adapt missingSlotInstead (lowerConstraint plan slots.sites constraint)
        return condition.map fun condition => (condition, true)
      else throw (.unboundAggregate constraint.text) : Lower (Option (Placed Cond × Bool)))
      (if (Literal.aggregates constraint).isEmpty then
        (constraintCode ordinal plan slots.sites constraint).map fun found => found.map fun condition => (condition, true)
      else none) := by
  split
  · rw [Option.map_eq_bind]
    refine (Writes.adapt missingSlotInstead (writes_constraint slots.sites constraint)).bind ?_
    rintro found _ rfl
    have shown := @Writes.pure _ _ ordinal (Option.map (Prod.map Placed.tree id))
      (found.map fun condition => (condition, true))
    rw [Option.map_map] at shown
    rw [Function.comp_apply, Option.map_map]
    exact shown
  · exact Writes.throw _

theorem writes_decisionCondition (slots : Slots) (literal : Literal) :
    Writes ordinal (Option.map (Prod.map Placed.tree id)) (decisionCondition plan slots.sites literal)
      (decisionConditionCode ordinal plan slots literal) := by
  cases literal with
  | positive relation args =>
      rw [decisionCondition, decisionConditionCode, Option.map_eq_bind]
      refine (writes_atomCheck plan slots relation args).bind ?_
      rintro check _ rfl
      exact Writes.pure (some (check, true))
  | negative relation args =>
      rw [decisionCondition, decisionConditionCode, Option.map_eq_bind]
      refine (writes_atomCheck plan slots relation args).bind ?_
      rintro check _ rfl
      exact Writes.pure (some (check, false))
  | comparison op left right => exact writes_constraintCondition slots (.comparison op left right)
  | truth value => exact writes_constraintCondition slots (.truth value)

theorem lays_constraintCondition (constraint : Literal) :
    Lays slots exprs conds (fun found => ∀ entry ∈ found, conds ≤ entry.1.id)
      (if (Literal.aggregates constraint).isEmpty then do
        let condition ← ExceptT.adapt missingSlotInstead (lowerConstraint plan slots.sites constraint)
        return condition.map fun condition => (condition, true)
      else throw (.unboundAggregate constraint.text) : Lower (Option (Placed Cond × Bool))) := by
  split
  · refine (Lays.adapt missingSlotInstead (lays_constraint plan constraint)).bind fun found within => Lays.pure ?_
    intro entry member
    obtain ⟨condition, isFound, rfl⟩ := Option.map_eq_some_iff.1 member
    exact within condition isFound
  · exact Lays.throw _

/-- The condition of a literal refers to nothing that was there before. -/
theorem lays_decisionCondition (literal : Literal) :
    Lays slots exprs conds (fun found => ∀ entry ∈ found, conds ≤ entry.1.id)
      (decisionCondition plan slots.sites literal) := by
  have checked (relation : Name) (args : List Argument) (holds : Bool) :
      Lays slots exprs conds (fun found => ∀ entry ∈ found, conds ≤ entry.1.id)
        (do return some (← atomCheck plan slots.sites relation args, holds)) :=
    (lays_atomCheck plan relation args).bind fun check within => Lays.pure fun entry same =>
      Option.some.inj same ▸ within
  cases literal with
  | positive relation args => exact checked relation args true
  | negative relation args => exact checked relation args false
  | comparison op left right => exact lays_constraintCondition (.comparison op left right)
  | truth value => exact lays_constraintCondition (.truth value)

/-- The branch of a literal is written, since redirecting its condition goes through. -/
theorem writes_branch (literal : Literal) :
    Writes ordinal (Option.map Placed.tree)
      (do
        match ← decisionCondition plan slots.sites literal with
        | none => return none
        | some (condition, holds) =>
            let condition ← slots.redirectCond condition
            return some (← inArena (answerEither condition holds)) : Lower (Option (Placed Stmt)))
      (branchCode ordinal plan slots literal) := by
  refine (writes_decisionCondition slots literal).bindReached (fun found => ?_) fun start found after ran agrees => ?_
  · cases found with
    | none => exact Keeps.pure none
    | some entry =>
        exact (keeps_redirectCond slots entry.1).bind fun _ => (Keeps.inArena _).bind fun _ => Keeps.pure _
  · cases found with
    | none => rfl
    | some entry =>
        obtain ⟨isSealed, within⟩ := @lays_decisionCondition plan slots _ _ literal start
          (Arena.Sealed.start slots.rowCount start.arena)
        rw [ran] at isSealed within
        obtain ⟨arena, redirected⟩ := outcome_redirectCond isSealed (within _ rfl entry rfl)
        change (outcome (slots.redirectCond entry.1 >>= fun condition =>
          inArena (answerEither condition entry.2) >>= fun branch => pure (some branch)) after).1.toOption.map _ =
            ((entry.1.tree.replace slots.redirect).toOption.bind fun condition => some (some (eitherCode condition entry.2)))
        rw [outcome_bind, redirected]
        cases entry.1.tree.replace slots.redirect with
        | error error => rfl
        | ok condition =>
            have built := builds_answerEither ⟨entry.1.id, condition⟩ entry.2 arena
            exact congrArg (fun tree => some (some tree)) built

/-- The lowering of a decision writes its code, whatever the slots are. -/
theorem writes_decision (clause : Clause) (slots : Slots) :
    Writes ordinal Placed.tree (lowerDecision plan clause slots) (decisionCode ordinal plan clause slots) := by
  rw [lowerDecision, decisionCode]
  refine (Writes.filterMapM _ fun literal _ => writes_branch literal).bind ?_
  rintro branches _ rfl
  exact Writes.inArena (builds_sequence branches)

end DatalogRam.Lowering
