import DatalogRam.Lowering.Unit
import DatalogRam.Proofs.Lowering.DecisionWriting
import DatalogRam.Proofs.Lowering.PlantedQueries

/-!
# Programs are planted

The statements of strata, info relations and explanations are put together from queries, each of which is used once. A
subroutine that is added makes its body a root for good.
-/

namespace DatalogRam.Lowering

open Ram

variable {plan : Plan} {slots : Slots}

/-! ## Evaluation -/

theorem plants_completeClauses (relation : Name) : Plants 0 (lowerCompleteClauses plan relation) := by
  apply Plants.mapM
  intro entry
  exact plants_complete entry.1 entry.2 .insertion

theorem plants_recursiveClauses (stratum : List Name) (relation : Name) :
    Plants 0 (lowerRecursiveClauses plan stratum relation) := by
  rw [lowerRecursiveClauses]
  refine Plants.feed (Plants.mapM _ fun entry => Plants.mapM _ fun version => ?_) fun queries => ?_
  · exact plants_incremental entry.1 entry.2 stratum version .insertion
  · exact Plants.pure (by simp)

theorem plants_advance (relation : Name) : Plants 0 (inArena (advance relation)) := by
  rw [advance, inArena_bind]
  apply (plants_stmt (.merge (freshName relation) relation.text) rfl).fresh
  intro merge
  rw [inArena_bind]
  apply (plants_stmt (.swap (deltaName relation) (freshName relation)) rfl).fresh
  intro swap
  rw [inArena_bind]
  apply (plants_stmt (.clear (freshName relation)) rfl).fresh
  intro clear
  exact Plants.pure (by simp [add_comm, add_assoc])

theorem plants_loop (stratum : List Name) : Plants 0 (lowerLoop plan stratum) := by
  rw [lowerLoop]
  apply (Plants.mapM stratum (plants_recursiveClauses stratum)).fresh
  intro queries
  apply Plants.fresh (Plants.mapM stratum fun relation => plants_cond (.isEmpty (freshName relation)) rfl)
  intro empty
  apply (plants_conjunction empty).bind
  intro condition
  apply (plants_stmt (.exit condition) (by simp [StmtNode.conds, StmtNode.ops, StmtNode.stmts])).bind
  intro exit
  apply (Plants.mapM stratum plants_advance).fresh
  intro advances
  apply ((plants_sequence (queries.flatten ++ [exit] ++ advances.flatten)).of_eq ?_).feed
  · intro body
    exact plants_stmt (.loop body) (by simp [StmtNode.conds, StmtNode.ops, StmtNode.stmts])
  · simp [add_comm, add_left_comm, add_assoc]

theorem plants_clearRounds (relation : Name) : Plants 0 (inArena (clearRounds relation)) := by
  rw [clearRounds, inArena_bind]
  apply (plants_stmt (.clear (deltaName relation)) rfl).fresh
  intro delta
  rw [inArena_bind]
  apply (plants_stmt (.clear (freshName relation)) rfl).fresh
  intro fresh
  exact Plants.pure (by simp [add_comm])

theorem plants_stratum (position : Nat) (stratum : Analysis.Stratum) :
    Plants 0 (lowerStratum plan position stratum) := by
  rw [lowerStratum]
  apply Plants.after (Still.report _ _ _)
  intro _
  apply (Plants.mapM stratum.relations plants_completeClauses).fresh
  intro queries
  split
  · apply Plants.fresh (Plants.mapM stratum.relations fun relation =>
      plants_stmt (.merge relation.text (deltaName relation)) rfl)
    intro seeds
    apply (plants_loop stratum.relations).fresh
    intro loop
    apply (Plants.mapM stratum.relations plants_clearRounds).fresh
    intro clears
    apply (plants_sequence (queries.flatten ++ seeds ++ [loop] ++ clears.flatten)).of_eq
    simp [add_comm, add_left_comm, add_assoc]
  · exact (plants_sequence queries.flatten).of_eq (by simp)

theorem plants_clearExpired (strategy : Strategy) (expired : List Name) :
    Plants 0 (clearExpired strategy expired) := by
  cases strategy with
  | seminaive =>
      have clears : Plants 0 (expired.mapM fun name => do
          report .trace "clearing expired relation" [("relation", name.text)]
          inArena (placeStmt (.clear name.text))) :=
        Plants.mapM _ fun name => Plants.after (Still.report _ _ _) fun _ => plants_stmt (.clear name.text) rfl
      exact clears.feed plants_sequence
  | provenance => exact plants_sequence []

theorem still_declareRelation (relation : Relation) : Still (declareRelation plan relation) := by
  apply (Still.lift _).bind
  intro table
  apply (Still.declareTable table).bind
  intro _
  split
  · apply (Still.lift _).bind
    intro delta
    apply (Still.declareTable delta).bind
    intro _
    apply (Still.lift _).bind
    intro fresh
    exact Still.declareTable fresh
  · exact Still.pure ()

theorem plants_evaluation : Plants 0 (lowerEvaluation plan) := by
  rw [lowerEvaluation]
  apply (Plants.forM plan.program.relations fun relation => (still_declareRelation relation).plants).feed
  intro _
  refine Plants.feed (Plants.mapM _ fun entry => ?_) plants_sequence
  apply (plants_stratum entry.2 entry.1).fresh
  intro evaluation
  apply (plants_clearExpired plan.strategy _).fresh
  intro clear
  exact (plants_sequence [evaluation, clear]).of_eq (by simp [add_comm])

/-! ## Info relations -/

theorem plants_info (clause : Clause) (id : Nat) : Plants 0 (lowerInfo plan clause id) := by
  rw [lowerInfo]
  apply Plants.after (Still.lift _)
  intro number
  apply Plants.after (Still.lift _)
  intro description
  apply Plants.after (Still.report _ _ _)
  intro _
  apply Plants.after (Still.declareTable _)
  intro _
  apply Plants.fresh (plants_expr (.signed (Int64.ofNat number)) rfl)
  intro numberValue
  have texts (words : List String) : Plants 0 (words.mapM fun text => do
      let ordinal ← encodeSymbol text
      inArena (signed ordinal)) :=
    Plants.mapM _ fun text => Plants.after (Still.encodeSymbol text) fun ordinal => plants_expr (.signed ordinal) rfl
  apply (texts (description.head :: description.literals)).fresh
  intro texts
  apply Plants.fresh (Plants.mapM (List.replicate plan.auxiliary 0) fun zero => plants_expr (.signed zero) rfl)
  intro padding
  apply (plants_op (.insert _ (numberValue :: texts ++ padding)) ?_).feed plants_query
  simp [OpNode.exprs, OpNode.conds, OpNode.ops, add_comm, add_assoc]

theorem plants_infos : Plants 0 (lowerInfos plan) := by
  rw [lowerInfos]
  refine Plants.feed (Plants.mapM _ fun entry => ?_) fun queries => ?_
  · exact plants_info entry.1 entry.2
  · exact Plants.after (Still.report _ _ _) fun _ => plants_sequence queries

/-! ## Explanations -/

theorem plants_atomCheck (sites : Sites) (relation : Name) (args : List Argument) :
    Plants 0 (atomCheck plan sites relation args) := by
  apply Plants.after (Still.lift _)
  intro _
  apply ((plants_values sites args).adapt missingSlotInstead).feed
  intro values
  exact plants_existenceCheck relation.text values plan.auxiliary

theorem plants_decisionCondition (sites : Sites) (literal : Literal) :
    Plants 0 (decisionCondition plan sites literal) := by
  have checked (relation : Name) (args : List Argument) (holds : Bool) :
      Plants 0 (do return some (← atomCheck plan sites relation args, holds)) :=
    (plants_atomCheck sites relation args).feed fun check => Plants.pure (by simp)
  have constrained :
      Plants 0
        (if (Literal.aggregates literal).isEmpty then do
          let condition ← ExceptT.adapt missingSlotInstead (lowerConstraint plan sites literal)
          return condition.map fun condition => (condition, true)
        else throw (.unboundAggregate literal.text)) := by
    split
    · apply ((plants_constraint sites literal).adapt missingSlotInstead).feed
      intro condition
      cases condition <;> exact Plants.pure (by simp)
    · exact Plants.throw _
  cases literal with
  | positive relation args => exact checked relation args true
  | negative relation args => exact checked relation args false
  | comparison | truth => exact constrained

theorem plants_answerIf (condition : Placed Cond) (value : Int64) :
    Plants (roots condition) (inArena (answerIf condition value)) := by
  rw [answerIf, inArena_bind]
  apply Plants.fresh (plants_expr (.signed value) rfl)
  intro value
  rw [inArena_bind]
  apply (plants_op (.answer [value]) (by simp [OpNode.exprs, OpNode.conds, OpNode.ops])).bind
  intro answer
  rw [inArena_bind]
  exact ((plants_filter condition answer).of_eq (add_comm _ _)).feed plants_query

/-- The other case is decided by a copy of the condition. -/
theorem plants_answerEither (condition : Placed Cond) (holds : Bool) :
    Plants (roots condition) (inArena (answerEither condition holds)) := by
  rw [answerEither, inArena_bind]
  apply (plants_copyCond condition.tree).fresh
  intro copy
  rw [inArena_bind]
  apply (plants_negation copy).bind
  intro negated
  rw [inArena_bind, add_comm]
  apply (plants_answerIf condition (truthWord holds)).bind
  intro positive
  rw [inArena_bind, add_comm]
  apply (plants_answerIf negated (truthWord !holds)).bind
  intro negative
  exact (plants_sequence [positive, negative]).of_eq (by simp [add_comm])

section Redirecting

variable {sites : Sites} {draft last : Draft}

theorem lays_ranAtomCheck {relation : Name} {args : List Argument} {check : Placed Cond}
    (ran : outcome (atomCheck plan sites relation args) draft = (.ok check, last)) :
    draft.arena.LaysConds last.arena [check] := by
  obtain ⟨declared, start, found, ran⟩ := of_outcome_bind ran
  obtain ⟨values, middle, adapted, ran⟩ := of_outcome_bind ran
  have same : start.arena = draft.arena := by
    have still := (Still.lift (plan.requireRelation relation) draft).1
    exact congrArg (·.2.arena) found.symm |>.trans still
  exact lays_placeHolds (same ▸ lays_lowerValues args (of_outcome_adapt adapted)) ran

/-- The condition that decides a literal lies behind what was there before. -/
theorem exists_lays_of_ranDecision {literal : Literal} {found : Option (Placed Cond × Bool)}
    (ran : outcome (decisionCondition plan sites literal) draft = (.ok found, last)) :
    ∃ condition holds, found = some (condition, holds) ∧ draft.arena.LaysConds last.arena [condition] := by
  have checked {relation : Name} {args : List Argument} {holds : Bool}
      (ran : outcome (do return some (← atomCheck plan sites relation args, holds)) draft = (.ok found, last)) :
      ∃ condition holds, found = some (condition, holds) ∧ draft.arena.LaysConds last.arena [condition] := by
    obtain ⟨check, after, wrote, ran⟩ := of_outcome_bind ran
    cases ran
    exact ⟨check, holds, rfl, lays_ranAtomCheck wrote⟩
  have constrained (noAtom : literal.positiveAtom? = none)
      (ran : outcome
        (if (Literal.aggregates literal).isEmpty then do
          let condition ← ExceptT.adapt missingSlotInstead (lowerConstraint plan sites literal)
          return condition.map fun condition => (condition, true)
        else throw (.unboundAggregate literal.text)) draft = (.ok found, last)) :
      ∃ condition holds, found = some (condition, holds) ∧ draft.arena.LaysConds last.arena [condition] := by
    split at ran
    · obtain ⟨written, after, adapted, ran⟩ := of_outcome_bind ran
      have wrote := of_outcome_adapt adapted
      obtain ⟨condition, rfl⟩ := exists_of_ranConstraint noAtom wrote
      cases ran
      exact ⟨condition, true, rfl, lays_lowerConstraint wrote⟩
    · cases ran
  cases literal with
  | positive relation args => exact checked ran
  | negative relation args => exact checked ran
  | comparison | truth => exact constrained rfl ran

end Redirecting

/-- Redirect the condition that decides a literal. -/
def redirectFound (slots : Slots) : Option (Placed Cond × Bool) → Lower (Option (Placed Cond × Bool))
  | none => return none
  | some (condition, holds) => do return some (← slots.redirectCond condition, holds)

/-- The condition that decides a literal is written and then redirected where it is. -/
theorem plants_redirectedCondition (slots : Slots) (literal : Literal) :
    Plants 0 (decisionCondition plan slots.sites literal >>= redirectFound slots) := by
  apply (plants_decisionCondition slots.sites literal).rewrite
    (@writes_decisionCondition (fun _ => 0) plan slots literal).toRetains
  intro draft written found ran
  obtain ⟨condition, holds, rfl, lays⟩ := exists_lays_of_ranDecision ran
  obtain ⟨arena, redirected, keeps, reads⟩ := outcome_redirectCond_of_lays slots lays
  have sameShape := sameShape_redirectCond slots condition written
  rw [redirected] at sameShape
  have ran : outcome (redirectFound slots (some (condition, holds))) written =
      ((condition.tree.replace slots.redirect).map fun tree => some (⟨condition.id, tree⟩, holds),
        { written with arena := arena }) := by
    rw [redirectFound, outcome_bind, redirected]
    cases condition.tree.replace slots.redirect <;> rfl
  refine ⟨_, arena, ran, sameShape, keeps, fun wanted same => ?_⟩
  cases replaced : condition.tree.replace slots.redirect with
  | error error =>
      rw [replaced] at same
      cases same
  | ok tree =>
      rw [replaced] at same
      cases same
      refine ⟨rfl, fun root member => ?_⟩
      rw [roots_some, roots_pair, roots_bool, add_zero] at member
      exact Multiset.mem_singleton.1 member ▸ reads tree replaced

theorem plants_decision (clause : Clause) (slots : Slots) : Plants 0 (lowerDecision plan clause slots) := by
  rw [lowerDecision]
  refine Plants.feed (Plants.filterMapM _ fun literal => ?_) plants_sequence
  have branch : Plants 0 (decisionCondition plan slots.sites literal >>= redirectFound slots >>= fun found =>
      match found with
      | none => pure none
      | some (condition, holds) => do return some (← inArena (answerEither condition holds))) := by
    apply (plants_redirectedCondition slots literal).feed
    intro found
    cases found with
    | none => exact Plants.pure rfl
    | some entry =>
        obtain ⟨condition, holds⟩ := entry
        apply ((plants_answerEither condition holds).of_eq (by simp)).feed
        intro branch
        exact Plants.pure rfl
  rw [bind_assoc] at branch
  convert branch using 2
  funext found
  cases found with
  | none => rfl
  | some entry =>
      simp only [redirectFound, bind_assoc, pure_bind]
      rfl

instance : Rooted Explanation := ⟨fun explanation => roots explanation.derivation + roots explanation.decision⟩

theorem plants_explanation (clause : Clause) (id : Nat) : Plants 0 (lowerExplanation plan clause id) := by
  rw [lowerExplanation]
  apply Plants.after (Still.report _ _ _)
  intro _
  apply (plants_complete clause id _).fresh
  intro derivation
  apply (plants_decision clause _).fresh
  intro decision
  apply Plants.pure
  change roots decision + (roots derivation + 0) = roots derivation + roots decision
  rw [add_zero, add_comm]

/-- A subroutine may take the place of another one, whose body is then no root any more. -/
theorem roots_insert_le (name : String) (subroutine : Subroutine) (subroutines : Subroutines) :
    roots ((subroutines.insert name subroutine).map Prod.snd) ≤
      roots subroutine + roots (subroutines.map Prod.snd) := by
  induction subroutines with
  | nil => simp [Subroutines.insert]
  | cons entry rest ih =>
      rw [Subroutines.insert]
      split
      · simp
      · split
        · exact add_le_add_right (Multiset.le_add_left _ (roots entry.2)) (roots subroutine)
        · rw [List.map_cons, List.map_cons, roots_cons, roots_cons, add_left_comm]
          exact add_le_add_right ih (roots entry.2)

theorem plants_addSubroutine (name : String) (subroutine : Subroutine) :
    Plants (roots subroutine) (addSubroutine name subroutine) := by
  intro draft rest bears
  apply Arena.Bears.mono bears
  calc
    0 + rest + roots ((draft.subroutines.insert name subroutine).map Prod.snd)
      ≤ 0 + rest + (roots subroutine + roots (draft.subroutines.map Prod.snd)) :=
        add_le_add_right (roots_insert_le name subroutine draft.subroutines) _
    _ = roots subroutine + rest + roots (draft.subroutines.map Prod.snd) := by
        rw [zero_add, add_left_comm, add_assoc]

theorem plants_addExplanation (clause : Clause) (id : Nat) : Plants 0 (addExplanation plan clause id) := by
  rw [addExplanation]
  apply Plants.after (Still.lift _)
  intro number
  apply Plants.after (Still.report _ _ _)
  intro _
  apply (plants_explanation clause id).feed
  intro explanation
  change Plants (roots explanation.derivation + roots explanation.decision) _
  apply (plants_addSubroutine _ explanation.derivation).bind
  intro _
  exact (plants_addSubroutine _ explanation.decision).of_eq (by simp)

theorem plants_unit : Plants 0 (lowerUnit plan) := by
  rw [lowerUnit]
  cases plan.strategy with
  | seminaive => exact plants_evaluation
  | provenance =>
      apply plants_evaluation.fresh
      intro evaluation
      apply plants_infos.fresh
      intro infos
      apply (Plants.forM (explainedRules plan.program) fun entry => plants_addExplanation entry.1 entry.2).fresh
      intro _
      exact (plants_sequence [evaluation, infos]).of_eq (by simp [add_comm])

theorem still_planProgram (program : Program) (strategy : Strategy) (debugInfo : Bool) :
    Still (planProgram program strategy debugInfo) := by
  apply (Still.report _ _ _).bind
  intro _
  apply (Still.lift _).bind
  intro plan
  apply (Still.report _ _ _).bind
  intro _
  exact Still.pure plan

end DatalogRam.Lowering
