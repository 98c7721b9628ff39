import DatalogRam.Proofs.Lowering.DeclaredNames
import DatalogRam.Proofs.Lowering.Succeeding

/-!
# What provenance refuses

Under provenance a program is evaluated as it is without, its rules are described, and all of them but those that fill
info relations are explained. If all heads are declared and no attribute is typed by an equivalence relation, every
clause is evaluated. Then nothing can go wrong that does not go wrong without provenance, except that a record or a
counter has no description and that an aggregate or a level has no place in an explanation.
-/

namespace DatalogRam.Lowering

open Ram Analysis

variable {program : Program} {strategy : Strategy} {debugInfo : Bool} {plan : Plan}

/-- All columns have kinds, and all clauses that the strata evaluate can be lowered. -/
def Plan.Evaluable (plan : Plan) : Prop :=
  plan.program.relations.all (hasColumns plan) = true ∧
    ∀ stratum ∈ plan.strata, ∀ query ∈ stratumQueries plan stratum, Clause.Lowerable plan.program query.clause

/-- A program that can be planned is lowered exactly if its unit is. -/
theorem isOk_iff_of_planned (planned : Plan.of program strategy debugInfo = .ok plan) {holds : Prop}
    (succeeds : Succeeds (lowerUnit plan) holds) :
    (lowerProgram program strategy debugInfo).result.isOk ↔ holds := by
  obtain ⟨after, isPlan⟩ : ∃ after, outcome (planProgram program strategy debugInfo) .empty = (.ok plan, after) := by
    rw [planProgram, planned]
    exact ⟨_, rfl⟩
  rw [lowerProgram_result, lowering, outcome_bind, isPlan, ← succeeds after]
  cases (outcome (lowerUnit plan) after).1 <;> exact Iff.rfl

/-- A program that cannot be planned is not lowered. -/
theorem isOk_iff_of_unplanned {error : LoweringError} (planned : Plan.of program strategy debugInfo = .error error) :
    (lowerProgram program strategy debugInfo).result.isOk = false := by
  rw [lowerProgram_result, lowering, outcome_bind, planProgram, planned]
  rfl

theorem succeeds_seminaive (isStrategy : plan.strategy = .seminaive) : Succeeds (lowerUnit plan) plan.Evaluable := by
  rw [lowerUnit, isStrategy]
  exact succeeds_evaluation

/-- If an evaluation comes to all explained rules, provenance demands of them to be described and traced. -/
theorem succeeds_provenance (isStrategy : plan.strategy = .provenance)
    (visits : plan.Evaluable → ∀ entry ∈ explainedRules plan.program, Clause.Lowerable plan.program entry.1) :
    Succeeds (lowerUnit plan)
      (plan.Evaluable ∧ (∀ entry ∈ describedRules plan.program, entry.1.Describable) ∧
        ∀ entry ∈ explainedRules plan.program, Clause.Traceable entry.1) := by
  rw [lowerUnit, isStrategy]
  refine succeeds_evaluation.bind fun evaluable evaluation => ?_
  refine succeeds_infos.bind fun _ infos => ?_
  intro draft
  refine ((Succeeds.forM (explainedRules plan.program) fun entry member =>
    succeeds_addExplanation (visits evaluable entry member) (mem_explainedRules.1 member).2.1).bind fun _ _ =>
      Succeeds.inArena _) draft |>.trans ?_
  exact and_iff_left trivial

/-- Provenance refuses, beyond what is refused anyway, exactly the programs with a rule that cannot be described, or
that fills no info relation and cannot be traced. -/
theorem provenance_isOk_iff (declared : ∀ clause ∈ program.clauses, clause.head.relation ∈ program.relationNames)
    (noEquivalence : program.NoEquivalence) (debugInfo : Bool) :
    (lowerProgram program .provenance debugInfo).result.isOk ↔
      (lowerProgram program .seminaive debugInfo).result.isOk ∧
        ∀ clause ∈ program.clauses, clause.isFact = false →
          clause.Describable ∧ (isInfoName clause.head.relation = false → Clause.Traceable clause) := by
  cases kinds : resolveTypes program.types with
  | error error =>
      have unplanned (strategy : Strategy) : Plan.of program strategy debugInfo = .error (.type error) := by
        rw [Plan.of, kinds]
      rw [isOk_iff_of_unplanned (unplanned .provenance), isOk_iff_of_unplanned (unplanned .seminaive)]
      exact iff_of_false Bool.false_ne_true fun both => Bool.false_ne_true both.1
  | ok kinds' =>
      let strata := Analysis.strata program
      let planFor (strategy : Strategy) : Plan :=
        ⟨program, strategy, debugInfo, kinds', strata, Analysis.schedule program strata⟩
      have planned (strategy : Strategy) : Plan.of program strategy debugInfo = .ok (planFor strategy) := by
        rw [Plan.of, kinds]
      have visits (evaluable : (planFor .provenance).Evaluable) (clause : Clause) (isClause : clause ∈ program.clauses) :
          Clause.Lowerable program clause := by
        have head := declared clause isClause
        obtain ⟨stratum, isStratum, query, isQuery, rfl⟩ := exists_query (scheduled_of (planned .provenance)).1 isClause
          head (readsBack_of_noEquivalence noEquivalence isClause head)
        exact evaluable.2 stratum isStratum query isQuery
      have explained {entry : Clause × Nat} (member : entry ∈ explainedRules program) : entry.1 ∈ program.clauses :=
        List.mem_of_getElem? (mem_explainedRules.1 member).1
      rw [isOk_iff_of_planned (planned .seminaive) (succeeds_seminaive rfl),
        isOk_iff_of_planned (planned .provenance) (succeeds_provenance rfl fun evaluable entry member =>
          visits evaluable entry.1 (explained member))]
      refine and_congr_right fun _ => ⟨fun both clause isClause isRule => ?_, fun demands => ⟨?_, ?_⟩⟩
      · obtain ⟨id, atId⟩ := List.getElem?_of_mem isClause
        refine ⟨both.1 (clause, id) (mem_describedRules.2 ⟨atId, declared clause isClause, isRule⟩), fun notInfo => ?_⟩
        exact both.2 (clause, id) (mem_explainedRules.2 ⟨atId, isRule, notInfo⟩)
      · intro entry member
        obtain ⟨atId, _, isRule⟩ := mem_describedRules.1 member
        exact (demands entry.1 (List.mem_of_getElem? atId) isRule).1
      · intro entry member
        obtain ⟨atId, isRule, notInfo⟩ := mem_explainedRules.1 member
        exact (demands entry.1 (List.mem_of_getElem? atId) isRule).2 notInfo

/-- The aggregate in `parity` is evaluated, but the rule with it cannot be explained. -/
theorem provenance_isOk_iff_parity :
    (∀ clause ∈ parity.clauses, clause.head.relation ∈ parity.relationNames) ∧ parity.NoEquivalence ∧
      (lowerProgram parity .seminaive true).result.isOk ∧ ¬(lowerProgram parity .provenance true).result.isOk := by
  have declared : ∀ clause ∈ parity.clauses, clause.head.relation ∈ parity.relationNames := by decide
  have noEquivalence : parity.NoEquivalence := by
    unfold Program.NoEquivalence
    decide
  refine ⟨declared, noEquivalence, by decide +kernel, fun isOk => ?_⟩
  have demands := ((provenance_isOk_iff declared noEquivalence true).1 isOk).2
  have untraceable : ∃ clause ∈ parity.clauses, clause.isFact = false ∧ isInfoName clause.head.relation = false ∧
      ∃ literal ∈ clause.body, Literal.aggregates literal ≠ [] := by decide
  obtain ⟨clause, isClause, isRule, notInfo, literal, isLiteral, some⟩ := untraceable
  exact some (((demands clause isClause isRule).2 notInfo).body literal isLiteral)

end DatalogRam.Lowering
