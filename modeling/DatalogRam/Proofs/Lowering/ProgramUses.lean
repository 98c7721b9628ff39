import DatalogRam.Proofs.Lowering.DeclaredTables
import DatalogRam.Proofs.Lowering.ExplanationUses

/-!
# What programs use

The main statement of a program has three kinds of uses: those of the queries of its clauses, the tests at the ends of
rounds, and the insertions that describe rules. A subroutine has the uses of a rule that may answer. What is known of
the uses of a clause is so known of whole programs, whatever the program is.
-/

namespace DatalogRam.Lowering

open Ram Analysis

variable {ordinal : String → Int64} {plan : Plan} {stratum : Stratum}

/-- A use in the main statement of a program. -/
inductive MainUse (plan : Plan) : Scans → Use → Prop
  /-- It is in a query of a clause that is run for a stratum, -/
  | query {stratum : Stratum} {query : Query} {scans : Scans} {use : Use} (isStratum : stratum ∈ plan.strata)
      (isRun : query.RunBy plan stratum) (within : ScansAtoms plan query.clause query.version scans)
      (uses : ClauseUse plan query.clause query.version false query.clause.positiveAtoms use) : MainUse plan scans use
  /-- asks whether a round has found rows, -/
  | round {stratum : Stratum} {name : Name} (isStratum : stratum ∈ plan.strata) (loops : stratum.recursive = true)
      (member : name ∈ stratum.relations) : MainUse plan [] (.emptiness (freshName name))
  /-- or describes a rule. -/
  | rule {table : Table} {row : List Int64} (isTable : table ∈ ruleTables plan) (count : row.length = table.arity) :
      MainUse plan [] (.insert table.name (row.map Expr.signed))

/-- Facts have no version that reads the previous round. -/
theorem Query.RunBy.versioned {query : Query} (isRun : query.RunBy plan stratum) (isFact : query.clause.isFact = true) :
    query.version.isIncremental = false := by
  rcases isRun.version with isComplete | ⟨_, position, isPosition, _⟩
  · rw [isComplete]
    rfl
  · obtain ⟨atom, atPosition, _⟩ := mem_positionsWithin.1 isPosition
    rw [Clause.positiveAtoms, List.isEmpty_iff.1 isFact] at atPosition
    cases atPosition

theorem composes_uses (isStratum : stratum ∈ plan.strata) :
    Composes (fun statement => statement.Uses (MainUse plan)) stratum := by
  have none (statement : Stmt) (noUses : statement.uses = []) : statement.Uses (MainUse plan) := by
    intro entry member
    rw [noUses] at member
    cases member
  refine .of_management (fun _ each => .sequence each) (fun _ uses => uses) (fun loops entry member => ?_)
    (fun _ _ => none _ rfl) (fun _ _ => none _ rfl) fun _ _ => ⟨none _ rfl, none _ rfl⟩
  obtain ⟨use, isUse, rfl⟩ := List.mem_map.1 member
  have tests : (allOf (stratum.relations.map fun name => .isEmpty (freshName name))).Uses (MainUse plan []) := by
    apply Cond.Uses.allOf
    intro condition isCondition
    obtain ⟨name, isName, rfl⟩ := List.mem_map.1 isCondition
    exact List.forall_mem_singleton.2 (.round isStratum loops isName)
  exact tests use isUse

theorem uses_of_evaluationCode {statement : Stmt} (code : evaluationCode ordinal plan = some statement) :
    statement.Uses (MainUse plan) := by
  refine of_evaluationCode (fun _ each => .sequence each) (fun _ _ member => absurd member List.not_mem_nil)
    (fun stratum isStratum evaluation isEvaluation => ?_) code
  refine of_stratumCode (composes_uses isStratum) (fun query isRun statement isCode => ?_) isEvaluation
  exact (uses_of_clauseCode isRun.versioned isCode).mono fun scans use uses => .query isStratum isRun uses.1 uses.2

theorem uses_of_infosCode (isProvenance : plan.strategy = .provenance) {statement : Stmt}
    (code : infosCode ordinal plan = some statement) : statement.Uses (MainUse plan) := by
  obtain ⟨queries, areQueries, rfl⟩ := Option.map_eq_some_iff.1 code
  apply Stmt.Uses.sequence
  intro query member
  obtain ⟨rule, isRule, isQuery⟩ := mem_of_mapM areQueries member
  obtain ⟨number, isNumber, isQuery⟩ := Option.bind_eq_some_iff.1 isQuery
  obtain ⟨description, isDescription, same⟩ := Option.bind_eq_some_iff.1 isQuery
  cases same
  have isTable := ruleTable_eq_ok.2
    ⟨number, description, eq_ok_of_toOption isNumber, eq_ok_of_toOption isDescription, rfl⟩
  have count : (infoRow ordinal plan number description).length =
      (infoTable plan (infoName rule.1.head.relation number) description.literals.length).arity := by
    rw [(of_infoTable _ _).1]
    simp [infoRow]
    omega
  refine List.forall_mem_singleton.2 (.rule ?_ count)
  rw [ruleTables, isProvenance]
  exact List.mem_filterMap.2 ⟨rule, isRule, by rw [isTable]; rfl⟩

variable {program : Program} {strategy : Strategy} {debugInfo : Bool} {compiled : Ram.Program}

theorem uses_of_main (lowered : (lowerProgram program strategy debugInfo).result = .ok compiled) :
    ∃ plan, Plan.of program strategy debugInfo = .ok plan ∧ compiled.main.tree.Uses (MainUse plan) := by
  cases strategy with
  | seminaive =>
      obtain ⟨plan, planned, code⟩ := evaluationCode_of_lowered lowered (Symbols.agrees_ordinal _)
      exact ⟨plan, planned, uses_of_evaluationCode code⟩
  | provenance =>
      obtain ⟨plan, evaluation, infos, planned, isEvaluation, areInfos, main⟩ := codes_of_lowered lowered
      refine ⟨plan, planned, ?_⟩
      rw [main]
      exact .sequence (List.forall_mem_cons.2 ⟨uses_of_evaluationCode isEvaluation,
        List.forall_mem_singleton.2 (uses_of_infosCode (scheduled_of planned).2.2 areInfos)⟩)

/-- A use in a subroutine is one of a rule, and it may answer. -/
theorem uses_of_subroutine (lowered : (lowerProgram program strategy debugInfo).result = .ok compiled) {name : String}
    {subroutine : Subroutine} (found : compiled.subroutine? name = some subroutine) :
    ∃ plan, Plan.of program strategy debugInfo = .ok plan ∧ ∃ clause ∈ program.clauses,
      subroutine.body.tree.Uses fun scans use =>
        ScansAtoms plan clause .complete scans ∧ ClauseUse plan clause .complete true clause.positiveAtoms use := by
  obtain ⟨plan, ordinal, clause, planned, _, isClause, _, code | code⟩ := subroutines_of_lowered lowered found
  · exact ⟨plan, planned, clause, isClause, uses_of_explanationCode code⟩
  · exact ⟨plan, planned, clause, isClause, uses_of_decisionCode code⟩

end DatalogRam.Lowering
