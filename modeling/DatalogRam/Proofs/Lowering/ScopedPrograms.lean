import DatalogRam.Proofs.Analysis.Dependencies
import DatalogRam.Proofs.Lowering.Programs
import DatalogRam.Proofs.Lowering.RedirectedReads
import DatalogRam.Proofs.Lowering.Scoping

/-!
# Lowered programs are scoped

The main statement of a program and its subroutines are scoped if the clauses of the program bind first what they
read early. The code of a subroutine has reads of rows only in the middle of the query that it shares with the rule:
what is written over slots is redirected, which leaves no read of a row.
-/

namespace DatalogRam.Lowering

open Ram Analysis

/-! ## Derivations -/

variable {ordinal : String → Int64} {plan : Plan} {clause : Clause} {id : Nat}

theorem below_of_tuples_eq_nil {expr : Expr} (none : expr.tuples = []) (limit : Nat) : expr.Below limit := by
  intro tuple member
  rw [none] at member
  cases member

/-- What a condition on the head compares is read in the middle of the query, or no row at all. -/
theorem below_of_matchHeadCode {slots : Slots} {arg : Argument} {condition : Cond}
    (code : matchHeadCode ordinal (clauseFrame clause) slots arg = some (some condition)) :
    condition.Below (rowCount clause) := by
  obtain ⟨wanted, value, isWanted, isValue, rfl⟩ := matchHeadCode_eq_some code
  exact .compare (below_of_valueCode arg (bound_clauseFrame _ _) isValue)
    (below_of_tuples_eq_nil (tuples_of_wantedCode isWanted) _)

theorem below_levelConditionCodes (atoms : List Atom) (slots : Slots) :
    ∀ condition ∈ levelConditionCodes plan atoms slots, condition.Below atoms.length := by
  intro condition member
  unfold levelConditionCodes at member
  split at member
  · cases member
  · obtain ⟨entry, isEntry, rfl⟩ := List.mem_map.1 member
    exact .compare (.element (List.snd_lt_of_mem_zipIdx isEntry) _) fun _ reads => absurd reads List.not_mem_nil

theorem below_reportedCodes (atoms : List Atom) :
    ∀ value ∈ (reportedCodes plan atoms).flatten, value.Below atoms.length := by
  intro value member
  obtain ⟨_, isRow, inRow⟩ := List.mem_flatten.1 member
  obtain ⟨entry, isEntry, rfl⟩ := List.mem_map.1 isRow
  obtain ⟨column, _, rfl⟩ := List.mem_map.1 inRow
  exact .element (List.snd_lt_of_mem_zipIdx isEntry) column

theorem below_of_answerCode {slots : Slots} {operation : Op}
    (code : answerCode ordinal plan clause (clauseFrame clause) slots = some operation) :
    operation.Below (rowCount clause) := by
  have fewer : clause.positiveAtoms.length ≤ rowCount clause := Nat.le_add_right _ _
  obtain ⟨negated, conditions, areNegated, areConditions, rfl⟩ := answerCode_eq_some code
  apply below_guardedBy
  · intro condition member
    rcases List.mem_append.1 member with isHead | isLevel
    · obtain ⟨arg, _, isCode⟩ := mem_of_filterMapM areConditions isHead
      exact below_of_matchHeadCode isCode
    · exact fun expr isExpr => (below_levelConditionCodes _ slots condition isLevel expr isExpr).mono fewer
  · apply Expr.below_of_all
    intro value member
    rcases List.mem_append.1 member with isReported | isNegated
    · exact (below_reportedCodes _ value isReported).mono fewer
    · obtain ⟨values, areValues, inValues⟩ := List.mem_flatten.1 isNegated
      obtain ⟨atom, _, isCode⟩ := mem_of_mapM areNegated areValues
      exact below_of_valueCodes atom.args (bound_clauseFrame _ _) isCode value inValues

/-- The query that derives rows of a rule is scoped. -/
theorem scoped_of_explanationCode (bindsFirst : clause.BindsFirst) {slots : Slots} {statement : Stmt}
    (code : explanationCode ordinal plan clause slots = some statement) : statement.Scoped := by
  obtain ⟨_, _, code⟩ := Option.bind_eq_some_iff.1 code
  obtain ⟨frame, inner, constrained, aggregated, operation, isFrame, isInner, isConstrained, isAggregated, isScanned,
    rfl⟩ := ruleCode_eq_some code
  obtain ⟨rfl, _⟩ := frameOf_eq_some isFrame
  have constrainedBelow := below_of_constrainedCode (below_of_answerCode isInner) isConstrained
  have aggregatedBelow := below_of_aggregatedCode bindsFirst constrainedBelow isAggregated
  exact (below_of_scannedCode bindsFirst aggregatedBelow isScanned).isScoped

/-! ## Decisions -/

/-- The branches that decide a literal read no rows. -/
theorem scoped_of_decisionCode {slots : Slots} {statement : Stmt}
    (code : decisionCode ordinal plan clause slots = some statement) : statement.Scoped := by
  obtain ⟨branches, rfl, each⟩ := decisionCode_eq_some code
  apply Stmt.Scoped.sequence
  intro branch member
  obtain ⟨_, _, condition, holds, redirected, _, replaced, rfl⟩ := each branch member
  have noRow : Expr.tuplesOfAll redirected.exprs = [] := Cond.tuples_replace (takesReads_redirect slots) replaced
  simp [Stmt.Scoped, eitherCode, Stmt.free, Stmt.freeOfAll, Op.free, Cond.tuples, Cond.exprs, Expr.tuplesOfAll,
    Expr.tuples, noRow]

/-! ## Programs -/

theorem scoped_of_infosCode {ordinal : String → Int64} {statement : Stmt}
    (code : infosCode ordinal plan = some statement) :
    statement.Scoped := by
  obtain ⟨queries, areQueries, rfl⟩ := Option.map_eq_some_iff.1 code
  refine .sequence fun query member => ?_
  obtain ⟨entry, _, isQuery⟩ := mem_of_mapM areQueries member
  obtain ⟨number, _, isQuery⟩ := Option.bind_eq_some_iff.1 isQuery
  obtain ⟨description, _, same⟩ := Option.bind_eq_some_iff.1 isQuery
  cases same
  refine Op.Below.isScoped (Expr.below_of_all fun value isValue => ?_)
  obtain ⟨word, _, rfl⟩ := List.mem_map.1 isValue
  exact fun _ reads => absurd reads List.not_mem_nil

variable {program : Program} {strategy : Strategy} {debugInfo : Bool} {compiled : Ram.Program}

/-- A program whose clauses bind first what they read early has scoped code only, under either strategy. -/
theorem lowered_scoped (bindFirst : ∀ clause ∈ program.clauses, clause.BindsFirst)
    (lowered : (lowerProgram program strategy debugInfo).result = .ok compiled) :
    compiled.main.tree.Scoped ∧
      ∀ name subroutine, compiled.subroutine? name = some subroutine → subroutine.body.tree.Scoped := by
  refine ⟨?_, fun name subroutine found => ?_⟩
  · cases strategy with
    | seminaive =>
        obtain ⟨plan, planned, code⟩ := evaluationCode_of_lowered lowered (Symbols.agrees_ordinal _)
        obtain ⟨_, rfl, _⟩ := scheduled_of planned
        exact scoped_of_evaluationCode bindFirst code
    | provenance =>
        obtain ⟨plan, evaluation, infos, planned, isEvaluation, areInfos, main⟩ := codes_of_lowered lowered
        obtain ⟨_, rfl, _⟩ := scheduled_of planned
        rw [main]
        exact .sequence (List.forall_mem_cons.2 ⟨scoped_of_evaluationCode bindFirst isEvaluation,
          List.forall_mem_singleton.2 (scoped_of_infosCode areInfos)⟩)
  · obtain ⟨plan, ordinal, clause, _, _, isClause, _, code | code⟩ := subroutines_of_lowered lowered found
    · exact scoped_of_explanationCode (bindFirst clause isClause) code
    · exact scoped_of_decisionCode code

/-- Clauses with an aggregate under semi-naive evaluation, and with explanations under provenance. -/
theorem lowered_scoped_parity :
    (∀ clause ∈ parity.clauses, clause.BindsFirst) ∧
      (∃ compiled, (lowerProgram parity .seminaive true).result = .ok compiled ∧ compiled.main.tree.Scoped) ∧
      ∃ compiled, (lowerProgram { parity with clauses := parity.clauses.take 2 } .provenance false).result =
          .ok compiled ∧ compiled.main.tree.Scoped ∧ compiled.subroutines.length = 4 ∧
        ∀ name subroutine, compiled.subroutine? name = some subroutine → subroutine.body.tree.Scoped := by
  have bindFirst : ∀ clause ∈ parity.clauses, clause.BindsFirst := by decide +kernel
  have fewerBindFirst : ∀ clause ∈ parity.clauses.take 2, clause.BindsFirst :=
    fun clause member => bindFirst clause (List.mem_of_mem_take member)
  obtain ⟨compiled, lowered⟩ := exists_result (show (lowerProgram parity .seminaive true).result.isOk by
    decide +kernel)
  have count : ((lowerProgram { parity with clauses := parity.clauses.take 2 } .provenance false).result.toOption.map
      fun compiled => compiled.subroutines.length) = some 4 := by
    decide +kernel
  refine ⟨bindFirst, ⟨compiled, lowered, (lowered_scoped bindFirst lowered).1⟩, ?_⟩
  cases recorded : (lowerProgram { parity with clauses := parity.clauses.take 2 } .provenance false).result with
  | error failure =>
      rw [recorded] at count
      cases count
  | ok other =>
      rw [recorded] at count
      obtain ⟨main, subroutines⟩ := lowered_scoped fewerBindFirst recorded
      exact ⟨other, rfl, main, Option.some.inj count, subroutines⟩

/-- Items that come before a given number. -/
def predecessor : Program where
  types := []
  relations :=
    [⟨⟨["next"]⟩, [⟨"a", ⟨["number"]⟩⟩], .standard, []⟩, ⟨⟨["item"]⟩, [⟨"a", ⟨["number"]⟩⟩], .standard, []⟩,
      ⟨⟨["found"]⟩, [⟨"a", ⟨["number"]⟩⟩], .standard, [.output]⟩]
  clauses :=
    [⟨⟨⟨["next"]⟩, [.constant (.number 2)]⟩, []⟩, ⟨⟨⟨["item"]⟩, [.constant (.number 1)]⟩, []⟩,
      ⟨⟨⟨["found"]⟩, [.var "x"]⟩,
        [.positive ⟨["next"]⟩ [.operator .add [.var "x", .constant (.number 1)]], .positive ⟨["item"]⟩ [.var "x"]]⟩]

/-- An argument that computes with a variable of a later atom is compared before that atom's row is bound. -/
theorem predecessor_not_scoped :
    ((lowerProgram predecessor .seminaive false).result.toOption.map fun compiled => compiled.main.tree.free) =
      some [1] := by
  decide +kernel

end DatalogRam.Lowering
