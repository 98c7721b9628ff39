import DatalogRam.Proofs.Evaluation.Infos
import DatalogRam.Proofs.Provenance.Answers

/-!
# Calling explanations

A program lowered for provenance has a subroutine for every explained rule. It is found by the label of the rule,
and it runs the query that explains the rule. Called with the values of a head and a level above those of some rows
that derive the head, it answers.
-/

namespace DatalogRam.Lowering

open Machine Ram

variable {plan : Plan} {clause : Clause} {id : Nat} {debugInfo : Bool} {compiled : Ram.Program}
variable {explanation : Explanation} {start after : Draft}

/-! ## The subroutine of a rule -/

theorem mem_explainedRules {program : Program} {entry : Clause × Nat} :
    entry ∈ explainedRules program ↔ program.clauses[entry.2]? = some entry.1 ∧ entry.1.isFact = false ∧
      isInfoName entry.1.head.relation = false := by
  simp only [explainedRules, Program.numberedClauses, List.mem_filter, List.mem_zipIdx_iff_getElem?,
    Bool.and_eq_true, Bool.not_eq_true']

/-- Info relations with different names tell the rules of a relation apart by their numbers. -/
theorem rule_eq_of_number {program : Program} (distinct : (infoTables program).Nodup) {entry other : Clause × Nat}
    (isRule : entry ∈ describedRules program) (isOther : other ∈ describedRules program)
    (relation : entry.1.head.relation = other.1.head.relation)
    (number : ruleNumber program entry = ruleNumber program other) : entry = other := by
  refine List.inj_on_of_nodup_map distinct isRule isOther ?_
  rw [relation, number]

/-- A program lowered for provenance has the subroutines that derive rows of explained rules. -/
theorem subroutine_of_lowered {program : Program} (tables : (tableNames program).Nodup)
    (infos : (infoTables program).Nodup) (declared : ∀ clause ∈ program.clauses, Clause.Declared program clause)
    (planned : Plan.of program .provenance debugInfo = .ok plan)
    (lowered : (lowerProgram program .provenance debugInfo).result = .ok compiled)
    (isRule : (clause, id) ∈ explainedRules program) :
    ∃ subroutine,
      compiled.subroutine? (explanationLabel clause (ruleNumber program (clause, id)) ++ "_subproof") =
        some subroutine ∧
      subroutine.parameters.length = (Slots.ofClause clause).size + 1 ∧
      explanationCode compiled.symbols.ordinal plan clause (Slots.ofClause clause) = some subroutine.body.tree := by
  obtain ⟨alsoPlan, start, evaluation, middle, infoFacts, later, last, alsoPlanned, _, isEvaluation, areInfos, added,
    symbols, subroutines, main⟩ := lowered_provenance lowered
  obtain rfl : plan = alsoPlan := by
    rw [planned] at alsoPlanned
    exact Except.ok.inj alsoPlanned
  obtain ⟨_, rfl, _⟩ := scheduled_of planned
  have described {entry : Clause × Nat} (member : entry ∈ explainedRules plan.program) :
      entry ∈ describedRules plan.program := by
    obtain ⟨atId, notFact, _⟩ := mem_explainedRules.1 member
    refine mem_describedRules.2 ⟨atId, ?_, notFact⟩
    exact (declared _ (List.mem_of_getElem? atId) _ entry.1.head_mem_atoms).1
  have numbered {entry : Clause × Nat} (member : entry ∈ explainedRules plan.program) :
      plan.clauseNumber entry.1 entry.2 = .ok (ruleNumber plan.program entry) := by
    obtain ⟨_, isDeclared, notFact⟩ := mem_describedRules.1 (described member)
    exact clauseNumber_of_rule isDeclared notFact
  have only : ∀ entry ∈ explainedRules plan.program, ∀ count, plan.clauseNumber entry.1 entry.2 = .ok count →
      explanationLabel entry.1 count = explanationLabel clause (ruleNumber plan.program (clause, id)) →
      entry = (clause, id) := by
    intro entry member count isCount label
    obtain ⟨text, number⟩ := explanationLabel_inj label
    rw [numbered member] at isCount
    cases isCount
    have isDeclared := (mem_describedRules.1 (described member)).2.1
    have alsoDeclared := (mem_describedRules.1 (described isRule)).2.1
    have same := (@table_injective plan.program tables .full .full _ _ isDeclared alsoDeclared text).2
    exact rule_eq_of_number infos (described member) (described isRule) same number
  obtain ⟨explanation, before, after, isExplanation, grows, found⟩ :=
    hasDerivation_of_addExplanations (numbered isRule) only added (.inl isRule)
  have agreesLast : last.symbols.Agrees compiled.symbols.ordinal := symbols ▸ Symbols.agrees_ordinal _
  have notFact := (mem_explainedRules.1 isRule).2.1
  obtain ⟨parameters, derivation, _⟩ := codes_of_explanation isExplanation (agreesLast.of_extends grows)
  refine ⟨explanation.derivation, ?_, ?_, derivation notFact⟩
  · rw [Ram.Program.subroutine?, subroutines]
    exact found
  · rw [parameters, List.length_append, List.length_singleton, Slots.size]

/-- A call answers if the body of the subroutine does. -/
theorem returns_callSubroutine {name : String} {args answer : Row} {subroutine : Subroutine} {store : Store}
    (found : compiled.subroutine? name = some subroutine) (count : args.length = subroutine.parameters.length)
    (answers : ∀ rounds state, state.store = store → ∃ bindings,
      Returns (runStmt rounds args subroutine.body.tree) state (.answer answer) { state with bindings := bindings })
    (rounds : Nat) {state : State} (isStore : state.store = store) :
    ∃ bindings, Returns (callSubroutine compiled rounds name args) state (some answer)
      { state with bindings := bindings } := by
  obtain ⟨bindings, ran⟩ := answers rounds { state with bindings := [] } isStore
  exact ⟨bindings, ran.callSubroutine found count⟩

end DatalogRam.Lowering
