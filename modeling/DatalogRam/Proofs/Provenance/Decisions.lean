import DatalogRam.Proofs.Lowering.DecisionWriting
import DatalogRam.Proofs.Lowering.Optional
import DatalogRam.Proofs.Query.Slots

/-!
# Decisions

A rule without aggregates and counters has a subroutine that decides its literals. Each literal has a branch that
answers in either case, so a call ends in the first branch: it decides the first atom of the body, or the first
constraint if there is no atom, and whatever the other literals say does not matter.
-/

namespace DatalogRam

open Machine

/-- The literal that is decided: the first one with an atom, or else the first constraint. -/
def Clause.decided? (clause : Clause) : Option Literal :=
  (clause.body.find? fun literal => !literal.isConstraint).or (clause.body.find? Literal.isConstraint)

theorem Clause.decided?_eq_head? (clause : Clause) : clause.decided? = clause.constraintsLast.head? := by
  rw [decided?, constraintsLast, constraints, List.head?_append, List.head?_filter, List.head?_filter]

theorem Clause.mem_constraintsLast {clause : Clause} {literal : Literal} :
    literal ∈ clause.constraintsLast ↔ literal ∈ clause.body := by
  simp only [constraintsLast, constraints, List.mem_append, List.mem_filter, Bool.not_eq_true']
  cases literal.isConstraint <;> simp

/-- A literal holds for given words of its variables: a stored row of the right length matches a positive atom, none
matches a negated atom, or a constraint is true. Variables for levels and bookkeeping columns match anything. -/
def Literal.HoldsIn (ordinal : String → Int64) (auxiliary : Nat) (valuation : Valuation) (store : Store) :
    Literal → Prop
  | .positive relation args =>
      ∃ row ∈ store.rows relation.text, row.length = args.length + auxiliary ∧
        Argument.Match ordinal valuation (args.map Argument.erased) (row.take args.length)
  | .negative relation args =>
      ¬∃ row ∈ store.rows relation.text, row.length = args.length + auxiliary ∧
        Argument.Match ordinal valuation (args.map Argument.erased) (row.take args.length)
  | .comparison op left right =>
      op.holds (left.value ordinal valuation) (right.value ordinal valuation) = true
  | .truth value => value = true

/-- A rule whose literals can be decided one by one: its atoms are about declared relations and ask for variables,
wildcards and terms, and its comparisons are about terms. Variables for levels stand in atoms only. -/
structure Clause.Askable (program : Program) (clause : Clause) : Prop where
  rule : clause.isFact = false
  declared : ∀ literal ∈ clause.body, ∀ atom ∈ literal.atom?, program.declares atom.relation = true
  atoms : ∀ literal ∈ clause.body, ∀ atom ∈ literal.atom?, ∀ arg ∈ atom.args, arg.asks = true
  compared : ∀ op left right, .comparison op left right ∈ clause.body →
    left.isLevelFree = true ∧ right.isLevelFree = true

namespace Lowering

open Ram

variable {ordinal : String → Int64} {plan : Plan} {clause : Clause} {args : Row} {state : State}

/-- A filter answers where its condition holds. -/
theorem returns_answerIf {condition : Cond} {fact : Prop} {word : Int64} (decides : Decides args state condition fact)
    (holds : fact) :
    Returns (runOp args (.filter condition (.answer [.signed word]))) state (.answer [word]) state := by
  refine returns_filter decides (fun _ => ?_) fun fails => absurd holds fails
  rw [runOp]
  rfl

/-- Answering in either case of a condition tells whether it is as it should be. -/
theorem returns_either {condition : Cond} {fact : Prop} (decides : Decides args state condition fact) (holds : Bool)
    (rounds : Nat) :
    ∃ answer : Bool, (answer = true ↔ (fact ↔ holds = true)) ∧
      Returns (runStmt rounds args (eitherCode condition holds)) state (.answer [truthWord answer]) state := by
  by_cases isTrue : fact
  · refine ⟨holds, by simp [isTrue], ?_⟩
    rw [eitherCode, runStmt, runStmts, runStmt]
    exact (returns_answerIf decides isTrue).bind (Returns.pure _ _)
  · refine ⟨!holds, by simp [isTrue], ?_⟩
    have skipped : Returns (runStmt rounds args (.query (.filter condition (.answer [.signed (truthWord holds)]))))
        state .proceed state := by
      rw [runStmt]
      exact returns_filter decides (fun fact => absurd fact isTrue) fun _ => ⟨rfl, rfl⟩
    rw [eitherCode, runStmt]
    apply skipped.runStmts_cons
    rw [runStmts, runStmt]
    exact (returns_answerIf decides.not isTrue).bind (Returns.pure _ _)

/-! ## Branches -/

/-- A literal has a branch that decides it for the arguments of the slots. -/
structure Branches (ordinal : String → Int64) (plan : Plan) (clause : Clause) (literal : Literal) (branch : Stmt) :
    Prop where
  code : branchCode ordinal plan (Slots.ofClause clause) literal = some (some branch)
  answers : ∀ (rounds : Nat) (args : Row) (state : State), (Slots.ofClause clause).size ≤ args.length →
    ∃ answer : Bool,
      (answer = true ↔ literal.HoldsIn ordinal plan.auxiliary (argumentOf (Slots.ofClause clause) args) state.store) ∧
        Returns (runStmt rounds args branch) state (.answer [truthWord answer]) state

/-- A literal has a branch if its condition has code that is redirected and then decides the literal. -/
theorem exists_branch_of_decides {literal : Literal} {condition redirected : Cond} {holds : Bool}
    (code : decisionConditionCode ordinal plan (Slots.ofClause clause) literal = some (some (condition, holds)))
    (replaced : condition.replace (Slots.ofClause clause).redirect = .ok redirected)
    (decides : ∀ (args : Row) (state : State), (Slots.ofClause clause).size ≤ args.length →
      ∃ fact, Decides args state redirected fact ∧ ((fact ↔ holds = true) ↔
        literal.HoldsIn ordinal plan.auxiliary (argumentOf (Slots.ofClause clause) args) state.store)) :
    ∃ branch, Branches ordinal plan clause literal branch := by
  refine ⟨eitherCode redirected holds, ?_, fun rounds args state long => ?_⟩
  · rw [branchCode, code]
    change (condition.replace (Slots.ofClause clause).redirect).toOption.bind _ = _
    rw [replaced]
    rfl
  · obtain ⟨fact, isDecided, means⟩ := decides args state long
    obtain ⟨answer, isAnswer, returns⟩ := returns_either isDecided holds rounds
    exact ⟨answer, isAnswer.trans means, returns⟩

/-- The check for an atom is redirected to one that decides whether a stored row matches. -/
theorem exists_atomCheck {relation : Name} {terms : List Argument} (declared : plan.program.declares relation = true)
    (within : ∀ name ∈ Argument.variablesOfAll terms, name ∈ clauseVariables clause)
    (ask : ∀ arg ∈ terms, arg.asks = true) :
    ∃ check redirected, atomCheckCode ordinal plan (Slots.ofClause clause) relation terms = some check ∧
      check.replace (Slots.ofClause clause).redirect = .ok redirected ∧
      ∀ (args : Row) (state : State), (Slots.ofClause clause).size ≤ args.length →
        Decides args state redirected (∃ row ∈ state.store.rows relation.text,
          row.length = terms.length + plan.auxiliary ∧
            Argument.Match ordinal (argumentOf (Slots.ofClause clause) args) (terms.map Argument.erased)
              (row.take terms.length)) := by
  obtain ⟨found, isFound⟩ := Option.isSome_iff_exists.1 declared
  obtain ⟨exprs, redirected, codes, replaced, returns⟩ := @exists_pattern ordinal clause terms plan.auxiliary within ask
  refine ⟨existence relation.text exprs plan.auxiliary, .holds relation.text redirected, ?_, ?_,
    fun args state long => ?_⟩
  · rw [atomCheckCode, isFound, codes]
    rfl
  · rw [existence, Cond.replace, replaced]
    rfl
  · have decides := @decides_holds ordinal _ state args relation.text _ _ _ (returns args state long)
    rw [List.length_map] at decides
    exact decides

theorem exists_comparisonBranch {op : Comparison} {left right : Argument}
    (within : ∀ name ∈ (Literal.comparison op left right).variables, name ∈ clauseVariables clause)
    (isLeft : left.isLevelFree = true) (isRight : right.isLevelFree = true) :
    ∃ branch, Branches ordinal plan clause (.comparison op left right) branch := by
  obtain ⟨leftTerm, leftSlots⟩ := @slotted_of_isLevelFree clause left
    (fun name isVariable => within name (List.mem_append_left _ isVariable)) isLeft
  obtain ⟨rightTerm, rightSlots⟩ := @slotted_of_isLevelFree clause right
    (fun name isVariable => within name (List.mem_append_right _ isVariable)) isRight
  obtain ⟨first, first', isFirst⟩ := @exists_redirects ordinal _ left leftTerm leftSlots
  obtain ⟨second, second', isSecond⟩ := @exists_redirects ordinal _ right rightTerm rightSlots
  have code : decisionConditionCode ordinal plan (Slots.ofClause clause) (.comparison op left right) =
      some (some (.compare op first second, true)) := by
    simp only [decisionConditionCode, Literal.aggregates, aggregates_of_isTerm leftTerm,
      aggregates_of_isTerm rightTerm, constraintCode, isFirst.code, isSecond.code]
    rfl
  have replaced : (Cond.compare op first second).replace (Slots.ofClause clause).redirect =
      .ok (.compare op first' second') := by
    rw [Cond.replace, isFirst.replaced, isSecond.replaced]
    rfl
  apply exists_branch_of_decides code replaced
  intro args state long
  have decides : Decides args state (.compare op first' second') _ :=
    decides_compare (isFirst.returns args state long) (isSecond.returns args state long)
  exact ⟨_, decides, by simp [Literal.HoldsIn]⟩

/-- Every literal of a rule whose literals can be decided has a branch. -/
theorem exists_branch (askable : clause.Askable plan.program) {literal : Literal} (member : literal ∈ clause.body) :
    ∃ branch, Branches ordinal plan clause literal branch := by
  have within : ∀ name ∈ literal.variables, name ∈ clauseVariables clause := fun name isVariable =>
    List.mem_append_left _ (Literal.mem_variablesOfAll.2 ⟨literal, member, isVariable⟩)
  cases literal with
  | positive relation terms =>
      obtain ⟨check, redirected, code, replaced, decides⟩ := @exists_atomCheck ordinal plan clause relation terms
        (askable.declared _ member _ rfl) within (askable.atoms _ member _ rfl)
      have isCode : decisionConditionCode ordinal plan (Slots.ofClause clause) (.positive relation terms) =
          some (some (check, true)) := by
        rw [decisionConditionCode, code]
        rfl
      apply exists_branch_of_decides isCode replaced
      exact fun args state long => ⟨_, decides args state long, by simp [Literal.HoldsIn]⟩
  | negative relation terms =>
      obtain ⟨check, redirected, code, replaced, decides⟩ := @exists_atomCheck ordinal plan clause relation terms
        (askable.declared _ member _ rfl) within (askable.atoms _ member _ rfl)
      have isCode : decisionConditionCode ordinal plan (Slots.ofClause clause) (.negative relation terms) =
          some (some (check, false)) := by
        rw [decisionConditionCode, code]
        rfl
      apply exists_branch_of_decides isCode replaced
      exact fun args state long => ⟨_, decides args state long, by simp [Literal.HoldsIn]⟩
  | comparison op left right =>
      obtain ⟨isLeft, isRight⟩ := askable.compared op left right member
      exact exists_comparisonBranch within isLeft isRight
  | truth value =>
      cases value with
      | true =>
          apply @exists_branch_of_decides ordinal plan clause _ .true .true true rfl rfl
          exact fun args state _ => ⟨True, ⟨true, rfl, by simp⟩, by simp [Literal.HoldsIn]⟩
      | false =>
          apply @exists_branch_of_decides ordinal plan clause _ .false .false true rfl rfl
          exact fun args state _ => ⟨False, ⟨false, rfl, by simp⟩, by simp [Literal.HoldsIn]⟩

/-- The code of a decision begins with the branch of the literal that is decided. -/
theorem decisionCode_of_askable (askable : clause.Askable plan.program) :
    ∃ literal first rest, clause.decided? = some literal ∧ Branches ordinal plan clause literal first ∧
      decisionCode ordinal plan clause (Slots.ofClause clause) = some (.sequence (first :: rest)) := by
  have nonempty : clause.body ≠ [] := by
    intro empty
    have rule := askable.rule
    rw [Clause.isFact, empty] at rule
    cases rule
  have each : ∀ literal ∈ clause.constraintsLast, ∃ branch, Branches ordinal plan clause literal branch := by
    intro literal member
    exact exists_branch askable (Clause.mem_constraintsLast.1 member)
  cases order : clause.constraintsLast with
  | nil =>
      obtain ⟨literal, member⟩ := List.exists_mem_of_ne_nil _ nonempty
      have moved := Clause.mem_constraintsLast.2 member
      rw [order] at moved
      cases moved
  | cons literal others =>
      rw [order] at each
      obtain ⟨first, branches⟩ := each literal List.mem_cons_self
      have codes : (others.filterMapM (branchCode ordinal plan (Slots.ofClause clause))).isSome := by
        apply isSome_filterMapM
        intro other member
        obtain ⟨branch, isBranch⟩ := each other (List.mem_cons_of_mem _ member)
        rw [isBranch.code]
        rfl
      obtain ⟨rest, isRest⟩ := Option.isSome_iff_exists.1 codes
      refine ⟨literal, first, rest, ?_, branches, ?_⟩
      · rw [Clause.decided?_eq_head?, order, List.head?_cons]
      · have areBranches : (literal :: others).filterMapM (branchCode ordinal plan (Slots.ofClause clause)) =
            some (first :: rest) := by
          rw [List.filterMapM_cons, branches.code, isRest]
          rfl
        rw [decisionCode, order, areBranches]
        rfl

/-- The subroutine that decides the literals of a rule can be written. A call answers one or zero, and one exactly
if the first atom of the body holds, or else the first constraint, for the words in the slots. -/
def AnswersFirst (plan : Plan) (clause : Clause) (draft : Draft) : Prop :=
  ∃ body last literal, outcome (lowerDecision plan clause (Slots.ofClause clause)) draft = (.ok body, last) ∧
    clause.decided? = some literal ∧
    ∀ (compiled : Ram.Program) (name : String), compiled.symbols.Extends last.symbols →
      compiled.subroutine? name = some ⟨body, (Slots.ofClause clause).names⟩ →
        ∀ (rounds : Nat) (args : Row) (state : State), args.length = (Slots.ofClause clause).size →
          ∃ answer : Bool,
            (answer = true ↔ literal.HoldsIn compiled.symbols.ordinal plan.auxiliary
              (argumentOf (Slots.ofClause clause) args) state.store) ∧
            Returns (callSubroutine compiled rounds name args) state (some [truthWord answer])
              { state with bindings := [] }

/-- Under both strategies a decision can be written, and it answers for the first literal alone. -/
theorem decision_answers_first (askable : clause.Askable plan.program) (draft : Draft) :
    AnswersFirst plan clause draft := by
  have isSome (ordinal : String → Int64) : (decisionCode ordinal plan clause (Slots.ofClause clause)).isSome := by
    obtain ⟨_, _, _, _, _, code⟩ := @decisionCode_of_askable ordinal plan clause askable
    rw [code]
    rfl
  obtain ⟨body, last, ran, code⟩ :=
    Writes.exists_ok (fun ordinal => @writes_decision ordinal plan clause (Slots.ofClause clause)) isSome draft
  obtain ⟨literal, _, _, isDecided, _⟩ := @decisionCode_of_askable last.symbols.ordinal plan clause askable
  refine ⟨body, last, literal, ran, isDecided, fun compiled name extended found rounds args state count => ?_⟩
  obtain ⟨other, first, rest, alsoDecided, branches, isTree⟩ :=
    @decisionCode_of_askable compiled.symbols.ordinal plan clause askable
  obtain rfl : other = literal := Option.some.inj (alsoDecided.symm.trans isDecided)
  rw [code _ ((Symbols.agrees_ordinal compiled.symbols).of_extends extended)] at isTree
  obtain ⟨answer, means, returns⟩ := branches.answers rounds args { state with bindings := [] }
    (Nat.le_of_eq count.symm)
  have returned : Returns (runStmt rounds args body.tree) { state with bindings := [] } (.answer [truthWord answer])
      { state with bindings := [] } := by
    rw [Option.some.inj isTree, runStmt, runStmts]
    exact returns.bind (Returns.pure _ _)
  exact ⟨answer, means, returned.callSubroutine found count⟩

/-- The rule for due tasks. -/
def dueRule : Clause where
  head := ⟨⟨["due"]⟩, [.var "id", .operator .add [.var "days", .constant (.number 1)]]⟩
  body :=
    [.comparison .lt (.var "days") (.constant (.number 5)), .positive ⟨["task"]⟩ [.var "id", .var "days", .unnamed],
      .negative ⟨["done"]⟩ [.var "id"]]

/-- Tasks that are due in less than five days and not done. -/
def backlog : Program where
  types := []
  relations :=
    [⟨⟨["task"]⟩, [⟨"id", ⟨["number"]⟩⟩, ⟨"days", ⟨["number"]⟩⟩, ⟨"cost", ⟨["number"]⟩⟩], .standard, []⟩,
      ⟨⟨["done"]⟩, [⟨"id", ⟨["number"]⟩⟩], .standard, []⟩,
      ⟨⟨["due"]⟩, [⟨"id", ⟨["number"]⟩⟩, ⟨"days", ⟨["number"]⟩⟩], .standard, []⟩]
  clauses := [dueRule]

theorem askable_dueRule : dueRule.Askable backlog := by
  refine ⟨rfl, by decide, by decide, fun op left right compared => ?_⟩
  obtain ⟨rfl, rfl, rfl⟩ : op = .lt ∧ left = .var "days" ∧ right = .constant (.number 5) := by
    simpa [dueRule] using compared
  decide

/-- Of the rule for due tasks, it is decided whether there is a task. -/
theorem decision_answers_first_dueRule :
    ∃ plan, Plan.of backlog .provenance false = .ok plan ∧ dueRule.Askable plan.program ∧
      dueRule.decided? = some (.positive ⟨["task"]⟩ [.var "id", .var "days", .unnamed]) ∧
      AnswersFirst plan dueRule .empty :=
  ⟨_, rfl, askable_dueRule, by decide +kernel, decision_answers_first askable_dueRule .empty⟩

end Lowering

end DatalogRam
