import DatalogRam.Proofs.Lowering.ClauseUses
import DatalogRam.Proofs.Lowering.DecisionWriting
import DatalogRam.Proofs.Lowering.RedirectedReads

/-!
# What explanations use

The subroutines of a rule use what its query uses, and answer in place of inserting. Conditions over slots read no rows
once they are redirected. The answer of a derivation holds the values of negated atoms, so it holds a wildcard where a
negated atom has one.
-/

namespace DatalogRam.Lowering

open Ram

variable {ordinal : String → Int64} {plan : Plan} {clause : Clause} {rows : List Atom} {version : Version}

theorem ClauseUse.answer {values : List Expr} (reads : ∀ value ∈ values, ReadsColumns rows plan.auxiliary value)
    (asked : clause.Definite → ∀ value ∈ values, value.IsDefined ∨ value.isUndefined = true ∧ clause.NegatesOpenly) :
    ClauseUse plan clause version true rows (.answer values) where
  table _ named := nomatch named
  reads := reads
  asks definite := by
    by_cases opens : clause.NegatesOpenly
    · refine .inr ⟨rfl, opens, fun value member => ?_⟩
      exact (asked definite value member).elim .inr fun wildcard => .inl wildcard.1
    · exact .inl fun value member => (asked definite value member).resolve_right fun wildcard => opens wildcard.2
  answers _ := rfl

/-! ## Derivations -/

theorem evaluable_column {tuple column : Nat} {atom : Atom} (atTuple : rows[tuple]? = some atom)
    (inside : column < atom.arity + plan.auxiliary) : Evaluable plan clause rows (.element tuple column) := by
  apply Evaluable.element
  intro other alsoTuple
  rw [atTuple] at alsoTuple
  cases alsoTuple
  exact inside

theorem uses_of_matchHeadCode {slots : Slots} (noErased : clause.Definite → slots.erased = []) {arg : Argument}
    (isArg : arg ∈ clause.head.args) {condition : Cond}
    (code : matchHeadCode ordinal (clauseFrame clause) slots arg = some (some condition)) :
    condition.Uses (ClauseUse plan clause version true clause.positiveAtoms) := by
  obtain ⟨wanted, value, isWanted, isValue, rfl⟩ := matchHeadCode_eq_some code
  have isSlot : Evaluable plan clause clause.positiveAtoms wanted := {
    reads := reads_of_tuples_eq_nil (tuples_of_wantedCode isWanted)
    defined := fun definite => isDefined_of_wantedCode (noErased definite) (definite.head arg isArg) isWanted }
  exact .compare
    (.value (.of_valueCode (fit_clauseFrame clause) isValue fun definite => definite.head arg isArg)) (.value isSlot)

theorem uses_levelConditionCodes (slots : Slots) :
    ∀ condition ∈ levelConditionCodes plan rows slots, condition.Uses (ClauseUse plan clause version true rows) := by
  intro condition member
  unfold levelConditionCodes at member
  split at member
  · cases member
  · next isProvenance =>
      obtain ⟨⟨atom, tuple⟩, isEntry, rfl⟩ := List.mem_map.1 member
      have inside : atom.arity + 1 < atom.arity + plan.auxiliary := by
        rw [auxiliary_of_provenance isProvenance]
        omega
      have isLevel : Evaluable plan clause rows (.argument slots.size) := {
        reads := reads_of_no_elements fun _ _ => by simp [Expr.leaves]
        defined := fun _ => by simp [Expr.IsDefined, Expr.leaves, Expr.isUndefined] }
      exact .compare (.value (evaluable_column (List.mem_zipIdx_iff_getElem?.1 isEntry) inside)) (.value isLevel)

theorem lt_of_reportedColumns {atom : Atom} {column : Nat} (member : column ∈ reportedColumns plan atom) :
    column < atom.arity + plan.auxiliary := by
  unfold reportedColumns at member
  split at member
  · exact Nat.lt_of_lt_of_le (List.mem_range.1 member) (Nat.le_add_right _ _)
  · next isProvenance =>
      rw [auxiliary_of_provenance isProvenance]
      rcases List.mem_append.1 member with inside | isLevel
      · have := List.mem_range.1 inside
        omega
      · have := List.mem_singleton.1 isLevel
        omega

/-- The reported values are columns of the rows of atoms. -/
theorem evaluable_reported {value : Expr} (member : value ∈ (reportedCodes plan rows).flatten) :
    Evaluable plan clause rows value := by
  obtain ⟨_, isRow, inRow⟩ := List.mem_flatten.1 member
  obtain ⟨⟨atom, tuple⟩, isEntry, rfl⟩ := List.mem_map.1 isRow
  obtain ⟨column, isReported, rfl⟩ := List.mem_map.1 inRow
  exact evaluable_column (List.mem_zipIdx_iff_getElem?.1 isEntry) (lt_of_reportedColumns isReported)

theorem uses_of_answerCode {slots : Slots} (noErased : clause.Definite → slots.erased = []) {operation : Op}
    (code : answerCode ordinal plan clause (clauseFrame clause) slots = some operation) :
    UsesOf plan clause version true operation := by
  obtain ⟨negated, conditions, areNegated, areConditions, rfl⟩ := answerCode_eq_some code
  have ofNegated {value : Expr} (member : value ∈ negated.flatten) : ∃ atom ∈ clause.negatedAtoms,
      ∃ arg ∈ atom.args, valueCode ordinal (clauseFrame clause).sites arg = some value := by
    obtain ⟨values, areValues, inValues⟩ := List.mem_flatten.1 member
    obtain ⟨atom, isAtom, isCode⟩ := mem_of_mapM areNegated areValues
    exact ⟨atom, isAtom, exists_of_valueCodes isCode inValues⟩
  have ofReported {value : Expr} (member : value ∈ (reportedCodes plan clause.positiveAtoms).flatten) :
      Evaluable plan clause clause.positiveAtoms value :=
    evaluable_reported member
  refine uses_guardedBy (fun condition member => ?_)
    (.answer (.answer (fun value member => ?_) fun definite value member => ?_))
  · rcases List.mem_append.1 member with isHead | isLevel
    · obtain ⟨arg, isArg, isCode⟩ := mem_of_filterMapM areConditions isHead
      exact uses_of_matchHeadCode noErased isArg isCode
    · exact uses_levelConditionCodes slots condition isLevel
  · rcases List.mem_append.1 member with isReported | isNegated
    · exact (ofReported isReported).reads
    · obtain ⟨atom, _, arg, _, isCode⟩ := ofNegated isNegated
      exact reads_of_valueCode (fit_clauseFrame clause) _ isCode
  · rcases List.mem_append.1 member with isReported | isNegated
    · exact .inl ((ofReported isReported).defined definite)
    · obtain ⟨atom, isAtom, arg, isArg, isCode⟩ := ofNegated isNegated
      rcases Argument.areAsked_iff.1 (definite.body _ (Clause.mem_negatedAtoms.1 isAtom)) arg isArg with rfl | isDefinite
      · cases isCode
        exact .inr ⟨rfl, atom, isAtom, isArg⟩
      · exact .inl (isDefined_of_valueCode isCode isDefinite)

/-- The query that derives rows of a rule. -/
theorem uses_of_explanationCode {statement : Stmt}
    (code : explanationCode ordinal plan clause (Slots.ofClause clause) = some statement) :
    statement.Uses fun scans use =>
      ScansAtoms plan clause .complete scans ∧ ClauseUse plan clause .complete true clause.positiveAtoms use := by
  obtain ⟨_, _, code⟩ := Option.bind_eq_some_iff.1 code
  exact uses_of_ruleCode code fun inner isInner => uses_of_answerCode Clause.Definite.erased_eq isInner

/-! ## Decisions -/

/-- A use over slots is one that reads no rows once it is redirected. -/
theorem ClauseUse.of_redirected {slots : Slots} (noErased : clause.Definite → slots.erased = []) {before use : Use}
    {answers : Bool} (replaced : Use.Replaced slots.redirect before use)
    (uses : ClauseUse plan clause version answers [] before) :
    ClauseUse plan clause version answers rows use := by
  have reads {expr result : Expr} (isReplaced : expr.replace slots.redirect = .ok result) :
      ReadsColumns rows plan.auxiliary result :=
    reads_of_tuples_eq_nil (Expr.tuples_replace (takesReads_redirect slots) expr isReplaced)
  cases replaced with
  | value isReplaced =>
      refine .value ⟨reads isReplaced, fun definite => ?_⟩
      rcases uses.asks definite with asks | ⟨isAnswer, _⟩
      · exact isDefined_of_redirected (noErased definite) isReplaced (asks _ (List.mem_singleton.2 rfl))
      · cases isAnswer
  | check areReplaced =>
      have each := Expr.forall₂_of_replaceAll areReplaced
      obtain ⟨atom, isTable, count⟩ := uses.table _ rfl
      refine .check isTable ?_ (fun value member => ?_) fun definite value member => ?_
      · rw [← each.length_eq]
        exact count _ rfl
      · obtain ⟨expr, _, isReplaced⟩ := exists_of_forall₂ each member
        exact reads isReplaced
      · obtain ⟨expr, isExpr, isReplaced⟩ := exists_of_forall₂ each member
        rcases uses.asks definite with asks | ⟨isAnswer, _⟩
        · exact asked_of_redirected (noErased definite) isReplaced (asks expr isExpr)
        · cases isAnswer
  | emptiness relation =>
      obtain ⟨atom, isTable, _⟩ := uses.table _ rfl
      exact .ofTable isTable (.inr (.inr rfl))

/-- The check for an atom, over slots. -/
theorem uses_of_atomCheckCode {slots : Slots} {literal : Literal} {relation : Name} {args : List Argument}
    (isLiteral : literal ∈ clause.evaluated) (isAtom : literal.atom? = some ⟨relation, args⟩)
    (asked : clause.Definite → Argument.areAsked args = true) {check : Cond}
    (code : atomCheckCode ordinal plan slots relation args = some check) :
    check.Uses (ClauseUse plan clause version true []) := by
  obtain ⟨found, isFound, code⟩ := Option.bind_eq_some_iff.1 code
  obtain ⟨values, areValues, same⟩ := Option.bind_eq_some_iff.1 code
  cases same
  have declared : plan.program.declares relation = true := by
    rw [Program.declares, isFound]
    rfl
  let atom : Atom := ⟨relation, args⟩
  have isNamed : atom ∈ clause.named := Clause.mem_named isLiteral isAtom
  exact uses_existence isNamed declared slots.sites.fit_nil areValues fun definite =>
    Argument.areAsked_iff.1 (asked definite)

/-- The condition that decides a literal, over slots. -/
theorem uses_of_decisionConditionCode {slots : Slots} {literal : Literal} (isLiteral : literal ∈ clause.body)
    {condition : Cond} {holds : Bool}
    (code : decisionConditionCode ordinal plan slots literal = some (some (condition, holds))) :
    condition.Uses (ClauseUse plan clause version true []) := by
  have evaluated := clause.body_subset_evaluated isLiteral
  have ofConstraint (isCode : (constraintCode ordinal plan slots.sites literal).map
      (fun found => found.map fun condition => (condition, true)) = some (some (condition, holds))) :
      condition.Uses (ClauseUse plan clause version true []) := by
    obtain ⟨found, isFound, same⟩ := Option.map_eq_some_iff.1 isCode
    cases found with
    | none => cases same
    | some found =>
        cases same
        exact uses_of_constraintCode slots.sites.fit_nil evaluated isFound
  unfold decisionConditionCode at code
  split at code
  · obtain ⟨check, isCheck, same⟩ := Option.map_eq_some_iff.1 code
    cases same
    exact uses_of_atomCheckCode evaluated rfl (fun definite => definite.body _ isLiteral) isCheck
  · obtain ⟨check, isCheck, same⟩ := Option.map_eq_some_iff.1 code
    cases same
    exact uses_of_atomCheckCode evaluated rfl (fun definite => definite.body _ isLiteral) isCheck
  · split at code
    · exact ofConstraint code
    · cases code

/-- The branches that decide literals. -/
theorem uses_of_decisionCode {statement : Stmt}
    (code : decisionCode ordinal plan clause (Slots.ofClause clause) = some statement) :
    statement.Uses fun scans use =>
      ScansAtoms plan clause .complete scans ∧ ClauseUse plan clause .complete true clause.positiveAtoms use := by
  obtain ⟨branches, rfl, each⟩ := decisionCode_eq_some code
  apply Stmt.Uses.sequence
  intro branch member
  obtain ⟨literal, inOrder, condition, holds, redirected, isCondition, isReplaced, rfl⟩ := each branch member
  have isLiteral : literal ∈ clause.body := by
    rcases List.mem_append.1 inOrder with isOther | isConstraint
    · exact (List.mem_filter.1 isOther).1
    · exact (List.mem_filter.1 isConstraint).1
  have conditions : redirected.Uses (ClauseUse plan clause .complete true clause.positiveAtoms) := by
    intro use isUse
    obtain ⟨before, isBefore, replaced⟩ := Cond.exists_replaced isReplaced use isUse
    exact .of_redirected Clause.Definite.erased_eq replaced
      (uses_of_decisionConditionCode isLiteral isCondition before isBefore)
  have answers (word : Int64) : UsesOf plan clause .complete true (.answer [.signed word]) := by
    have evaluable : Evaluable plan clause clause.positiveAtoms (.signed word) := .signed word
    exact .answer (.answer (List.forall_mem_singleton.2 evaluable.reads)
      fun definite => List.forall_mem_singleton.2 (.inl (evaluable.defined definite)))
  have negated : (Cond.not redirected).Uses (ClauseUse plan clause .complete true clause.positiveAtoms) := conditions
  apply Stmt.Uses.sequence
  refine List.forall_mem_cons.2 ⟨?_, List.forall_mem_singleton.2 ?_⟩
  · exact Op.Uses.filter conditions (answers _) [] fun _ member => absurd member List.not_mem_nil
  · exact Op.Uses.filter negated (answers _) [] fun _ member => absurd member List.not_mem_nil

end DatalogRam.Lowering
