import DatalogRam.Lowering.Unit
import DatalogRam.Proofs.Lowering.BlindQueries

/-!
# Texts around statements

A plan that asks for texts and the same plan without go side by side: the statements that they give are the same but
for the texts, and everything else is the same.
-/

namespace DatalogRam.Lowering

open Ram

variable {plan : Plan} {clause : Clause} {id : Nat}

/-- The plan that also asks for the texts of clauses. -/
def Plan.annotated (plan : Plan) : Plan :=
  { plan with debugInfo := true }

/-! ## Statements -/

theorem wraps_stmt {node node' : StmtNode (Placed Cond) (Placed Op) (Placed Stmt)}
    (same : (Stmt.ofNode (node.map Placed.tree Placed.tree Placed.tree)).unwrapped =
      Stmt.ofNode (node'.map Placed.tree Placed.tree Placed.tree)) :
    SideBySide Draft.Matches Placed.Wraps (inArena (placeStmt node)) (inArena (placeStmt node')) :=
  SideBySide.inArena (fun _ _ _ => same) fun _ _ same => ⟨same.exprs, same.conds, same.ops⟩

/-- The same statement on both sides, if it has no statements in it. -/
theorem wraps_same (node : StmtNode (Placed Cond) (Placed Op) (Placed Stmt))
    (same : (Stmt.ofNode (node.map Placed.tree Placed.tree Placed.tree)).unwrapped =
      Stmt.ofNode (node.map Placed.tree Placed.tree Placed.tree)) :
    SideBySide Draft.Matches Placed.Wraps (inArena (placeStmt node)) (inArena (placeStmt node)) :=
  wraps_stmt same

theorem wraps_query (operation : Placed Op) :
    SideBySide Draft.Matches Placed.Wraps (inArena (query operation)) (inArena (query operation)) :=
  wraps_same (.query operation) rfl

theorem unwrapped_of_wraps {statements others : List (Placed Stmt)}
    (wraps : List.Forall₂ Placed.Wraps statements others) :
    Stmt.unwrappedAll (statements.map Placed.tree) = others.map Placed.tree := by
  induction wraps with
  | nil => rfl
  | @cons statement other _ _ isStatement _ ih =>
      change statement.tree.unwrapped :: _ = other.tree :: _
      rw [isStatement, ih]

theorem wraps_sequence {statements others : List (Placed Stmt)} (wraps : List.Forall₂ Placed.Wraps statements others) :
    SideBySide Draft.Matches Placed.Wraps (inArena (sequence statements)) (inArena (sequence others)) :=
  wraps_stmt (congrArg Stmt.sequence (unwrapped_of_wraps wraps))

/-! ## Clauses -/

theorem wraps_withClauseText (plain : plan.debugInfo = false) (purpose : Purpose) {statement other : Placed Stmt}
    (wraps : statement.Wraps other) :
    SideBySide Draft.Matches Placed.Wraps (inArena (withClauseText plan.annotated purpose clause statement))
      (inArena (withClauseText plan purpose clause other)) := by
  cases purpose with
  | explanation slots => exact SideBySide.pure wraps
  | insertion =>
      rw [withClauseText, withClauseText, plain]
      intro left right matched
      exact ⟨.ok wraps, { matched with arena := ⟨matched.arena.exprs, matched.arena.conds, matched.arena.ops⟩ }⟩

theorem wraps_fact :
    SideBySide Draft.Matches Placed.Wraps (lowerFact plan.annotated clause id) (lowerFact plan clause id) := by
  change SideBySide _ _ (lowerFact plan clause id) (lowerFact plan clause id)
  rw [lowerFact]
  apply (blind_values Sites.empty clause.head.args).before
  intro logical
  have inserted (auxiliary : List (Placed Expr)) :
      SideBySide Draft.Matches Placed.Wraps
        (do inArena (query (← inArena (insertGuarded plan clause.head logical auxiliary false))))
        (do inArena (query (← inArena (insertGuarded plan clause.head logical auxiliary false)))) :=
    (blind_insertGuarded clause.head logical auxiliary false).before wraps_query
  cases plan.strategy with
  | seminaive => exact inserted []
  | provenance =>
      apply (Blind.lift _).before
      intro number
      apply Blind.before (blind_expr (.signed (Int64.ofNat number)))
      intro rule
      exact Blind.before (blind_expr (.signed 0)) fun level => inserted [rule, level]

theorem wraps_rule (purpose : Purpose) (version : Version) :
    SideBySide Draft.Matches Placed.Wraps (lowerRule plan.annotated clause id purpose version)
      (lowerRule plan clause id purpose version) := by
  change SideBySide _ _ (lowerRule plan clause id purpose version) (lowerRule plan clause id purpose version)
  rw [lowerRule]
  apply (Blind.lift _).before
  intro frame
  have rest (operation : Placed Op) :
      SideBySide Draft.Matches Placed.Wraps
        (do
          let constrained ← addConstraints plan frame.sites clause.body operation
          let aggregated ← addAggregates plan frame constrained
          inArena (query (← addScans version frame aggregated)))
        (do
          let constrained ← addConstraints plan frame.sites clause.body operation
          let aggregated ← addAggregates plan frame constrained
          inArena (query (← addScans version frame aggregated))) := by
    apply (blind_constraints frame.sites clause.body operation).before
    intro constrained
    apply (blind_aggregates frame constrained).before
    intro aggregated
    exact (blind_scans version frame aggregated).before wraps_query
  cases purpose with
  | insertion => exact (blind_insertion clause id frame version.isIncremental).before rest
  | explanation slots => exact (blind_answer clause frame slots).before rest

theorem wraps_clause (plain : plan.debugInfo = false) (purpose : Purpose) (version : Version) :
    SideBySide Draft.Matches Placed.Wraps (lowerClause plan.annotated clause id purpose version)
      (lowerClause plan clause id purpose version) := by
  rw [lowerClause, lowerClause]
  apply (Blind.lift _).before
  intro _
  split
  · exact wraps_fact.bind fun _ _ wraps => wraps_withClauseText plain purpose wraps
  · exact (wraps_rule purpose version).bind fun _ _ wraps => wraps_withClauseText plain purpose wraps

theorem wraps_complete (plain : plan.debugInfo = false) (purpose : Purpose) :
    SideBySide Draft.Matches Placed.Wraps (lowerComplete plan.annotated clause id purpose)
      (lowerComplete plan clause id purpose) :=
  (blind_report _ _ _).before fun _ => wraps_clause plain purpose .complete

theorem wraps_incremental (plain : plan.debugInfo = false) (stratum : List Name) (version : Nat) :
    SideBySide Draft.Matches Placed.Wraps (lowerIncremental plan.annotated clause id stratum version .insertion)
      (lowerIncremental plan clause id stratum version .insertion) :=
  (blind_report _ _ _).before fun _ => wraps_clause plain .insertion _

/-! ## Strata -/

theorem wraps_completeClauses (plain : plan.debugInfo = false) (relation : Name) :
    SideBySide Draft.Matches (List.Forall₂ Placed.Wraps) (lowerCompleteClauses plan.annotated relation)
      (lowerCompleteClauses plan relation) :=
  SideBySide.mapM (plan.clausesOf relation false) fun _ => wraps_complete plain .insertion

theorem wraps_recursiveClauses (plain : plan.debugInfo = false) (stratum : List Name) (relation : Name) :
    SideBySide Draft.Matches (List.Forall₂ Placed.Wraps) (lowerRecursiveClauses plan.annotated stratum relation)
      (lowerRecursiveClauses plan stratum relation) := by
  have versions := SideBySide.mapM (plan.clausesOf relation true) fun entry : Clause × Nat =>
    SideBySide.mapM (List.range (positionsWithin entry.1 stratum).length) fun version =>
      @wraps_incremental plan entry.1 entry.2 plain stratum version
  exact versions.bind fun _ _ wraps => SideBySide.pure (List.rel_flatten wraps)

theorem wraps_advance (relation : Name) :
    SideBySide Draft.Matches (List.Forall₂ Placed.Wraps) (inArena (advance relation)) (inArena (advance relation)) := by
  rw [advance, inArena_bind]
  apply (wraps_same (.merge (freshName relation) relation.text) rfl).bind
  intro merge _ isMerge
  rw [inArena_bind, inArena_bind]
  apply (wraps_same (.swap (deltaName relation) (freshName relation)) rfl).bind
  intro swap _ isSwap
  rw [inArena_bind, inArena_bind]
  apply (wraps_same (.clear (freshName relation)) rfl).bind
  intro clear _ isClear
  exact SideBySide.pure (.cons isMerge (.cons isSwap (.cons isClear .nil)))

theorem wraps_loop (plain : plan.debugInfo = false) (stratum : List Name) :
    SideBySide Draft.Matches Placed.Wraps (lowerLoop plan.annotated stratum) (lowerLoop plan stratum) := by
  rw [lowerLoop, lowerLoop]
  apply (SideBySide.mapM stratum (wraps_recursiveClauses plain stratum)).bind
  intro queries _ areQueries
  apply (Blind.mapM stratum fun relation => blind_cond (.isEmpty (freshName relation))).before
  intro empty
  apply (blind_conjunction empty).before
  intro condition
  apply SideBySide.bind (wraps_same (.exit condition) rfl)
  intro exit _ isExit
  apply (SideBySide.mapM stratum wraps_advance).bind
  intro advances _ areAdvances
  apply (wraps_sequence (List.rel_append (List.rel_append (List.rel_flatten areQueries) (.cons isExit .nil))
    (List.rel_flatten areAdvances))).bind
  intro body body' isBody
  exact wraps_stmt (congrArg Stmt.loop isBody)

theorem wraps_clearRounds (relation : Name) :
    SideBySide Draft.Matches (List.Forall₂ Placed.Wraps) (inArena (clearRounds relation))
      (inArena (clearRounds relation)) := by
  rw [clearRounds, inArena_bind]
  apply (wraps_same (.clear (deltaName relation)) rfl).bind
  intro delta _ isDelta
  rw [inArena_bind, inArena_bind]
  apply (wraps_same (.clear (freshName relation)) rfl).bind
  intro fresh _ isFresh
  exact SideBySide.pure (.cons isDelta (.cons isFresh .nil))

theorem wraps_stratum (plain : plan.debugInfo = false) (position : Nat) (stratum : Analysis.Stratum) :
    SideBySide Draft.Matches Placed.Wraps (lowerStratum plan.annotated position stratum)
      (lowerStratum plan position stratum) := by
  rw [lowerStratum, lowerStratum]
  apply (blind_report _ _ _).before
  intro _
  apply (SideBySide.mapM stratum.relations (wraps_completeClauses plain)).bind
  intro queries _ areQueries
  split
  · apply (SideBySide.mapM stratum.relations fun relation =>
      wraps_same (.merge relation.text (deltaName relation)) rfl).bind
    intro seeds _ areSeeds
    apply (wraps_loop plain stratum.relations).bind
    intro loop _ isLoop
    apply (SideBySide.mapM stratum.relations wraps_clearRounds).bind
    intro clears _ areClears
    exact wraps_sequence (List.rel_append (List.rel_append (List.rel_append (List.rel_flatten areQueries) areSeeds)
      (.cons isLoop .nil)) (List.rel_flatten areClears))
  · exact wraps_sequence (List.rel_flatten areQueries)

theorem wraps_clearExpired (strategy : Strategy) (expired : List Name) :
    SideBySide Draft.Matches Placed.Wraps (clearExpired strategy expired) (clearExpired strategy expired) := by
  cases strategy with
  | provenance => exact wraps_sequence .nil
  | seminaive =>
      apply (SideBySide.mapM expired fun name => (blind_report _ _ _).before fun _ =>
        wraps_same (.clear name.text) rfl).bind
      intro clears _ areClears
      exact wraps_sequence areClears

theorem attributeTypes_annotated (attributes : List Attribute) :
    attributeTypes plan.annotated attributes = attributeTypes plan attributes := by
  induction attributes with
  | nil => rfl
  | cons first rest ih =>
      rw [attributeTypes, attributeTypes, ih]
      rfl

theorem declareRelation_annotated (relation : Relation) :
    declareRelation plan.annotated relation = declareRelation plan relation := by
  rw [declareRelation, declareRelation]
  simp only [tableFor, attributeTypes_annotated]
  rfl

theorem blind_declareRelation (relation : Relation) : Blind Draft.Matches (declareRelation plan relation) := by
  rw [declareRelation]
  apply (Blind.lift _).bind
  intro table
  apply (blind_declareTable table).bind
  intro _
  split
  · apply (Blind.lift _).bind
    intro delta
    apply (blind_declareTable delta).bind
    intro _
    exact (Blind.lift _).bind blind_declareTable
  · exact Blind.pure ()

theorem wraps_evaluation (plain : plan.debugInfo = false) :
    SideBySide Draft.Matches Placed.Wraps (lowerEvaluation plan.annotated) (lowerEvaluation plan) := by
  have declared :
      SideBySide Draft.Matches (· = ·) (plan.annotated.program.relations.forM (declareRelation plan.annotated))
        (plan.program.relations.forM (declareRelation plan)) := by
    rw [funext declareRelation_annotated]
    exact Blind.forM plan.program.relations blind_declareRelation
  rw [lowerEvaluation, lowerEvaluation]
  apply declared.bind
  intro _ _ _
  refine SideBySide.bind (SideBySide.mapM plan.strata.zipIdx fun entry => ?_) fun _ _ => wraps_sequence
  apply (wraps_stratum plain entry.2 entry.1).bind
  intro evaluation _ isEvaluation
  apply (wraps_clearExpired plan.strategy _).bind
  intro clear _ isClear
  exact wraps_sequence (.cons isEvaluation (.cons isClear .nil))

/-! ## Infos and explanations -/

theorem wraps_info :
    SideBySide Draft.Matches Placed.Wraps (lowerInfo plan.annotated clause id) (lowerInfo plan clause id) := by
  change SideBySide _ _ (lowerInfo plan clause id) (lowerInfo plan clause id)
  rw [lowerInfo]
  apply (Blind.lift _).before
  intro number
  apply (Blind.lift _).before
  intro description
  apply (blind_report _ _ _).before
  intro _
  apply (blind_declareTable _).before
  intro _
  apply Blind.before (blind_expr (.signed (Int64.ofNat number)))
  intro numberValue
  refine Blind.before (Blind.mapM _ fun text => ?_) fun texts => ?_
  · exact (blind_encodeSymbol text).bind fun ordinal => blind_expr (.signed ordinal)
  · apply (Blind.mapM _ fun zero => blind_expr (.signed zero)).before
    intro padding
    exact Blind.before (blind_op _) wraps_query

theorem wraps_infos :
    SideBySide Draft.Matches Placed.Wraps (lowerInfos plan.annotated) (lowerInfos plan) := by
  refine SideBySide.bind (SideBySide.mapM _ fun _ => wraps_info) fun queries _ areQueries => ?_
  rw [areQueries.length_eq]
  exact (blind_report _ _ _).before fun _ => wraps_sequence areQueries

theorem blind_atomCheck (sites : Sites) (relation : Name) (args : List Argument) :
    Blind Draft.Matches (atomCheck plan sites relation args) := by
  rw [atomCheck]
  apply (Blind.lift _).bind
  intro _
  exact ((blind_values sites args).adapt _).bind fun values =>
    blind_existenceCheck relation.text values plan.auxiliary

theorem blind_decisionCondition (sites : Sites) (literal : Literal) :
    Blind Draft.Matches (decisionCondition plan sites literal) := by
  have constraint (literal : Literal) :
      Blind Draft.Matches
        (if (Literal.aggregates literal).isEmpty then do
          let condition ← ExceptT.adapt missingSlotInstead (lowerConstraint plan sites literal)
          return condition.map fun condition => (condition, true)
        else throw (.unboundAggregate literal.text)) := by
    split
    · exact ((blind_constraint sites literal).adapt _).bind fun condition => Blind.pure _
    · exact Blind.throw _
  cases literal with
  | positive relation args => exact (blind_atomCheck sites relation args).bind fun condition => Blind.pure _
  | negative relation args => exact (blind_atomCheck sites relation args).bind fun condition => Blind.pure _
  | comparison op left right => exact constraint (.comparison op left right)
  | truth value => exact constraint (.truth value)

theorem wraps_answerIf (condition : Placed Cond) (value : Int64) :
    SideBySide Draft.Matches Placed.Wraps (inArena (answerIf condition value)) (inArena (answerIf condition value)) := by
  rw [answerIf, inArena_bind]
  apply (blind_expr (.signed value)).before
  intro value
  rw [inArena_bind]
  apply (blind_op (.answer [value])).before
  intro answer
  rw [inArena_bind]
  exact (blind_op (.filter condition answer)).before wraps_query

theorem wraps_answerEither (condition : Placed Cond) (holds : Bool) :
    SideBySide Draft.Matches Placed.Wraps (inArena (answerEither condition holds))
      (inArena (answerEither condition holds)) := by
  rw [answerEither, inArena_bind]
  apply (blind_copyCond condition.tree).before
  intro copy
  rw [inArena_bind]
  apply (blind_cond (.not copy)).before
  intro negated
  rw [inArena_bind]
  apply (wraps_answerIf condition (truthWord holds)).bind
  intro positive _ isPositive
  rw [inArena_bind, inArena_bind]
  apply (wraps_answerIf negated (truthWord !holds)).bind
  intro negative _ isNegative
  exact wraps_sequence (.cons isPositive (.cons isNegative .nil))

theorem wraps_decision (slots : Slots) :
    SideBySide Draft.Matches Placed.Wraps (lowerDecision plan.annotated clause slots)
      (lowerDecision plan clause slots) := by
  change SideBySide _ _ (lowerDecision plan clause slots) (lowerDecision plan clause slots)
  rw [lowerDecision]
  refine SideBySide.bind (SideBySide.filterMapM _ fun literal => ?_) fun _ _ => wraps_sequence
  apply (blind_decisionCondition slots.sites literal).before
  intro decided
  cases decided with
  | none => exact SideBySide.pure .none
  | some decided =>
      apply (blind_redirectCond decided.1).before
      intro condition
      apply (wraps_answerEither condition decided.2).bind
      intro branch _ isBranch
      exact SideBySide.pure (.some isBranch)

/-- Explanations whose subroutines differ in texts at most. -/
structure Explanation.Wraps (wrapped plain : Explanation) : Prop where
  derivation : wrapped.derivation.Wraps plain.derivation
  decision : wrapped.decision.Wraps plain.decision

theorem wraps_explanation (plain : plan.debugInfo = false) :
    SideBySide Draft.Matches Explanation.Wraps (lowerExplanation plan.annotated clause id)
      (lowerExplanation plan clause id) := by
  rw [lowerExplanation, lowerExplanation]
  apply (blind_report _ _ _).before
  intro _
  apply (wraps_complete plain (.explanation (Slots.ofClause clause))).bind
  intro derivation _ isDerivation
  apply (wraps_decision (Slots.ofClause clause)).bind
  intro decision _ isDecision
  exact SideBySide.pure ⟨⟨isDerivation, rfl⟩, ⟨isDecision, rfl⟩⟩

theorem wraps_addExplanation (plain : plan.debugInfo = false) :
    SideBySide Draft.Matches (· = ·) (addExplanation plan.annotated clause id) (addExplanation plan clause id) := by
  rw [addExplanation, addExplanation]
  apply (Blind.lift _).before
  intro number
  apply (blind_report _ _ _).before
  intro _
  apply (wraps_explanation plain).bind
  intro explanation _ wraps
  apply (sideBySide_addSubroutine wraps.derivation).bind
  intro _ _ _
  exact sideBySide_addSubroutine wraps.decision

/-- Everything that is written goes side by side. -/
theorem wraps_unit (plain : plan.debugInfo = false) :
    SideBySide Draft.Matches Placed.Wraps (lowerUnit plan.annotated) (lowerUnit plan) := by
  rw [lowerUnit, lowerUnit]
  rw [show plan.annotated.strategy = plan.strategy from rfl]
  cases plan.strategy with
  | seminaive => exact wraps_evaluation plain
  | provenance =>
      apply (wraps_evaluation plain).bind
      intro evaluation _ isEvaluation
      apply wraps_infos.bind
      intro infos _ areInfos
      apply (SideBySide.forM _ fun _ => wraps_addExplanation plain).bind
      intro _ _ _
      exact wraps_sequence (.cons isEvaluation (.cons areInfos .nil))

end DatalogRam.Lowering
