import DatalogRam.Proofs.Lowering.Redirecting

/-!
# The lowering of clauses writes their code

Each step of the lowering of a clause gives the tree that `DatalogRam.Proofs.Lowering.QueryCode` names for it.
-/

namespace DatalogRam.Lowering

open Ram

variable {ordinal : String → Int64} {plan : Plan}

/-- Insert a row if a guard allows it. -/
def insertUnder (relation : String) (values : List (Placed Expr)) (guard : Option (Placed Cond)) :
    Build (Placed Op) := do
  let insertion ← placeOp (.insert relation values)
  match guard with
  | some condition => filter condition insertion
  | none => return insertion

theorem builds_insertUnder (relation : String) (values : List (Placed Expr)) (guard : Option (Placed Cond)) :
    Builds Placed.tree (insertUnder relation values guard)
      (Op.underGuard (.insert relation (values.map Placed.tree)) (guard.map Placed.tree)) := by
  refine (Builds.op (.insert relation values)).bind fun insertion isInsertion => ?_
  have tree : insertion.tree = .insert relation (values.map Placed.tree) := isInsertion
  rw [← tree]
  cases guard with
  | none => exact Builds.pure insertion
  | some condition => exact Builds.op (.filter condition insertion)

theorem builds_insertGuarded (head : Atom) (logical auxiliary : List (Placed Expr)) (incremental : Bool) :
    Builds Placed.tree (insertGuarded plan head logical auxiliary incremental)
      (insertionCode plan head (logical.map Placed.tree) (auxiliary.map Placed.tree) incremental) := by
  let target := if incremental then freshName head.relation else head.relation.text
  -- However the guard was chosen, it is put around the insertion in the same way.
  have underGuard (found : Option (Placed Cond))
      (isGuard : guardCode plan head (logical.map Placed.tree) incremental = found.map Placed.tree) :
      Builds Placed.tree (insertUnder target (logical ++ auxiliary) found)
        (insertionCode plan head (logical.map Placed.tree) (auxiliary.map Placed.tree) incremental) := by
    rw [insertionCode, isGuard, ← List.map_append]
    exact builds_insertUnder target (logical ++ auxiliary) found
  rw [insertGuarded]
  split
  · next guarded =>
      refine (builds_copyExprs (logical.map Placed.tree)).bind fun copies copied => ?_
      refine (builds_existenceCheck head.relation.text copies plan.auxiliary).bind fun check isCheck => ?_
      refine (Builds.cond (.not check)).bind fun negated isNegated => underGuard (some negated) ?_
      have tree : negated.tree = .not check.tree := isNegated
      rw [guardCode, if_pos guarded, Option.map_some, tree, isCheck, copied]
  · next unguarded =>
      split
      · next empty =>
          refine (Builds.cond (.isEmpty head.relation.text)).bind fun check isCheck =>
            underGuard (some check) ?_
          have tree : check.tree = .isEmpty head.relation.text := isCheck
          rw [guardCode, if_neg unguarded, if_pos empty, Option.map_some, tree]
      · next wide =>
          refine underGuard none ?_
          rw [guardCode, if_neg unguarded, if_neg wide]
          rfl

theorem builds_bodyLevels (atoms : List Atom) :
    Builds (List.map Placed.tree) (bodyLevels atoms) (levelCodes atoms) :=
  Builds.mapM _ fun entry => Builds.expr (.element entry.2 (entry.1.arity + 1))

theorem builds_headLevel (atoms : List Atom) :
    Builds Placed.tree (headLevel atoms) (headLevelCode atoms) := by
  refine (builds_bodyLevels atoms).bind fun levels areLevels => ?_
  rw [headLevelCode, ← areLevels]
  match levels with
  | [] => exact Builds.expr (.signed 0)
  | [level] =>
      refine (Builds.expr (.signed 1)).bind fun one isOne => ?_
      have tree : one.tree = .signed 1 := isOne
      rw [List.map_cons, List.map_nil, ← tree]
      exact Builds.expr (.operator .add [level, one])
  | first :: second :: rest =>
      refine (Builds.expr (.operator .max (first :: second :: rest))).bind fun highest isHighest => ?_
      refine (Builds.expr (.signed 1)).bind fun one isOne => ?_
      have oneTree : one.tree = .signed 1 := isOne
      have highestTree : highest.tree = .operator .max ((first :: second :: rest).map Placed.tree) :=
        isHighest
      change Builds _ _
        (Expr.operator .add [.operator .max ((first :: second :: rest).map Placed.tree), .signed 1])
      rw [← oneTree, ← highestTree]
      exact Builds.expr (.operator .add [highest, one])

theorem writes_insertion (clause : Clause) (id : Nat) (frame : Frame) (incremental : Bool) :
    Writes ordinal Placed.tree (lowerInsertion plan clause id frame incremental)
      (headCode ordinal plan clause id frame.sites (headLevelCode frame.atoms) incremental) := by
  rw [lowerInsertion, headCode]
  refine (writes_values frame.sites clause.head.args).bind ?_
  rintro logical _ rfl
  rw [bookkeeping]
  cases plan.strategy with
  | seminaive => exact Writes.inArena (builds_insertGuarded clause.head logical [] incremental)
  | provenance =>
      cases plan.clauseNumber clause id with
      | error error => exact Writes.throw error
      | ok number =>
          change Writes ordinal Placed.tree
            (do
              let rule ← inArena (signed (Int64.ofNat number))
              let level ← inArena (headLevel frame.atoms)
              inArena (insertGuarded plan clause.head logical [rule, level] incremental))
            (some (insertionCode plan clause.head (logical.map Placed.tree)
              [.signed (Int64.ofNat number), headLevelCode frame.atoms] incremental))
          refine Writes.build (Builds.expr (.signed (Int64.ofNat number))) fun rule isRule => ?_
          refine Writes.build (builds_headLevel frame.atoms) fun level isLevel => ?_
          have built : Builds Placed.tree (insertGuarded plan _ _ _ _) _ :=
            builds_insertGuarded clause.head logical [rule, level] incremental
          have ruleTree : rule.tree = .signed (Int64.ofNat number) := isRule
          rw [List.map_cons, List.map_cons, List.map_nil, ruleTree, isLevel] at built
          exact Writes.inArena built

/-- Compare an argument with what is wanted for it. -/
def compareWanted (sites : Sites) (arg : Argument) : Option (Placed Expr) → Lower (Option (Placed Cond))
  | none => return none
  | some wanted => do
      let value ← lowerValue sites arg
      return some (← inArena (compareEqual value wanted))

theorem writes_compareWanted (sites : Sites) (arg : Argument) (wanted : Option (Placed Expr)) :
    Writes ordinal (Option.map Placed.tree) (compareWanted sites arg wanted)
      (compareWantedCode ordinal sites arg (wanted.map Placed.tree)) := by
  cases wanted with
  | none => exact Writes.pure none
  | some wanted =>
      rw [compareWanted, Option.map_some, compareWantedCode, Option.map_eq_bind]
      refine (writes_value sites arg).bind ?_
      rintro value _ rfl
      exact Writes.buildSome (Builds.cond (.compare .eq value wanted))

/-- Compare an argument of the head that is no variable with its value over the arguments of the subroutine. -/
def matchComputed (frame : Frame) (slots : Slots) (arg : Argument) : Lower (Option (Placed Cond)) :=
  if (Argument.aggregates arg).isEmpty then do
    let value ← lowerValue slots.sites arg
    let wanted ← slots.redirectExpr value
    compareWanted frame.sites arg (some wanted)
  else compareWanted frame.sites arg none

theorem writes_matchComputed (frame : Frame) (slots : Slots) (arg : Argument) :
    Writes ordinal (Option.map Placed.tree) (matchComputed frame slots arg)
      ((if (Argument.aggregates arg).isEmpty then (redirectedCode ordinal slots arg).map some
        else some none).bind (compareWantedCode ordinal frame.sites arg)) := by
  rw [matchComputed]
  split
  · rw [← bind_assoc, Option.bind_map]
    refine (writes_redirected ordinal slots arg).bind ?_
    rintro wanted _ rfl
    exact writes_compareWanted frame.sites arg (some wanted)
  · exact writes_compareWanted frame.sites arg none

theorem writes_matchHead (frame : Frame) (slots : Slots) (arg : Argument) :
    Writes ordinal (Option.map Placed.tree) (matchHeadArgument frame slots arg)
      (matchHeadCode ordinal frame slots arg) := by
  cases arg with
  | var name =>
      rw [matchHeadArgument, matchHeadCode, wantedCode]
      cases slots.slot? name with
      | none => exact Writes.throw _
      | some slot =>
          refine Writes.build (Builds.expr (.argument slot)) fun wanted isWanted => ?_
          have compared := @writes_compareWanted ordinal frame.sites (.var name) (some wanted)
          have tree : wanted.tree = .argument slot := isWanted
          rw [Option.map_some, tree] at compared
          exact compared
  | unnamed => exact writes_compareWanted frame.sites .unnamed none
  | constant value => exact writes_compareWanted frame.sites (.constant value) none
  | operator op args => exact writes_matchComputed frame slots (.operator op args)
  | external name args => exact writes_matchComputed frame slots (.external name args)
  | aggregate function target body => exact writes_matchComputed frame slots (.aggregate function target body)
  | record args => exact writes_matchComputed frame slots (.record args)
  | counter => exact writes_matchComputed frame slots .counter

theorem builds_levelConditions (atoms : List Atom) (slots : Slots) :
    Builds (List.map Placed.tree) (levelConditions plan atoms slots)
      (levelConditionCodes plan atoms slots) := by
  rw [levelConditions, levelConditionCodes]
  cases plan.strategy with
  | seminaive => exact Builds.pure []
  | provenance =>
      refine Builds.mapM _ fun entry => ?_
      refine (Builds.expr (.element entry.2 (entry.1.arity + 1))).bind fun level isLevel => ?_
      refine (Builds.expr (.argument slots.size)).bind fun limit isLimit => ?_
      have levelTree : level.tree = .element entry.2 (entry.1.arity + 1) := isLevel
      have limitTree : limit.tree = .argument slots.size := isLimit
      rw [← levelTree, ← limitTree]
      exact Builds.cond (.compare .lt level limit)

theorem writes_guarded (conditions : List (Placed Cond)) (operation : Placed Op) :
    Writes ordinal Placed.tree
      (if conditions.isEmpty then pure operation
        else do
          let condition ← inArena (conjunction conditions)
          inArena (filter condition operation))
      (some (guardedBy (conditions.map Placed.tree) operation.tree)) := by
  cases conditions with
  | nil => exact Writes.pure operation
  | cons first rest =>
      refine Writes.build (builds_conjunction (first :: rest)) fun condition isCondition => ?_
      rw [guardedBy, ← isCondition]
      exact Writes.inArena (Builds.op (.filter condition operation))

theorem writes_constrained (sites : Sites) (body : List Literal) (operation : Placed Op) :
    Writes ordinal Placed.tree (addConstraints plan sites body operation)
      (constrainedCode ordinal plan sites body operation.tree) := by
  refine Writes.foldrM body (fun literal _ operation => ?_) operation
  rw [Option.map_eq_bind]
  refine (writes_constraint sites literal).bind ?_
  rintro condition _ rfl
  cases condition with
  | none => exact Writes.pure operation
  | some condition => exact Writes.inArena (Builds.op (.filter condition operation))

theorem writes_reportedRows (atoms : List Atom) :
    Writes ordinal (List.map (List.map Placed.tree))
      (atoms.zipIdx.mapM fun (atom, tuple) =>
        (reportedColumns plan atom).mapM fun column => inArena (placeExpr (.element tuple column)))
      (some (reportedCodes plan atoms)) :=
  Writes.map _ fun entry _ => Writes.map _ fun column _ => writes_expr (.element entry.2 column)

theorem writes_answer (clause : Clause) (frame : Frame) (slots : Slots) :
    Writes ordinal Placed.tree (lowerAnswer plan clause frame slots)
      (answerCode ordinal plan clause frame slots) := by
  change Writes ordinal Placed.tree _
    (some (reportedCodes plan frame.atoms) >>= fun rows =>
      (clause.negatedAtoms.mapM fun atom => valueCodes ordinal frame.sites atom.args) >>= fun negated =>
        clause.head.args.filterMapM (matchHeadCode ordinal frame slots) >>= fun headConditions =>
          some (guardedBy (headConditions ++ levelConditionCodes plan frame.atoms slots)
            (.answer (rows.flatten ++ negated.flatten))))
  refine (writes_reportedRows frame.atoms).bind ?_
  rintro rows _ rfl
  refine (Writes.mapM _ fun atom _ => writes_values frame.sites atom.args).bind ?_
  rintro negated _ rfl
  refine Writes.build (Builds.op (.answer (rows.flatten ++ negated.flatten))) fun answer isAnswer => ?_
  refine (Writes.filterMapM _ fun arg _ => writes_matchHead frame slots arg).bind ?_
  rintro headConditions _ rfl
  refine Writes.build (builds_levelConditions frame.atoms slots) fun levels areLevels => ?_
  have tree : answer.tree =
      .answer ((rows.map (List.map Placed.tree)).flatten ++ (negated.map (List.map Placed.tree)).flatten) := by
    rw [← List.map_flatten, ← List.map_flatten, ← List.map_append]
    exact isAnswer
  rw [← tree, ← areLevels, ← List.map_append]
  exact writes_guarded (headConditions ++ levels) answer

theorem writes_aggregateSites (tuple : Nat) (sites : Sites) (entries : List (Argument × Nat)) :
    Writes ordinal (Prod.map id (List.map Placed.tree)) (aggregateSites tuple sites entries)
      (aggregateSitesCode ordinal tuple sites entries) := by
  induction entries generalizing sites with
  | nil => exact Writes.pure (sites, [])
  | cons entry rest ih =>
      obtain ⟨arg, column⟩ := entry
      by_cases isUnnamed : arg = .unnamed
      · subst isUnnamed
        exact ih sites
      · rw [aggregateSites, aggregateSitesCode]
        · cases introduced? sites arg with
          | some name => exact ih _
          | none =>
              refine Writes.build (Builds.expr (.element tuple column)) fun here isHere => ?_
              refine (writes_value sites arg).bind ?_
              rintro value _ rfl
              refine Writes.build (Builds.cond (.compare .eq here value)) fun comparison isComparison => ?_
              refine (ih sites).bind ?_
              rintro ⟨inner, comparisons⟩ _ rfl
              have hereTree : here.tree = .element tuple column := isHere
              have tree : comparison.tree = .compare .eq (.element tuple column) value.tree := by
                rw [← hereTree]
                exact isComparison
              change Writes ordinal _ _
                (some (inner, .compare .eq (.element tuple column) value.tree :: comparisons.map Placed.tree))
              rw [← tree]
              exact Writes.pure (inner, comparison :: comparisons)
        · exact isUnnamed
        · exact isUnnamed

theorem writes_aggregate (sites : Sites) (aggregate : Aggregate) (tuple : Nat) (nested : Placed Op) :
    Writes ordinal Placed.tree (lowerAggregate plan sites aggregate tuple nested)
      (aggregateCode ordinal plan sites aggregate tuple nested.tree) := by
  rw [lowerAggregate, aggregateCode]
  obtain _ | ⟨atom, _ | _⟩ := aggregate.body.filterMap Literal.positiveAtom?
  · exact Writes.throw _
  · refine (writes_requireRelation atom.relation).bind ?_
    rintro _ _ rfl
    refine (writes_aggregateSites tuple sites atom.args.zipIdx).bind ?_
    rintro ⟨inner, comparisons⟩ _ rfl
    refine (Writes.filterMapM _ fun literal _ => writes_constraint inner literal).bind ?_
    rintro constraints _ rfl
    -- The value is chosen first; what is done with it does not depend on how.
    have foldValue (value : Option (Placed Expr)) :
        Writes ordinal Placed.tree
          (do
            let condition ← inArena (conjunction (comparisons ++ constraints))
            inArena (placeOp
              (.aggregate atom.relation.text tuple aggregate.function value condition nested)))
          (some (.aggregate atom.relation.text tuple aggregate.function (value.map Placed.tree)
            (allOf (comparisons.map Placed.tree ++ constraints.map Placed.tree)) nested.tree)) := by
      refine Writes.build (builds_conjunction (comparisons ++ constraints)) fun condition isCondition => ?_
      rw [← List.map_append, ← isCondition]
      exact Writes.inArena (Builds.op
        (.aggregate atom.relation.text tuple aggregate.function value condition nested))
    cases aggregate.target with
    | none => exact foldValue none
    | some target =>
        refine Writes.bind (Writes.inSome (writes_value inner target)) ?_
        rintro value _ rfl
        exact foldValue value
  · exact Writes.throw _

theorem writes_aggregated (frame : Frame) (operation : Placed Op) :
    Writes ordinal Placed.tree (addAggregates plan frame operation)
      (aggregatedCode ordinal plan frame operation.tree) :=
  Writes.foldrM _ (fun entry _ operation =>
    writes_aggregate frame.sites entry.1 (frame.atoms.length + entry.2) operation) operation

/-- An argument asks for a comparison unless it matches anything where it stands. -/
theorem matchBodyArgument_eq (sites : Sites) (tuple : Nat) (arg : Argument) (column : Nat) :
    matchBodyArgument sites tuple arg column =
      if isFree sites tuple column arg then pure none
      else do
        let value ← lowerValue sites arg
        let here ← inArena (placeExpr (.element tuple column))
        return some (← inArena (compareEqual here value)) := by
  cases arg <;> rfl

theorem writes_matchBody (sites : Sites) (tuple : Nat) (entry : Argument × Nat) :
    Writes ordinal (Option.map Placed.tree) (matchBodyArgument sites tuple entry.1 entry.2)
      (matchBodyCode ordinal sites tuple entry) := by
  rw [matchBodyArgument_eq, matchBodyCode]
  split
  · exact Writes.pure none
  · rw [Option.map_eq_bind]
    refine (writes_value sites entry.1).bind ?_
    rintro value _ rfl
    refine Writes.build (Builds.expr (.element tuple entry.2)) fun here isHere => ?_
    have tree : here.tree = .element tuple entry.2 := isHere
    rw [Function.comp_apply, ← tree]
    exact Writes.buildSome (Builds.cond (.compare .eq here value))

theorem writes_scan (version : Version) (sites : Sites) (atom : Atom) (tuple : Nat)
    (operation : Placed Op) :
    Writes ordinal Placed.tree (addScan version sites atom tuple operation)
      (scanCode ordinal version sites atom tuple operation.tree) := by
  rw [addScan, scanCode]
  refine (Writes.filterMapM _ fun entry _ => writes_matchBody sites tuple entry).bind ?_
  rintro conditions _ rfl
  have scanned (nested : Placed Op) :
      Builds Placed.tree (placeOp (.scan (version.source tuple atom.relation) tuple nested))
        (.scan (version.source tuple atom.relation) tuple nested.tree) :=
    Builds.op (.scan _ tuple nested)
  cases conditions with
  | nil => exact Writes.inArena (scanned operation)
  | cons first rest =>
      refine Writes.build (builds_conjunction (first :: rest)) fun condition isCondition => ?_
      refine Writes.build (Builds.op (.filter condition operation)) fun nested isNested => ?_
      have tree : nested.tree = .filter (allOf ((first :: rest).map Placed.tree)) operation.tree := by
        rw [← isCondition]
        exact isNested
      rw [guardedBy, ← tree]
      exact Writes.inArena (scanned nested)

theorem writes_scanned (version : Version) (frame : Frame) (operation : Placed Op) :
    Writes ordinal Placed.tree (addScans version frame operation)
      (scannedCode ordinal version frame operation.tree) :=
  Writes.foldrM _ (fun entry _ operation =>
    writes_scan version frame.sites entry.1 entry.2 operation) operation

theorem writes_frame (clause : Clause) :
    Writes ordinal id (liftExcept (frameOf plan clause)) (frameOf plan clause).toOption := by
  have lifted : Writes ordinal id (liftExcept (frameOf plan clause)) _ := Writes.lift _
  rwa [Option.map_id_fun] at lifted

/-- The query of a rule, from what its middle gives. -/
theorem writes_rule (clause : Clause) (id : Nat) (purpose : Purpose) (version : Version)
    {middle : Frame → Option Op}
    (inner : ∀ frame, Writes ordinal Placed.tree
      (match purpose with
        | .insertion => lowerInsertion plan clause id frame version.isIncremental
        | .explanation slots => lowerAnswer plan clause frame slots)
      (middle frame)) :
    Writes ordinal Placed.tree (lowerRule plan clause id purpose version)
      (ruleCode ordinal plan clause version middle) := by
  rw [lowerRule, ruleCode]
  refine (writes_frame clause).bind ?_
  rintro frame _ rfl
  have rest (operation : Placed Op) :
      Writes ordinal Placed.tree
        (do
          let constrained ← addConstraints plan frame.sites clause.body operation
          let aggregated ← addAggregates plan frame constrained
          inArena (query (← addScans version frame aggregated)))
        (do
          let constrained ← constrainedCode ordinal plan frame.sites clause.body operation.tree
          let aggregated ← aggregatedCode ordinal plan frame constrained
          let scanned ← scannedCode ordinal version frame aggregated
          return .query scanned) := by
    refine (writes_constrained frame.sites clause.body operation).bind ?_
    rintro constrained _ rfl
    refine (writes_aggregated frame constrained).bind ?_
    rintro aggregated _ rfl
    refine (writes_scanned version frame aggregated).bind ?_
    rintro scanned _ rfl
    exact Writes.inArena (Builds.stmt (.query scanned))
  cases purpose with
  | insertion =>
      refine (inner frame).bind ?_
      rintro operation _ rfl
      exact rest operation
  | explanation slots =>
      refine (inner frame).bind ?_
      rintro operation _ rfl
      exact rest operation

theorem writes_fact (clause : Clause) (id : Nat) :
    Writes ordinal Placed.tree (lowerFact plan clause id) (factCode ordinal plan clause id) := by
  rw [lowerFact, factCode, headCode, bind_assoc]
  refine (writes_values .empty clause.head.args).bind ?_
  rintro logical _ rfl
  have insertWith (auxiliary : List (Placed Expr)) :
      Writes ordinal Placed.tree
        (do inArena (query (← inArena (insertGuarded plan clause.head logical auxiliary false))))
        (some (.query (insertionCode plan clause.head (logical.map Placed.tree)
          (auxiliary.map Placed.tree) false))) := by
    refine Writes.build (builds_insertGuarded clause.head logical auxiliary false) fun insertion isInsertion => ?_
    rw [← isInsertion]
    exact Writes.inArena (Builds.stmt (.query insertion))
  rw [bookkeeping]
  cases plan.strategy with
  | seminaive => exact insertWith []
  | provenance =>
      cases plan.clauseNumber clause id with
      | error error => exact Writes.throw error
      | ok number =>
          change Writes ordinal Placed.tree
            (do
              let rule ← inArena (signed (Int64.ofNat number))
              let level ← inArena (signed 0)
              inArena (query (← inArena (insertGuarded plan clause.head logical [rule, level] false))))
            (some (.query (insertionCode plan clause.head (logical.map Placed.tree)
              [.signed (Int64.ofNat number), .signed 0] false)))
          refine Writes.build (Builds.expr (.signed (Int64.ofNat number))) fun rule isRule => ?_
          refine Writes.build (Builds.expr (.signed 0)) fun level isLevel => ?_
          have ruleTree : rule.tree = .signed (Int64.ofNat number) := isRule
          have levelTree : level.tree = .signed 0 := isLevel
          rw [← ruleTree, ← levelTree]
          exact insertWith [rule, level]

theorem builds_clauseText (clause : Clause) (statement : Placed Stmt) :
    Builds Placed.tree (withClauseText plan .insertion clause statement)
      (withText plan clause statement.tree) := by
  rw [withClauseText, withText]
  split
  · exact Builds.stmt (.debug clause.text statement)
  · exact Builds.pure statement

theorem writes_clause (clause : Clause) (id : Nat) (version : Version) :
    Writes ordinal Placed.tree (lowerClause plan clause id .insertion version)
      (clauseCode ordinal plan clause id version) := by
  rw [lowerClause, clauseCode]
  refine (writes_requireRelation clause.head.relation).bind ?_
  rintro _ _ rfl
  have text (statement : Placed Stmt) :
      Writes ordinal Placed.tree (inArena (withClauseText plan .insertion clause statement))
        (some (withText plan clause statement.tree)) :=
    Writes.inArena (builds_clauseText clause statement)
  rw [clauseQuery, Option.map_eq_bind]
  split
  · refine (writes_fact clause id).bind ?_
    rintro statement _ rfl
    exact text statement
  · refine (writes_rule clause id .insertion version fun frame => writes_insertion clause id frame _).bind ?_
    rintro statement _ rfl
    exact text statement

theorem writes_explanation (clause : Clause) (id : Nat) (slots : Slots) (isRule : clause.isFact = false) :
    Writes ordinal Placed.tree (lowerClause plan clause id (.explanation slots) .complete)
      (explanationCode ordinal plan clause slots) := by
  rw [lowerClause, explanationCode]
  refine (writes_requireRelation clause.head.relation).bind ?_
  rintro _ _ rfl
  rw [isRule, if_neg Bool.false_ne_true, ← bind_pure (ruleCode ordinal plan clause .complete _)]
  refine (writes_rule clause id (.explanation slots) .complete fun frame =>
    writes_answer clause frame slots).bind ?_
  rintro statement _ rfl
  exact Writes.inArena (Builds.pure statement)

end DatalogRam.Lowering
