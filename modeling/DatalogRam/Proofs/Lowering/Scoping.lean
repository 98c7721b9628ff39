import DatalogRam.Proofs.Lowering.AggregateFrame
import DatalogRam.Proofs.Lowering.StratumQueries
import DatalogRam.Proofs.Ram.Scope

/-!
# The code of clauses is scoped

A clause binds the rows of its body atoms first, one after the other, and then the results of its aggregates. The
arguments of an atom are compared as soon as its row is bound, and an aggregate is folded when all atoms and the
earlier aggregates are. So the variables that are read there have to be defined by then. Everything else is read in
the middle of the query, where all rows are bound.
-/

namespace DatalogRam

open Ram Lowering

/-- The aggregates within an aggregate. -/
def Aggregate.nested (aggregate : Aggregate) : List Aggregate :=
  Argument.aggregatesOfAll aggregate.target.toList ++ aggregate.body.flatMap Literal.aggregates

/-- What a clause reads before its middle is bound by then. -/
structure Clause.BindsFirst (clause : Clause) : Prop where
  /-- Every variable of an atom is an argument of that atom or an earlier one, -/
  atoms : ∀ entry ∈ clause.positiveAtoms.zipIdx, ∀ name ∈ entry.1.variables,
    ∃ atom ∈ clause.positiveAtoms.take (entry.2 + 1), .var name ∈ atom.args
  /-- and no aggregate is in an atom. -/
  plainAtoms : ∀ atom ∈ clause.positiveAtoms, Argument.aggregatesOfAll atom.args = []
  /-- A variable of an aggregate is an argument of an atom, or is not equated with a later aggregate, -/
  aggregates : ∀ entry ∈ (clauseAggregates clause).zipIdx, ∀ name ∈ entry.1.toArgument.variables,
    (∃ atom ∈ clause.positiveAtoms, .var name ∈ atom.args) ∨
      ∀ later ∈ (clauseAggregates clause).drop (entry.2 + 1), ∀ literal ∈ clause.body, ¬Equates name later literal
  /-- and no aggregate is in another. -/
  plainAggregates : ∀ aggregate ∈ clauseAggregates clause, aggregate.nested = []

instance (clause : Clause) : Decidable clause.BindsFirst :=
  decidable_of_iff
    ((∀ entry ∈ clause.positiveAtoms.zipIdx, ∀ name ∈ entry.1.variables,
        ∃ atom ∈ clause.positiveAtoms.take (entry.2 + 1), .var name ∈ atom.args) ∧
      (∀ atom ∈ clause.positiveAtoms, Argument.aggregatesOfAll atom.args = []) ∧
      (∀ entry ∈ (clauseAggregates clause).zipIdx, ∀ name ∈ entry.1.toArgument.variables,
        (∃ atom ∈ clause.positiveAtoms, .var name ∈ atom.args) ∨
          ∀ later ∈ (clauseAggregates clause).drop (entry.2 + 1), ∀ literal ∈ clause.body,
            ¬Equates name later literal) ∧
      ∀ aggregate ∈ clauseAggregates clause, aggregate.nested = [])
    ⟨fun ⟨atoms, plainAtoms, aggregates, plainAggregates⟩ => ⟨atoms, plainAtoms, aggregates, plainAggregates⟩,
      fun binds => ⟨binds.atoms, binds.plainAtoms, binds.aggregates, binds.plainAggregates⟩⟩

namespace Lowering

/-- The sites of some variables and aggregates are columns of rows with numbers below a limit. -/
structure Sites.Bound (sites : Sites) (limit : Nat) (names : List String) (aggregates : List Aggregate) : Prop where
  names : ∀ name ∈ names, ∀ site, sites.definition? name = some site → site.tuple < limit
  aggregates : ∀ aggregate ∈ aggregates, ∀ site, sites.aggregate? aggregate = some site → site.tuple < limit

variable {ordinal : String → Int64} {plan : Plan} {sites : Sites} {limit : Nat}

theorem Sites.Bound.mono {names fewer : List String} {aggregates less : List Aggregate}
    (bound : sites.Bound limit names aggregates) (subset : fewer ⊆ names) (alsoSubset : less ⊆ aggregates) :
    sites.Bound limit fewer less :=
  ⟨fun name member => bound.names name (subset member),
    fun aggregate member => bound.aggregates aggregate (alsoSubset member)⟩

theorem Sites.Bound.of_arg {args : List Argument}
    (bound : sites.Bound limit (Argument.variablesOfAll args) (Argument.aggregatesOfAll args)) {arg : Argument}
    (isArg : arg ∈ args) : sites.Bound limit arg.variables (Argument.aggregates arg) :=
  bound.mono (fun _ member => Argument.mem_variablesOfAll.2 ⟨arg, isArg, member⟩)
    fun _ member => Argument.mem_aggregatesOfAll.2 ⟨arg, isArg, member⟩

theorem Sites.Bound.of_positive {literal : Literal}
    (bound : sites.Bound limit literal.variables (Literal.aggregates literal)) {atom : Atom}
    (isPositive : literal.positiveAtom? = some atom) :
    sites.Bound limit atom.variables (Argument.aggregatesOfAll atom.args) := by
  cases literal <;> cases isPositive
  exact bound

theorem Sites.Bound.of_literal {aggregate : Aggregate}
    (bound : sites.Bound limit aggregate.toArgument.variables aggregate.nested) {literal : Literal}
    (isLiteral : literal ∈ aggregate.body) : sites.Bound limit literal.variables (Literal.aggregates literal) :=
  bound.mono
    (fun _ member => List.mem_append_right _ (Literal.mem_variablesOfAll.2 ⟨literal, isLiteral, member⟩))
    fun _ member => List.mem_append_right _ (List.mem_flatMap.2 ⟨literal, isLiteral, member⟩)

theorem Sites.Bound.of_target {aggregate : Aggregate}
    (bound : sites.Bound limit aggregate.toArgument.variables aggregate.nested) {target : Argument}
    (isTarget : aggregate.target = some target) :
    sites.Bound limit target.variables (Argument.aggregates target) := by
  refine bound.mono (fun _ member => List.mem_append_left _ ?_) fun _ member => List.mem_append_left _ ?_
  · rwa [isTarget]
  · rw [isTarget]
    exact Argument.mem_aggregatesOfAll.2 ⟨target, List.mem_singleton.2 rfl, member⟩

mutual

/-- A value reads the sites of its variables and aggregates. -/
theorem below_of_valueCode : ∀ (arg : Argument) {value : Expr},
    sites.Bound limit arg.variables (Argument.aggregates arg) → valueCode ordinal sites arg = some value →
      value.Below limit
  | .var name, _, bound, code => by
      obtain ⟨site, isSite, rfl⟩ := Option.map_eq_some_iff.1 code
      exact .element (bound.names name List.mem_cons_self site isSite) site.column
  | .aggregate function target body, _, bound, code => by
      obtain ⟨site, isSite, rfl⟩ := Option.map_eq_some_iff.1 code
      exact .element (bound.aggregates _ List.mem_cons_self site isSite) site.column
  | .operator op args, _, bound, code => by
      obtain ⟨values, areValues, rfl⟩ := Option.map_eq_some_iff.1 code
      exact Expr.below_of_all (below_of_valueCodes args bound areValues)
  | .external name args, _, bound, code => by
      obtain ⟨values, areValues, rfl⟩ := Option.map_eq_some_iff.1 code
      exact Expr.below_of_all (below_of_valueCodes args bound areValues)
  | .record args, _, bound, code => by
      obtain ⟨values, areValues, rfl⟩ := Option.map_eq_some_iff.1 code
      exact Expr.below_of_all (below_of_valueCodes args bound areValues)
  | .constant value, _, _, code => by
      cases code
      cases value <;> exact fun _ member => absurd member List.not_mem_nil
  | .unnamed, _, _, code | .counter, _, _, code => by
      cases code
      exact fun _ member => absurd member List.not_mem_nil

theorem below_of_valueCodes : ∀ (args : List Argument) {values : List Expr},
    sites.Bound limit (Argument.variablesOfAll args) (Argument.aggregatesOfAll args) →
      valueCodes ordinal sites args = some values → ∀ value ∈ values, value.Below limit
  | [], _, _, code => by
      cases code
      exact fun _ member => absurd member List.not_mem_nil
  | arg :: args, _, bound, code => by
      obtain ⟨first, others, isFirst, areOthers, rfl⟩ := valueCodes_cons_eq_some code
      have firstBound := bound.mono (List.subset_append_left _ _) (List.subset_append_left _ _)
      have othersBound := bound.mono (List.subset_append_right _ _) (List.subset_append_right _ _)
      exact List.forall_mem_cons.2 ⟨below_of_valueCode arg firstBound isFirst,
        below_of_valueCodes args othersBound areOthers⟩

end

theorem below_existence {values : List Expr} (each : ∀ value ∈ values, value.Below limit) (relation : String)
    (auxiliary : Nat) : (existence relation values auxiliary).Below limit := by
  intro expr member
  rcases List.mem_append.1 member with isValue | isPadding
  · exact each expr isValue
  · rw [List.eq_of_mem_replicate isPadding]
    exact fun _ reads => absurd reads List.not_mem_nil

theorem below_of_constraintCode {literal : Literal} {condition : Cond}
    (bound : sites.Bound limit literal.variables (Literal.aggregates literal))
    (code : constraintCode ordinal plan sites literal = some (some condition)) : condition.Below limit := by
  cases literal with
  | positive => cases code
  | negative relation args =>
      obtain ⟨_, values, areValues, same⟩ := constraintCode_negative_eq_some code
      cases same
      exact below_existence (below_of_valueCodes args bound areValues) relation.text plan.auxiliary
  | comparison op left right =>
      obtain ⟨leftValue, rightValue, isLeft, isRight, same⟩ := constraintCode_comparison_eq_some code
      cases same
      exact .compare
        (below_of_valueCode left (bound.mono (List.subset_append_left _ _) (List.subset_append_left _ _)) isLeft)
        (below_of_valueCode right (bound.mono (List.subset_append_right _ _) (List.subset_append_right _ _)) isRight)
  | truth value => cases value <;> cases code <;> exact fun _ member => absurd member List.not_mem_nil

variable {operation result : Op}

theorem below_guardedBy {conditions : List Cond} (each : ∀ condition ∈ conditions, condition.Below limit)
    (nested : operation.Below limit) : (guardedBy conditions operation).Below limit := by
  rw [guardedBy]
  split
  · exact nested
  · exact .filter (.allOf each) nested

theorem below_underGuard {guard : Option Cond} (checks : ∀ condition, guard = some condition → condition.Below limit)
    (nested : operation.Below limit) : (Op.underGuard operation guard).Below limit := by
  cases guard with
  | none => exact nested
  | some condition => exact .filter (checks condition rfl) nested

theorem below_insertionCode {logical auxiliary : List Expr} (logicalBelow : ∀ value ∈ logical, value.Below limit)
    (auxiliaryBelow : ∀ value ∈ auxiliary, value.Below limit) (head : Atom) (incremental : Bool) :
    (insertionCode plan head logical auxiliary incremental).Below limit := by
  refine below_underGuard (fun condition found => ?_) (Expr.below_of_all (List.forall_mem_append.2
    ⟨logicalBelow, auxiliaryBelow⟩))
  rw [guardCode] at found
  split at found
  · cases found
    exact below_existence logicalBelow head.relation.text plan.auxiliary
  · split at found <;> cases found
    exact fun _ member => absurd member List.not_mem_nil

/-- The level of a head is computed from the rows of the atoms. -/
theorem below_headLevelCode (atoms : List Atom) : (headLevelCode atoms).Below atoms.length := by
  have levels : ∀ level ∈ levelCodes atoms, level.Below atoms.length := by
    intro level member
    obtain ⟨⟨atom, tuple⟩, isEntry, rfl⟩ := List.mem_map.1 member
    exact .element (List.snd_lt_of_mem_zipIdx isEntry) _
  have one : (Expr.signed 1).Below atoms.length := fun _ member => absurd member List.not_mem_nil
  unfold headLevelCode
  split
  · exact fun _ member => absurd member List.not_mem_nil
  · next level isLevel =>
      refine Expr.below_of_all (List.forall_mem_cons.2 ⟨levels level ?_, List.forall_mem_singleton.2 one⟩)
      rw [isLevel]
      exact List.mem_cons_self
  · exact Expr.below_of_all (List.forall_mem_cons.2 ⟨Expr.below_of_all levels, List.forall_mem_singleton.2 one⟩)

/-! ## Queries -/

variable {clause : Clause} {id : Nat} {version : Version}

/-- How many rows the query of a clause binds. -/
def rowCount (clause : Clause) : Nat :=
  clause.positiveAtoms.length + (clauseAggregates clause).length

theorem bound_clauseFrame (names : List String) (aggregates : List Aggregate) :
    (clauseFrame clause).sites.Bound (rowCount clause) names aggregates :=
  ⟨fun _ _ _ found => tuple_lt_of_definition? found, fun _ _ _ found => tuple_lt_of_aggregate? found⟩

theorem below_of_headCode {level : Expr} {incremental : Bool}
    (bound : sites.Bound limit clause.head.variables (Argument.aggregatesOfAll clause.head.args))
    (levelBelow : level.Below limit) (code : headCode ordinal plan clause id sites level incremental = some operation) :
    operation.Below limit := by
  obtain ⟨logical, auxiliary, isLogical, isAuxiliary, rfl⟩ := headCode_eq_some code
  refine below_insertionCode (below_of_valueCodes _ bound isLogical) (fun value member => ?_) _ _
  rcases (bookkeeping_eq_some isAuxiliary).2 value member with ⟨number, rfl⟩ | ⟨_, rfl⟩
  · exact fun _ reads => absurd reads List.not_mem_nil
  · exact levelBelow

theorem below_of_constrainedCode (below : operation.Below (rowCount clause))
    (code : constrainedCode ordinal plan (clauseFrame clause).sites clause.body operation = some result) :
    result.Below (rowCount clause) :=
  of_foldrM (Op.Below (rowCount clause)) (fun literal _ before after nested code => by
    obtain ⟨guard, isGuard, rfl⟩ := Option.map_eq_some_iff.1 code
    refine below_underGuard (fun condition found => ?_) nested
    exact below_of_constraintCode (bound_clauseFrame _ _) (found ▸ isGuard)) below code

/-- The variables of an atom are defined where the atom's row is bound. -/
theorem bound_of_atom (bindsFirst : clause.BindsFirst) {position : Nat} {atom : Atom}
    (atPosition : clause.positiveAtoms[position]? = some atom) :
    (clauseFrame clause).sites.Bound (position + 1) atom.variables (Argument.aggregatesOfAll atom.args) where
  names name member site found := by
    obtain ⟨other, isEarlier, isVariable⟩ :=
      bindsFirst.atoms (atom, position) (List.mem_zipIdx_iff_getElem?.2 atPosition) name member
    obtain ⟨earlier, inside, isOther⟩ := List.mem_take_iff_getElem.1 isEarlier
    have atEarlier : clause.positiveAtoms[earlier]? = some other :=
      List.getElem?_eq_some_iff.2 ⟨by omega, isOther⟩
    obtain ⟨defining, isDefined, before⟩ := definition_of_argument atEarlier isVariable
    rw [definition?_clauseFrame_of_atoms isDefined] at found
    cases found
    omega
  aggregates aggregate member := by
    rw [bindsFirst.plainAtoms atom (List.mem_of_getElem? atPosition)] at member
    cases member

theorem below_of_scanCode (bindsFirst : clause.BindsFirst) {position : Nat} {atom : Atom}
    (atPosition : clause.positiveAtoms[position]? = some atom) (nested : operation.Below (position + 1))
    (code : scanCode ordinal version (clauseFrame clause).sites atom position operation = some result) :
    result.Below position := by
  obtain ⟨conditions, areConditions, same⟩ := Option.bind_eq_some_iff.1 code
  cases same
  refine .scan (below_guardedBy (fun condition member => ?_) nested)
  obtain ⟨⟨arg, column⟩, isEntry, isMatch⟩ := mem_of_filterMapM areConditions member
  rw [matchBodyCode] at isMatch
  split at isMatch
  · cases isMatch
  · obtain ⟨value, isValue, same⟩ := Option.map_eq_some_iff.1 isMatch
    cases same
    exact .compare (.element (Nat.lt_succ_self position) column)
      (below_of_valueCode arg
        ((bound_of_atom bindsFirst atPosition).of_arg (List.fst_mem_of_mem_zipIdx isEntry)) isValue)

/-- Within an aggregate, its variables are columns of its own row or of rows bound before. -/
theorem bound_of_aggregate (bindsFirst : clause.BindsFirst) {position : Nat} {aggregate : Aggregate}
    (atPosition : (clauseAggregates clause)[position]? = some aggregate) {inner : Sites}
    (extended : Extended (clauseFrame clause).sites (clause.positiveAtoms.length + position) inner) :
    inner.Bound (clause.positiveAtoms.length + position + 1) aggregate.toArgument.variables aggregate.nested where
  names name member site found := by
    rcases extended.definitions name site found with outside | own
    · rcases definition?_clauseFrame outside with inAtoms | ⟨undefined, literal, isLiteral, other, equates, isSite⟩
      · obtain ⟨_, atTuple, _⟩ := argument_of_definition inAtoms
        have := (List.getElem?_eq_some_iff.1 atTuple).1
        omega
      · obtain ⟨first, atFirst, rfl⟩ := aggregate?_aggregateSitesOf isSite
        rcases bindsFirst.aggregates (aggregate, position) (List.mem_zipIdx_iff_getElem?.2 atPosition) name member with
          ⟨atom, isAtom, isVariable⟩ | notLater
        · obtain ⟨tuple, atTuple⟩ := List.getElem?_of_mem isAtom
          obtain ⟨_, isDefined, _⟩ := definition_of_argument atTuple isVariable
          rw [undefined] at isDefined
          cases isDefined
        · have notAfter : first ≤ position := by
            by_contra isAfter
            have isLater : other ∈ (clauseAggregates clause).drop (position + 1) := by
              refine List.mem_of_getElem? (i := first - (position + 1)) ?_
              rw [List.getElem?_drop, Nat.add_sub_cancel' (by omega), atFirst]
            exact notLater other isLater literal isLiteral equates
          simp only
          omega
    · omega
  aggregates other member := by
    rw [bindsFirst.plainAggregates aggregate (List.mem_of_getElem? atPosition)] at member
    cases member

theorem below_of_aggregateCode (bindsFirst : clause.BindsFirst) {position : Nat} {aggregate : Aggregate}
    (atPosition : (clauseAggregates clause)[position]? = some aggregate)
    (nested : operation.Below (clause.positiveAtoms.length + position + 1))
    (code : aggregateCode ordinal plan (clauseFrame clause).sites aggregate (clause.positiveAtoms.length + position)
      operation = some result) : result.Below (clause.positiveAtoms.length + position) := by
  obtain ⟨atom, inner, comparisons, constraints, value, single, _, areSites, areConstraints, isValue, rfl⟩ :=
    aggregateCode_eq_some code
  obtain ⟨extended, each⟩ := aggregateSitesCode_spec areSites
  have bound {between : Sites} (isBetween : Extended (clauseFrame clause).sites _ between) :=
    bound_of_aggregate bindsFirst atPosition isBetween
  refine .aggregate (fun expr isExpr => ?_) (.allOf (List.forall_mem_append.2
    ⟨fun condition member => ?_, fun condition member => ?_⟩)) nested
  · cases isTarget : aggregate.target with
    | none =>
        rw [isTarget] at isValue
        cases isValue
        cases isExpr
    | some target =>
        rw [isTarget] at isValue
        obtain ⟨found, isFound, same⟩ := Option.map_eq_some_iff.1 isValue
        cases same.trans isExpr
        exact below_of_valueCode target ((bound extended).of_target isTarget) isFound
  · obtain ⟨between, isBetween, ⟨arg, column⟩, isEntry, _, found, isFound, rfl⟩ := each condition member
    have isLiteral := Literal.mem_positiveAtoms.1 (single ▸ List.mem_singleton_self atom)
    have boundAtom := ((bound isBetween).of_literal isLiteral).of_positive rfl
    exact .compare (.element (Nat.lt_succ_self _) column)
      (below_of_valueCode arg (boundAtom.of_arg (List.fst_mem_of_mem_zipIdx isEntry)) isFound)
  · obtain ⟨literal, isLiteral, isCondition⟩ := mem_of_filterMapM areConstraints member
    exact below_of_constraintCode ((bound extended).of_literal isLiteral) isCondition

theorem below_of_aggregatedCode (bindsFirst : clause.BindsFirst) (below : operation.Below (rowCount clause))
    (code : aggregatedCode ordinal plan (clauseFrame clause) operation = some result) :
    result.Below clause.positiveAtoms.length := by
  refine of_foldrM_zipIdx (fun position => Op.Below (clause.positiveAtoms.length + position))
    (fun aggregate position before after member nested code => ?_) ?_ code
  · exact below_of_aggregateCode bindsFirst (List.mem_zipIdx_iff_getElem?.1 member) nested code
  · rwa [Nat.zero_add]

theorem below_of_scannedCode (bindsFirst : clause.BindsFirst) (below : operation.Below clause.positiveAtoms.length)
    (code : scannedCode ordinal version (clauseFrame clause) operation = some result) : result.Below 0 := by
  refine of_foldrM_zipIdx Op.Below (fun atom position before after member nested code => ?_) ?_ code
  · exact below_of_scanCode bindsFirst (List.mem_zipIdx_iff_getElem?.1 member) nested code
  · rwa [Nat.zero_add]

/-- The query of a clause is scoped. -/
theorem scoped_of_clauseCode (bindsFirst : clause.BindsFirst) {statement : Stmt}
    (code : clauseCode ordinal plan clause id version = some statement) : statement.Scoped := by
  obtain ⟨_, query, isQuery, rfl⟩ := clauseCode_eq_some code
  suffices isScoped : query.Scoped by
    rw [withText]
    split <;> exact isScoped
  rw [clauseQuery] at isQuery
  split at isQuery
  · obtain ⟨operation, isInsertion, rfl⟩ := factCode_eq_some isQuery
    -- A fact has no sites at all.
    have noSites : Sites.empty.Bound 0 clause.head.variables (Argument.aggregatesOfAll clause.head.args) :=
      ⟨fun _ _ _ found => absurd found.symm (Option.some_ne_none _),
        fun _ _ _ found => absurd found.symm (Option.some_ne_none _)⟩
    exact (below_of_headCode noSites (fun _ member => absurd member List.not_mem_nil) isInsertion).isScoped
  · obtain ⟨frame, inner, constrained, aggregated, operation, isFrame, isInner, isConstrained, isAggregated, isScanned,
      rfl⟩ := ruleCode_eq_some isQuery
    obtain ⟨rfl, _⟩ := frameOf_eq_some isFrame
    have innerBelow : inner.Below (rowCount clause) :=
      below_of_headCode (bound_clauseFrame _ _) ((below_headLevelCode _).mono (Nat.le_add_right _ _)) isInner
    have constrainedBelow := below_of_constrainedCode innerBelow isConstrained
    exact (below_of_scannedCode bindsFirst (below_of_aggregatedCode bindsFirst constrainedBelow isAggregated)
      isScanned).isScoped

theorem composes_scoped (stratum : Analysis.Stratum) : Composes Stmt.Scoped stratum := by
  refine .of_management (fun _ each => .sequence each) (fun _ isScoped => isScoped) (fun _ => ?_)
    (fun _ _ => rfl) (fun _ _ => rfl) fun _ _ => ⟨rfl, rfl⟩
  have below : (allOf (stratum.relations.map fun name => .isEmpty (freshName name))).Below 0 := by
    apply Cond.Below.allOf
    intro condition member
    obtain ⟨name, _, rfl⟩ := List.mem_map.1 member
    exact fun _ member => absurd member List.not_mem_nil
  refine List.eq_nil_iff_forall_not_mem.2 fun tuple member => ?_
  exact absurd (Expr.below_of_all below tuple member) (Nat.not_lt_zero tuple)

/-- The evaluation of a program is scoped. -/
theorem scoped_of_evaluationCode (bindFirst : ∀ clause ∈ plan.program.clauses, clause.BindsFirst) {statement : Stmt}
    (code : evaluationCode ordinal plan = some statement) : statement.Scoped := by
  refine of_evaluationCode (fun _ each => .sequence each) (fun _ => rfl) (fun stratum _ evaluation isEvaluation => ?_) code
  refine of_stratumCode (composes_scoped stratum) (fun query isRun statement isCode => ?_) isEvaluation
  exact scoped_of_clauseCode (bindFirst _ (List.mem_of_getElem? isRun.atId)) isCode

end Lowering

end DatalogRam
