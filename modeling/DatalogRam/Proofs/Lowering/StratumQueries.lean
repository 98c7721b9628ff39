import DatalogRam.Proofs.Analysis.Recursion
import DatalogRam.Proofs.Lowering.Optional
import DatalogRam.Proofs.Lowering.ProgramCode

/-!
# The queries of a stratum

A stratum runs the queries of its clauses that are not recursive once, and a version of each recursive clause for
every body atom of the stratum in each round. `completeQueries` and `roundQueries` list them, and the code of a
stratum is the code of these lists with the statements that manage the tables for rounds around it.
-/

namespace DatalogRam.Lowering

open Ram Analysis

/-- A version of the query of a clause. -/
structure Query where
  clause : Clause
  id : Nat
  version : Version

def Query.code (ordinal : String → Int64) (plan : Plan) (query : Query) : Option Stmt :=
  clauseCode ordinal plan query.clause query.id query.version

theorem mem_positionsWithin {clause : Clause} {names : List Name} {position : Nat} :
    position ∈ positionsWithin clause names ↔
      ∃ atom, clause.positiveAtoms[position]? = some atom ∧ atom.relation ∈ names := by
  simp [positionsWithin, List.mem_zipIdx_iff_getElem?]

/-- The queries that a stratum runs once. -/
def completeQueries (plan : Plan) (names : List Name) : List Query :=
  names.flatMap fun name => (plan.clausesOf name false).map fun entry => ⟨entry.1, entry.2, .complete⟩

/-- The queries that a stratum runs in every round. -/
def roundQueries (plan : Plan) (names : List Name) : List Query :=
  names.flatMap fun name => (plan.clausesOf name true).flatMap fun entry =>
    (List.range (positionsWithin entry.1 names).length).map fun version =>
      ⟨entry.1, entry.2, .incremental (positionsWithin entry.1 names)[version]?⟩

variable {ordinal : String → Int64} {plan : Plan} {names : List Name}

theorem mem_clausesOf {name : Name} {recursive : Bool} {clause : Clause} {id : Nat} :
    (clause, id) ∈ plan.clausesOf name recursive ↔
      plan.program.clauses[id]? = some clause ∧ clause.head.relation = name ∧
        isRecursive plan.program clause = recursive := by
  rw [Plan.clausesOf, List.mem_filter, Program.mem_clausesOf, beq_iff_eq, and_assoc]

theorem mem_completeQueries {query : Query} :
    query ∈ completeQueries plan names ↔
      plan.program.clauses[query.id]? = some query.clause ∧ query.clause.head.relation ∈ names ∧
        isRecursive plan.program query.clause = false ∧ query.version = .complete := by
  simp only [completeQueries, List.mem_flatMap, List.mem_map, Prod.exists, mem_clausesOf]
  constructor
  · rintro ⟨_, member, clause, id, ⟨position, rfl, complete⟩, rfl⟩
    exact ⟨position, member, complete, rfl⟩
  · rintro ⟨position, member, complete, isVersion⟩
    refine ⟨_, member, query.clause, query.id, ⟨position, rfl, complete⟩, ?_⟩
    rw [← isVersion]

theorem mem_roundQueries {query : Query} :
    query ∈ roundQueries plan names ↔
      plan.program.clauses[query.id]? = some query.clause ∧ query.clause.head.relation ∈ names ∧
        isRecursive plan.program query.clause = true ∧
        ∃ position ∈ positionsWithin query.clause names, query.version = .incremental (some position) := by
  simp only [roundQueries, List.mem_flatMap, List.mem_map, Prod.exists, mem_clausesOf, List.mem_range]
  constructor
  · rintro ⟨_, member, clause, id, ⟨atId, rfl, recursive⟩, version, inside, rfl⟩
    refine ⟨atId, member, recursive, _, List.getElem_mem inside, ?_⟩
    rw [List.getElem?_eq_getElem inside]
  · rintro ⟨atId, member, recursive, position, isPosition, isVersion⟩
    obtain ⟨version, inside, isHere⟩ := List.getElem_of_mem isPosition
    refine ⟨_, member, query.clause, query.id, ⟨atId, rfl, recursive⟩, version, inside, ?_⟩
    rw [List.getElem?_eq_getElem inside, isHere, ← isVersion]

theorem completeCode_eq (names : List Name) :
    (names.mapM (completeCode ordinal plan)).map List.flatten =
      (completeQueries plan names).mapM (Query.code ordinal plan) := by
  rw [completeQueries, mapM_flatMap]
  simp only [List.mapM_map]
  rfl

theorem recursiveCode_eq (names : List Name) :
    (names.mapM (recursiveCode ordinal plan names)).map List.flatten =
      (roundQueries plan names).mapM (Query.code ordinal plan) := by
  rw [roundQueries, mapM_flatMap]
  simp only [mapM_flatMap, List.mapM_map]
  rfl

/-! ## The shape of a query -/

section Shape

variable {clause : Clause} {id : Nat} {version : Version} {holds : Op → Prop} {operation result : Op} {statement : Stmt}

theorem of_underGuard (filter : ∀ condition operation, holds operation → holds (.filter condition operation))
    (isHeld : holds operation) (condition : Option Cond) : holds (Op.underGuard operation condition) := by
  cases condition with
  | none => exact isHeld
  | some found => exact filter found operation isHeld

theorem of_guardedBy (filter : ∀ condition operation, holds operation → holds (.filter condition operation))
    (isHeld : holds operation) (conditions : List Cond) : holds (guardedBy conditions operation) := by
  rw [guardedBy]
  split
  · exact isHeld
  · exact filter _ operation isHeld

theorem of_aggregateCode
    (aggregate : ∀ relation tuple function value condition operation, holds operation →
      holds (.aggregate relation tuple function value condition operation))
    (isHeld : holds operation) {sites : Sites} {folded : Aggregate} {tuple : Nat}
    (code : aggregateCode ordinal plan sites folded tuple operation = some result) : holds result := by
  obtain ⟨_, _, _, _, _, _, _, _, _, _, rfl⟩ := aggregateCode_eq_some code
  exact aggregate _ _ _ _ _ operation isHeld

/-- What the middle of a query has, and filters, aggregates and scans take over from what is within them, the query
has. -/
theorem of_ruleCode (filter : ∀ condition operation, holds operation → holds (.filter condition operation))
    (aggregate : ∀ relation tuple function value condition operation, holds operation →
      holds (.aggregate relation tuple function value condition operation))
    (scan : ∀ relation tuple operation, holds operation → holds (.scan relation tuple operation))
    {middle : Frame → Option Op} (inner : ∀ frame operation, middle frame = some operation → holds operation)
    (code : ruleCode ordinal plan clause version middle = some statement) :
    ∃ operation, statement = .query operation ∧ holds operation := by
  obtain ⟨frame, operation, constrained, aggregated, scanned, _, isInner, isConstrained, isAggregated, isScanned,
    rfl⟩ := ruleCode_eq_some code
  have constraints := of_foldrM holds (fun literal _ before after isHeld code => by
    obtain ⟨condition, _, rfl⟩ := Option.map_eq_some_iff.1 code
    exact of_underGuard filter isHeld condition) (inner _ _ isInner) isConstrained
  have aggregates := of_foldrM holds
    (fun entry _ before after isHeld code => of_aggregateCode aggregate isHeld code) constraints isAggregated
  refine ⟨scanned, rfl, of_foldrM holds (fun entry _ before after isHeld code => ?_) aggregates isScanned⟩
  obtain ⟨conditions, _, same⟩ := Option.bind_eq_some_iff.1 code
  cases same
  exact scan _ _ _ (of_guardedBy filter isHeld conditions)

/-- What the code of the head has, the query of a clause has. A fact has no version of its own. -/
theorem of_clauseCode (filter : ∀ condition operation, holds operation → holds (.filter condition operation))
    (aggregate : ∀ relation tuple function value condition operation, holds operation →
      holds (.aggregate relation tuple function value condition operation))
    (scan : ∀ relation tuple operation, holds operation → holds (.scan relation tuple operation))
    (head : ∀ sites level operation, headCode ordinal plan clause id sites level
      (!clause.isFact && version.isIncremental) = some operation → holds operation)
    (code : clauseCode ordinal plan clause id version = some statement) :
    ∃ operation, statement = withText plan clause (.query operation) ∧ holds operation := by
  obtain ⟨_, query, isQuery, rfl⟩ := clauseCode_eq_some code
  rw [clauseQuery] at isQuery
  split at isQuery
  · next isFact =>
      obtain ⟨operation, isInsertion, rfl⟩ := factCode_eq_some isQuery
      rw [isFact] at head
      exact ⟨operation, rfl, head _ _ operation isInsertion⟩
  · next isRule =>
      rw [Bool.eq_false_of_not_eq_true isRule] at head
      obtain ⟨operation, rfl, isHeld⟩ := of_ruleCode filter aggregate scan (fun _ _ => head _ _ _) isQuery
      exact ⟨operation, rfl, isHeld⟩

end Shape

/-! ## The shape of the evaluation -/

/-- What comes after the queries that a stratum runs once. -/
def repeatedCode (names : List Name) (queries : List (List Stmt)) : List Stmt :=
  names.map seedCode ++ [.loop (roundCode names queries)] ++ (names.map clearRoundsCode).flatten

theorem stratumCode_eq_some {stratum : Stratum} {statement : Stmt}
    (code : stratumCode ordinal plan stratum = some statement) :
    ∃ once, (completeQueries plan stratum.relations).mapM (Query.code ordinal plan) = some once ∧
      if stratum.recursive then
        ∃ queries, (roundQueries plan stratum.relations).mapM (Query.code ordinal plan) = some queries.flatten ∧
          statement = .sequence (once ++ repeatedCode stratum.relations queries)
      else statement = .sequence once := by
  rw [stratumCode] at code
  obtain ⟨complete, isComplete, code⟩ := Option.bind_eq_some_iff.1 code
  refine ⟨complete.flatten, by rw [← completeCode_eq, isComplete]; rfl, ?_⟩
  split at code
  · next recursive =>
      obtain ⟨loop, isLoop, same⟩ := Option.bind_eq_some_iff.1 code
      cases same
      obtain ⟨queries, areQueries, rfl⟩ := Option.map_eq_some_iff.1 isLoop
      rw [if_pos recursive]
      refine ⟨queries, by rw [← recursiveCode_eq, areQueries]; rfl, ?_⟩
      simp [repeatedCode]
  · next once =>
      cases code
      rw [if_neg once]

/-- What sequences and loops take over from their statements, and what the statements have that manage the tables for
rounds in a stratum with a loop. -/
structure Composes (holds : Stmt → Prop) (stratum : Stratum) : Prop where
  sequence : ∀ statements, (∀ statement ∈ statements, holds statement) → holds (.sequence statements)
  loop : ∀ body, holds body → holds (.loop body)
  exit : stratum.recursive = true → holds (.exit (allOf (stratum.relations.map fun name => .isEmpty (freshName name))))
  manages : stratum.recursive = true → ∀ name ∈ stratum.relations,
    ∀ statement ∈ seedCode name :: (advanceCode name ++ clearRoundsCode name), holds statement

/-- Tables for rounds are managed by merging, swapping and clearing. -/
theorem Composes.of_management {holds : Stmt → Prop} {stratum : Stratum}
    (sequence : ∀ statements, (∀ statement ∈ statements, holds statement) → holds (.sequence statements))
    (loop : ∀ body, holds body → holds (.loop body))
    (exit : stratum.recursive = true →
      holds (.exit (allOf (stratum.relations.map fun name => .isEmpty (freshName name)))))
    (merge : ∀ source target, holds (.merge source target)) (swap : ∀ first second, holds (.swap first second))
    (clear : ∀ name ∈ stratum.relations, holds (.clear (deltaName name)) ∧ holds (.clear (freshName name))) :
    Composes holds stratum where
  sequence := sequence
  loop := loop
  exit := exit
  manages _ name isName statement member := by
    obtain ⟨clearDelta, clearFresh⟩ := clear name isName
    simp only [advanceCode, clearRoundsCode, seedCode, List.mem_cons, List.mem_append, List.not_mem_nil,
      or_false] at member
    rcases member with rfl | (rfl | rfl | rfl) | rfl | rfl
    · exact merge _ _
    · exact merge _ _
    · exact swap _ _
    · exact clearFresh
    · exact clearDelta
    · exact clearFresh

/-- A stratum runs the query of a clause over complete relations, or in its loop the version that reads the previous
round in one of the stratum's relations. -/
structure Query.RunBy (plan : Plan) (stratum : Stratum) (query : Query) : Prop where
  atId : plan.program.clauses[query.id]? = some query.clause
  head : query.clause.head.relation ∈ stratum.relations
  version : query.version = .complete ∨ stratum.recursive = true ∧
    ∃ position ∈ positionsWithin query.clause stratum.relations, query.version = .incremental (some position)

/-- What the queries of all clauses of a stratum have in common holds of its code. -/
theorem of_stratumCode {holds : Stmt → Prop} {stratum : Stratum} {evaluation : Stmt}
    (composes : Composes holds stratum)
    (each : ∀ query : Query, query.RunBy plan stratum →
      ∀ statement, query.code ordinal plan = some statement → holds statement)
    (code : stratumCode ordinal plan stratum = some evaluation) : holds evaluation := by
  have ofQueries {queries : List Query} {statements : List Stmt}
      (codes : queries.mapM (Query.code ordinal plan) = some statements)
      (own : ∀ query ∈ queries, query.RunBy plan stratum) : ∀ statement ∈ statements, holds statement := by
    intro statement member
    obtain ⟨query, isQuery, isCode⟩ := mem_of_mapM codes member
    exact each query (own query isQuery) statement isCode
  obtain ⟨once, areOnce, shape⟩ := stratumCode_eq_some code
  have ofOnce := ofQueries areOnce fun query isQuery => by
    obtain ⟨atId, isHead, _, isComplete⟩ := mem_completeQueries.1 isQuery
    exact ⟨atId, isHead, .inl isComplete⟩
  split at shape
  · next recursive =>
      obtain ⟨queries, areRepeated, rfl⟩ := shape
      have ofRounds := ofQueries areRepeated fun query isQuery => by
        obtain ⟨atId, isHead, _, isVersion⟩ := mem_roundQueries.1 isQuery
        exact ⟨atId, isHead, .inr ⟨recursive, isVersion⟩⟩
      have ofManagement {parts : Name → List Stmt}
          (areParts : ∀ name, parts name ⊆ advanceCode name ++ clearRoundsCode name) :
          ∀ statement ∈ (stratum.relations.map parts).flatten, holds statement := by
        intro statement member
        obtain ⟨_, isPart, inPart⟩ := List.mem_flatten.1 member
        obtain ⟨name, isName, rfl⟩ := List.mem_map.1 isPart
        exact composes.manages recursive name isName statement (List.mem_cons_of_mem _ (areParts name inPart))
      refine composes.sequence _ fun statement member => ?_
      rw [repeatedCode, List.mem_append, List.append_assoc, List.mem_append, List.singleton_append,
        List.mem_cons] at member
      rcases member with isOnce | isSeed | rfl | isClear
      · exact ofOnce statement isOnce
      · obtain ⟨name, isName, rfl⟩ := List.mem_map.1 isSeed
        exact composes.manages recursive name isName _ List.mem_cons_self
      · refine composes.loop _ (composes.sequence _ fun statement member => ?_)
        rw [List.append_assoc, List.mem_append, List.singleton_append, List.mem_cons] at member
        rcases member with isQuery | rfl | isAdvance
        · exact ofRounds statement isQuery
        · exact composes.exit recursive
        · exact ofManagement (fun name => List.subset_append_left _ _) statement isAdvance
      · exact ofManagement (fun name => List.subset_append_right _ _) statement isClear
  · subst shape
    exact composes.sequence _ ofOnce

/-- What the code of all strata and the clearing of relations have in common holds of the evaluation. -/
theorem of_evaluationCode {holds : Stmt → Prop} {evaluation : Stmt}
    (sequence : ∀ statements, (∀ statement ∈ statements, holds statement) → holds (.sequence statements))
    (clear : ∀ relation, holds (.clear relation))
    (each : ∀ stratum ∈ plan.strata, ∀ statement, stratumCode ordinal plan stratum = some statement → holds statement)
    (code : evaluationCode ordinal plan = some evaluation) : holds evaluation := by
  obtain ⟨_, _, code⟩ := Option.bind_eq_some_iff.1 code
  obtain ⟨steps, areSteps, same⟩ := Option.bind_eq_some_iff.1 code
  cases same
  apply sequence
  intro step member
  obtain ⟨entry, isEntry, isStep⟩ := mem_of_mapM areSteps member
  obtain ⟨statement, isStatement, same⟩ := Option.bind_eq_some_iff.1 isStep
  cases same
  apply sequence
  refine List.forall_mem_cons.2 ⟨each entry.1 (List.fst_mem_of_mem_zipIdx isEntry) statement isStatement,
    List.forall_mem_singleton.2 ?_⟩
  unfold clearExpiredCode
  split
  · apply sequence
    intro cleared isCleared
    obtain ⟨name, _, rfl⟩ := List.mem_map.1 isCleared
    exact clear name.text
  · exact sequence [] fun _ isCleared => absurd isCleared List.not_mem_nil

/-- The evaluation has one step for each stratum: the code of the stratum, and what is cleared after it. -/
theorem evaluationCode_eq_some {statement : Stmt} (code : evaluationCode ordinal plan = some statement) :
    ∃ steps : List Stmt, statement = .sequence steps ∧ steps.length = plan.strata.length ∧
      ∀ (position : Nat) (stratum : Stratum), plan.strata[position]? = some stratum →
        ∃ evaluation, stratumCode ordinal plan stratum = some evaluation ∧
          steps[position]? = some (.sequence
            [evaluation, clearExpiredCode plan.strategy (plan.expirations[position]?.getD [])]) := by
  obtain ⟨_, _, code⟩ := Option.bind_eq_some_iff.1 code
  obtain ⟨steps, areSteps, same⟩ := Option.bind_eq_some_iff.1 code
  cases same
  have each := forall₂_of_mapM areSteps
  refine ⟨steps, rfl, by simpa using each.length_eq.symm, fun position stratum found => ?_⟩
  have isEntry : plan.strata.zipIdx[position]? = some (stratum, position) := by simp [List.getElem?_zipIdx, found]
  obtain ⟨inside, isEntry⟩ := List.getElem?_eq_some_iff.1 isEntry
  have isStep := each.get inside (each.length_eq ▸ inside)
  rw [List.get_eq_getElem, isEntry] at isStep
  obtain ⟨evaluation, isEvaluation, same⟩ := Option.bind_eq_some_iff.1 isStep
  refine ⟨evaluation, isEvaluation, ?_⟩
  rw [List.getElem?_eq_getElem (each.length_eq ▸ inside)]
  exact congrArg some (Option.some.inj same).symm

end DatalogRam.Lowering
