import DatalogRam.Proofs.Evaluation.Stores
import DatalogRam.Proofs.Lowering.Programs
import DatalogRam.Proofs.Lowering.Total

/-!
# Semi-naive code computes the stratified model

A plain program is lowered for semi-naive evaluation without an error, its main statement comes to an end on every
store of declared rows, and then the outputs have the rows of the stratified model.
-/

namespace DatalogRam

open Analysis Lowering Machine Ram

/-- Programs whose semi-naive code is known to compute their model. -/
structure Program.Plain (program : Program) : Prop where
  typed : ∃ kinds, resolveTypes program.types = .ok kinds ∧
    ∀ relation ∈ program.relations, ∀ column ∈ relation.attributes, (kinds.kind? column.type).isSome
  distinct : (tableNames program).Nodup
  declared : ∀ clause ∈ program.clauses, Lowering.Clause.Declared program clause
  noEquivalence : program.NoEquivalence
  flat : ∀ clause ∈ program.clauses, clause.Flat
  bound : ∀ clause ∈ program.clauses, clause.Bound
  stratified : program.Stratified

/-- The rows that a store has for declared relations. -/
def storedFacts (program : Program) (store : Store) : Facts := fun name =>
  {row | name ∈ program.relationNames ∧ row ∈ store.rows name.text}

variable {program : Program}

theorem Program.Plain.regular (plain : program.Plain) : program.Regular where
  distinct := plain.distinct
  simple := fun clause member => (plain.flat clause member).simple
  declared := plain.declared
  stratified := plain.stratified

/-- The strata rank the relations of a regular program. -/
theorem nonempty_stratification (regular : program.Regular) : Nonempty (Stratification program.clauses) := by
  have ranked (name : Name) : ∃ position, name ∈ program.relationNames → InStratum program position name := by
    by_cases declared : name ∈ program.relationNames
    · obtain ⟨position, inside⟩ := exists_inStratum declared
      exact ⟨position, fun _ => inside⟩
    · exact ⟨0, fun isDeclared => absurd isDeclared declared⟩
  choose rank isRank using ranked
  have inHead {clause : Clause} (isClause : clause ∈ program.clauses) :
      InStratum program (rank clause.head.relation) clause.head.relation :=
    isRank _ (regular.declared clause isClause _ clause.head_mem_atoms).1
  have below {clause : Clause} (isClause : clause ∈ program.clauses) {name : Name} (reads : name ∈ clause.reads) :
      InStratum program (rank name) name ∧ rank name ≤ rank clause.head.relation := by
    have declared := regular.declared_of_reads isClause reads
    exact ⟨isRank name declared, (inHead isClause).le_of_readsThrough regular.once (isRank name declared)
      (.single ⟨declared, clause, isClause, rfl, reads⟩)⟩
  refine ⟨⟨rank, fun clause isClause relation args member => ?_, fun clause isClause relation args member => ?_⟩⟩
  · have isAtom : (⟨relation, args⟩ : Atom) ∈ clause.positiveAtoms := Clause.mem_positiveAtoms.2 member
    exact (below isClause (Clause.reads_of_positive isAtom)).2
  · have isAtom : (⟨relation, args⟩ : Atom) ∈ clause.negatedAtoms := Clause.mem_negatedAtoms.2 member
    obtain ⟨inside, lower⟩ := below isClause (Clause.reads_of_negated isAtom)
    refine Nat.lt_of_le_of_ne lower fun same => ?_
    exact not_inStratum_of_negated regular isClause (inHead isClause) isAtom (same ▸ inside)

/-- The evaluation of a plain program has code. -/
theorem exists_lowered_of_plain (plain : program.Plain) (debugInfo : Bool) :
    ∃ compiled, (lowerProgram program .seminaive debugInfo).result = .ok compiled := by
  obtain ⟨kinds, resolved, typed⟩ := plain.typed
  let plan : Plan := ⟨program, .seminaive, debugInfo, kinds, strata program, schedule program (strata program)⟩
  have planned : Plan.of program .seminaive debugInfo = .ok plan := by
    rw [Plan.of, resolved]
  have regular : plan.program.Regular := plain.regular
  have grounded : ∀ clause ∈ plan.program.clauses, Lowering.Clause.Grounded clause :=
    fun clause member => grounded_of_bound (plain.bound clause member)
  refine exists_lowered planned fun ordinal => isSome_evaluation regular grounded fun relation member => ?_
  exact List.all_eq_true.2 (typed relation member)

theorem contentsOf_eq_storedFacts (distinct : (tableNames program).Nodup) {store : Store}
    (holds : HoldsDeclared program 0 store) : contentsOf program 0 store = storedFacts program store := by
  funext name
  ext row
  refine and_congr_right fun declared => ?_
  have shaped : ∀ row ∈ store.rows name.text, row.length = arityOf program name :=
    fun row member => (holds.own distinct .full declared member).2
  rw [content_of_shaped shaped]
  exact Iff.rfl

/-- A plain program is lowered without an error, its run on a store of declared rows ends without a fault, and
every output then has the rows of the stratified model over the rows of the store. -/
theorem finishes_with_stratifiedModel (plain : program.Plain) (debugInfo : Bool) {store : Store}
    (holds : HoldsDeclared program 0 store) :
    Nonempty (Stratification program.clauses) ∧
      ∃ compiled, (lowerProgram program .seminaive debugInfo).result = .ok compiled ∧
        ∃ final, Finishes compiled (.start compiled store) final ∧
          ∀ (stratification : Stratification program.clauses), ∀ relation ∈ program.relations,
            relation.hasQualifier .output = true →
              {row | row ∈ final.store.rows relation.name.text} =
                stratifiedModel compiled.symbols.ordinal program.clauses (storedFacts program store) stratification
                  relation.name := by
  have regular := plain.regular
  refine ⟨nonempty_stratification regular, ?_⟩
  obtain ⟨compiled, lowered⟩ := exists_lowered_of_plain plain debugInfo
  refine ⟨compiled, lowered, ?_⟩
  obtain ⟨plan, planned, code⟩ := evaluationCode_of_lowered lowered (Symbols.agrees_ordinal compiled.symbols)
  obtain ⟨scheduled, rfl, strategy⟩ := scheduled_of planned
  have noMore : plan.auxiliary = 0 := by
    rw [Plan.auxiliary, strategy]
    rfl
  have computes := computes_evaluation regular scheduled [] code
  have start := atRest_start regular.distinct (noMore ▸ holds : HoldsDeclared plan.program plan.auxiliary store)
  obtain ⟨facts, evaluates⟩ := exists_evaluatesTo_of_regular compiled.symbols.ordinal regular
    (contentsOf plan.program plan.auxiliary store)
  have ends : ∃ final, Finishes compiled (.start compiled store) final ∧ AtRest plan _ facts final.store :=
    computes.exists_finishes start evaluates
  obtain ⟨final, finishes, atRest⟩ := ends
  refine ⟨final, finishes, fun stratification relation member output => ?_⟩
  rw [noMore, contentsOf_eq_storedFacts regular.distinct holds] at evaluates
  have content := content_of_output regular.distinct atRest member output
  rw [noMore, content_eq_rows atRest noMore regular.once member output] at content
  rw [content]
  exact eq_stratifiedModel stratification (evaluatesTo_eq_leastModel regular plain.noEquivalence evaluates) _

theorem plain_reachability : reachability.Plain where
  typed := ⟨primitiveKinds, rfl, by decide⟩
  distinct := regular_reachability.distinct
  declared := regular_reachability.declared
  noEquivalence := by
    unfold Program.NoEquivalence
    decide
  flat := flat_reachability
  bound := by
    unfold Clause.Bound
    decide +kernel
  stratified := regular_reachability.stratified

theorem reachability_finishes :
    reachability.Plain ∧ HoldsDeclared reachability 0 edges ∧
      Nonempty (Stratification reachability.clauses) ∧
        ∃ compiled, (lowerProgram reachability .seminaive true).result = .ok compiled ∧
          ∃ final, Finishes compiled (.start compiled edges) final ∧
            ∀ (stratification : Stratification reachability.clauses), ∀ relation ∈ reachability.relations,
              relation.hasQualifier .output = true →
                {row | row ∈ final.store.rows relation.name.text} =
                  stratifiedModel compiled.symbols.ordinal reachability.clauses (storedFacts reachability edges)
                    stratification relation.name :=
  ⟨plain_reachability, holdsDeclared_edges,
    finishes_with_stratifiedModel plain_reachability true holdsDeclared_edges⟩

end DatalogRam
