import DatalogRam.Proofs.Lowering.Readable
import DatalogRam.Proofs.Lowering.StratumQueries

/-!
# When an evaluation has code

The evaluation of a program has code exactly if the columns of its relations have kinds and every clause that a
stratum evaluates can be lowered. Which clauses those are is known without the code.
-/

namespace DatalogRam.Lowering

open Ram Analysis

variable {ordinal : String → Int64} {plan : Plan}

/-- The queries of a stratum: those that it runs once and those that it repeats. -/
def stratumQueries (plan : Plan) (stratum : Stratum) : List Query :=
  completeQueries plan stratum.relations ++ if stratum.recursive then roundQueries plan stratum.relations else []

theorem isSome_queryCodes_iff {queries : List Query} :
    (queries.mapM (Query.code ordinal plan)).isSome ↔
      ∀ query ∈ queries, Clause.Lowerable plan.program query.clause := by
  rw [isSome_mapM_iff]
  exact forall₂_congr fun query _ => isSome_clauseCode_iff

/-- The code of a stratum is that of its queries. -/
theorem isSome_stratumCode_iff {stratum : Stratum} :
    (stratumCode ordinal plan stratum).isSome ↔
      ∀ query ∈ stratumQueries plan stratum, Clause.Lowerable plan.program query.clause := by
  have complete : (stratum.relations.mapM (completeCode ordinal plan)).isSome ↔
      ∀ query ∈ completeQueries plan stratum.relations, Clause.Lowerable plan.program query.clause := by
    rw [← @isSome_queryCodes_iff ordinal, ← completeCode_eq, Option.isSome_map]
  have repeated : (loopCode ordinal plan stratum.relations).isSome ↔
      ∀ query ∈ roundQueries plan stratum.relations, Clause.Lowerable plan.program query.clause := by
    rw [← @isSome_queryCodes_iff ordinal, ← recursiveCode_eq, Option.isSome_map, loopCode, Option.isSome_map]
  rw [stratumQueries, stratumCode]
  split
  · simp only [List.forall_mem_append, ← complete, ← repeated]
    cases stratum.relations.mapM (completeCode ordinal plan) <;>
      cases loopCode ordinal plan stratum.relations <;> simp
  · rw [List.append_nil, ← complete]
    cases stratum.relations.mapM (completeCode ordinal plan) <;> simp

/-- The evaluation has code exactly if all columns have kinds and all clauses of the strata can be lowered. -/
theorem isSome_evaluationCode_iff :
    (evaluationCode ordinal plan).isSome ↔
      plan.program.relations.all (hasColumns plan) = true ∧
        ∀ stratum ∈ plan.strata, ∀ query ∈ stratumQueries plan stratum,
          Clause.Lowerable plan.program query.clause := by
  have steps : (plan.strata.zipIdx.mapM (stepCode ordinal plan)).isSome ↔
      ∀ stratum ∈ plan.strata, ∀ query ∈ stratumQueries plan stratum,
        Clause.Lowerable plan.program query.clause := by
    have each (entry : Stratum × Nat) : (stepCode ordinal plan entry).isSome ↔
        ∀ query ∈ stratumQueries plan entry.1, Clause.Lowerable plan.program query.clause := by
      rw [← @isSome_stratumCode_iff ordinal, stepCode]
      cases stratumCode ordinal plan entry.1 <;> simp
    rw [isSome_mapM_iff]
    constructor
    · intro all stratum member
      obtain ⟨position, atPosition⟩ := List.getElem?_of_mem member
      exact (each (stratum, position)).1 (all _ (List.mem_zipIdx_iff_getElem?.2 atPosition))
    · exact fun all entry member => (each entry).2 (all entry.1 (List.fst_mem_of_mem_zipIdx member))
  rw [← steps, evaluationCode]
  cases plan.program.relations.all (hasColumns plan) with
  | false => exact iff_of_false Bool.false_ne_true fun both => Bool.false_ne_true both.1
  | true => cases plan.strata.zipIdx.mapM (stepCode ordinal plan) <;> simp [guard]

end DatalogRam.Lowering
